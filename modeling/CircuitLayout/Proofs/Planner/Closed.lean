import CircuitLayout.Proofs.Forks.Stranded
import CircuitLayout.Proofs.Planner.Openings
import CircuitLayout.Proofs.Planner.Requests

namespace CircuitLayout

/-! # Regions are closed

Whatever a planner does on a prover on which no region is open, it leaves none open, also if it fails.
So every region that it comes to write can be opened. Main statements: `LayoutCall.exists_closed`, what
one call of a planner opens and records, and `Planner.regions_closed`, what a program of them does.
-/

open Run (Emits Keeps)
open Desk (onTarget keeps_onTarget keeps_getKept)
open Planner (measureAndPlace measureBatch batchName numbered writeNumbered finish allOrFirstFault
  writeSerially writeForked writePlaced)

variable {σ α β γ κ ρ : Type}

/-- What comes after a run succeeds only if the run does. -/
theorem Run.isOk_of_isOk_bind {m : Run σ α} {f : α → Run σ β} {s : σ}
    (h : ((m >>= f) s).result.isOk = true) : (m s).result.isOk = true := by
  obtain ⟨b, hends⟩ := exists_ends_of_isOk h
  obtain ⟨a, t, hm, -⟩ := (ends_bind ..).1 hends
  rw [hm.1]
  rfl

namespace Prover

/-! ## What opens nothing -/

theorem quiet_pure (a : α) : Quiet (pure a : Run (Desk Prover κ) α) :=
  fun _ hidle => ⟨hidle, (List.append_nil _).symm, rfl⟩

theorem quiet_measureAndPlace (name : String) (routine : Routine α) :
    Quiet (measureAndPlace name routine : Run (Layout Prover) RowSpan) :=
  .of_keeps (fun _ => Planner.keeps_measureAndPlace name routine)
    (Planner.opensNothing_measureAndPlace name routine)

theorem quiet_measureBatch (name : String) (routines : List (Pass → Routine α)) :
    Quiet (measureBatch name routines : Run (Layout Prover) (List RowSpan)) :=
  .of_keeps (fun _ => Keeps.each fun _ _ => Planner.keeps_measureAndPlace _ _)
    (Emits.each fun _ _ => Planner.opensNothing_measureAndPlace _ _)

theorem quiet_allOrFirstFault (name : String) (results : List (Except Fault β)) :
    Quiet (allOrFirstFault name results : Run (Desk Prover κ) (List β)) :=
  .of_keeps (fun _ => Planner.keeps_allOrFirstFault name results)
    (Planner.opensNothing_allOrFirstFault name results)

theorem quiet_finish (w : β × Requests) : Quiet (finish w : Run (Layout Prover) β) :=
  .of_keeps (fun records => (AtRest.callKeeps records).toCellKeeps.finish w)
    (Planner.opensNothing_finish reports w)

theorem quiet_onTarget {m : Run Prover α} (hkeeps : ∀ records, Keeps (AtRest records) m)
    (hmute : Emits Event.IsMute m) : Quiet (onTarget m : Run (Desk Prover κ) α) :=
  .of_keeps (fun records => keeps_onTarget (hkeeps records)) (Emits.zoom hmute.opensNothing)

theorem quiet_fork (ranges : List RowSpan) :
    Quiet (onTarget (Assignment.fork ranges) : Run (Desk Prover κ) (List Prover)) :=
  quiet_onTarget (fun records => keeps_fork_of_records
    (P := fun rs current => rs = records ∧ current = none) ranges) (reports.fork ranges)

/-! ## Batches -/

/-- Attempts at writing one region after another open each of them and leave a record of each. -/
theorem closes_each_attempt {f : γ → Run (Desk Prover κ) β} {opening : γ → Opening}
    {name : γ → String}
    (hf : ∀ x d, d.target.current = none → ∃ r, r.name = name x ∧ Closes (f x) d [opening x] [r])
    (xs : List γ) {d : Desk Prover κ} (hidle : d.target.current = none) :
    ∃ more, more.map (·.name) = xs.map name ∧
      Closes (Run.each (fun x => (f x).attempt) xs) d (xs.map opening) more := by
  induction xs generalizing d with
  | nil => exact ⟨[], rfl, quiet_pure [] d hidle⟩
  | cons x xs ih =>
    obtain ⟨r, hname, hx⟩ := hf x d hidle
    obtain ⟨more, hnames, hxs⟩ := ih hx.idle
    have hends : (f x).attempt.Ends d (f x d).result (f x d).state := ⟨rfl, rfl⟩
    refine ⟨r :: more, by rw [List.map_cons, List.map_cons, hname, hnames], ?_⟩
    rw [Run.each_cons]
    exact hx.attempt.bind hends (hxs.bind_quiet fun _ => quiet_pure _)

/-- A batch that is written one region after another opens all its regions. -/
theorem closes_writeSerially (name : String) (starts : Array Nat) (first : Nat)
    (routines : List (Pass → Routine α)) {d : Layout Prover} (hidle : d.target.current = none) :
    ∃ more, more.map (·.name) = routines.zipIdx.map (fun x => batchName name x.2) ∧
      Closes (writeSerially name starts first routines) d
        (routines.zipIdx.map fun x => .region (first + x.2)) more := by
  obtain ⟨more, hnames, hwritten⟩ := closes_each_attempt
    (fun (x : (Pass → Routine α) × Nat) _ hidle =>
      closes_writeRegion starts (first + x.2) (batchName name x.2) (x.1 .writing) hidle)
    routines.zipIdx hidle
  exact ⟨more, hnames, hwritten.bind_quiet fun results => quiet_allOrFirstFault name results⟩

/-- What is written on provers of their own opens what it opens there, and leaves no records here. -/
theorem closes_each_aside {m : γ → Run Prover β} {own : γ → Prover} {opening : γ → Opening}
    {xs : List γ} (hm : ∀ x ∈ xs, openings (m x (own x)).events = [opening x]) {d : Desk Prover κ}
    (hidle : d.target.current = none) :
    Closes (Run.each (fun x => Run.aside (own x) (m x)) xs) d (xs.map opening) [] := by
  have hends : (Run.each (fun x => Run.aside (own x) (m x)) xs).Ends d
      (xs.map fun x => ((m x (own x)).result, (m x (own x)).state)) d :=
    (ends_each_aside ..).2 ⟨rfl, rfl⟩
  refine ⟨?_, ?_, ?_⟩
  · rw [hends.2]
    exact hidle
  · rw [hends.2, List.append_nil]
  · rw [Planner.events_each_aside]
    exact openings_flatMap hm

/-- A region of a batch that is written on its fork is opened there, and the fork keeps its record. -/
theorem opened_writeNumbered (name : String) (starts : Array Nat) (first : Nat)
    {x : (Prover × (Pass → Routine α)) × Nat} (hidle : x.1.1.current = none)
    (hnew : x.1.1.records = #[]) :
    openings (writeNumbered name starts first x x.1.1).events = [.region (first + x.2)] ∧
      (writeNumbered name starts first x x.1.1).state.records.toList.map (·.name) =
        [batchName name x.2] := by
  obtain ⟨r, hname, hwritten⟩ := closes_writeRegion starts (first + x.2) (batchName name x.2)
    (x.1.2 .writing) (d := (⟨x.1.1, ()⟩ : Desk Prover Unit)) hidle
  have hrecords : (writeNumbered name starts first x x.1.1).state.records.toList =
      x.1.1.records.toList ++ [r] := hwritten.records
  refine ⟨hwritten.told, ?_⟩
  rw [hrecords, hnew, ← hname]
  rfl

theorem keeps_records_rejoin (records : Array RegionRecord) (forks : List Prover) :
    Keeps (fun p : Prover => p.records = records) (rejoin forks) := by
  refine Keeps.get_bind fun p hp => (Keeps.ofExcept _).bind fun advice => ?_
  refine Keeps.bind (Keeps.set (s := { p with advice := advice }) hp) fun _ => ?_
  exact keeps_onBoard_of (fun _ _ hp => hp) _

/-- A merge leaves the records of forks one after another, all of them if it succeeds. -/
theorem records_merge (fs : List Prover) (p : Prover) :
    ∃ taken, taken <+: fs ∧
      (merge (fs.map .fork) p).state.records.toList =
        p.records.toList ++ taken.flatMap (·.records.toList) ∧
      ((merge (fs.map .fork) p).result.isOk = true → taken = fs) := by
  -- records are taken from the forks in the order of the forks
  have hall : (fs.foldl (fun all f => all ++ f.records) p.records).toList =
      p.records.toList ++ fs.flatMap (·.records.toList) := by
    rw [foldl_records, Array.toList_append]
  cases hresult : (merge (fs.map .fork) p).result with
  | ok _ =>
    obtain ⟨-, forks, q, advice, b, hloop, -, -, hstate⟩ := (ends_merge ..).1 ⟨hresult, rfl⟩
    obtain ⟨-, -, c, -, rfl⟩ := ends_mergeOnes.1 hloop
    exact ⟨fs, List.prefix_rfl, (congrArg (·.records.toList) hstate).trans hall, fun _ => rfl⟩
  | error fault =>
    rw [merge_eq] at hresult ⊢
    -- refused at once, nothing was taken
    rcases Run.of_bind_error hresult with ⟨-, hstate⟩ | ⟨_, q, hcheck, hrest, hstate⟩
    · refine ⟨[], List.nil_prefix, ?_, nofun⟩
      rw [hstate, List.flatMap_nil, List.append_nil]
      rfl
    obtain ⟨b, hb, rfl⟩ := (ends_onBoard ..).1 hcheck
    obtain ⟨hphase, rfl⟩ := (Board.ends_requireSynthesizing ..).1 hb
    rcases Run.of_bind_error hrest with ⟨hloop, hstate'⟩ | ⟨forks, q, hloop, -, hstate'⟩
    · -- a fork was refused: the ones before it have handed over their records
      obtain ⟨n, c, -, hleft⟩ := of_mergeOnes_error hphase hloop
      refine ⟨fs.take n, List.take_prefix n fs, ?_, nofun⟩
      rw [hstate, hstate', hleft, taking, Array.toList_append]
    · obtain ⟨-, -, c, -, rfl⟩ := ends_mergeOnes.1 hloop
      -- only the stores were refused, after all records had come over
      refine ⟨fs, List.prefix_rfl, ?_, nofun⟩
      rw [hstate, hstate', keeps_records_rejoin _ forks _ rfl]
      exact hall

/-- A merge opens nothing. -/
theorem closes_merge (fs : List Prover) {d : Desk Prover κ} (hidle : d.target.current = none) :
    ∃ taken, taken <+: fs ∧
      Closes (onTarget (Assignment.merge (fs.map .fork))) d [] (taken.flatMap (·.records.toList)) ∧
      ((onTarget (Assignment.merge (fs.map .fork)) d).result.isOk = true → taken = fs) := by
  obtain ⟨taken, hprefix, hrecords, hall⟩ := records_merge fs d.target
  have hquiet : Emits Event.OpensNothing (Assignment.merge (fs.map .fork) : Run Prover Unit) :=
    (reports.merge _).opensNothing
  exact ⟨taken, hprefix, ⟨keeps_current_merge none _ d.target hidle, hrecords,
    hquiet.openings_eq_nil d.target⟩, hall⟩

/-- What is left to do once the regions of a batch were written on their forks. -/
def takeBack (name : String) (written : List (Except Fault β × Prover)) :
    Run (Layout Prover) (List β) := do
  let results ← allOrFirstFault name (written.map (·.1))
  onTarget (Assignment.merge (written.map fun w => .fork w.2))
  return results

/-- Forks are taken back with the records that they kept, all of them if nothing failed. -/
theorem closes_takeBack (name : String) (written : List (Except Fault β × Prover))
    {d : Layout Prover} (hidle : d.target.current = none) :
    ∃ taken, taken <+: written.map (·.2) ∧
      Closes (takeBack name written) d [] (taken.flatMap (·.records.toList)) ∧
      ((takeBack name written d).result.isOk = true → taken = written.map (·.2)) := by
  have hsettled := quiet_allOrFirstFault name (written.map (·.1)) d hidle
  cases hresults : (allOrFirstFault name (written.map (·.1)) d).result with
  | error fault =>
    -- a region failed on its fork, and no fork is merged
    refine ⟨[], List.nil_prefix, hsettled.of_error hresults _, fun hok => ?_⟩
    obtain ⟨hfault, -⟩ := Run.bind_eq_of_error hresults fun results => do
      onTarget (Assignment.merge (written.map fun w => .fork w.2))
      return results
    rw [takeBack, hfault] at hok
    exact absurd hok Bool.false_ne_true
  | ok results =>
    -- all regions were written: what closes is what the merge takes over
    obtain ⟨taken, hprefix, hmerge, hall⟩ := closes_merge (written.map (·.2)) hsettled.idle
    rw [List.map_map] at hmerge hall
    refine ⟨taken, hprefix, ?_, fun hok => ?_⟩
    · exact hsettled.bind ⟨hresults, rfl⟩ (hmerge.bind_quiet fun _ => quiet_pure _)
    · obtain ⟨hresult, -⟩ := Run.Ends.bind_eq ⟨hresults, rfl⟩ fun results => do
        onTarget (Assignment.merge (written.map fun w => .fork w.2))
        return results
      rw [takeBack, hresult] at hok
      exact hall (Run.isOk_of_isOk_bind hok)

/-- What the regions of a batch leave on their forks. -/
def writtenOn (name : String) (starts : Array Nat) (first : Nat)
    (regions : List ((Prover × (Pass → Routine α)) × Nat)) :
    List (Except Fault (α × Requests) × Prover) :=
  regions.map fun x => ((writeNumbered name starts first x x.1.1).result,
    (writeNumbered name starts first x x.1.1).state)

theorem map_number_numbered {forks : List Prover} {routines : List (Pass → Routine α)}
    (hlength : forks.length = routines.length) (f : Nat → γ) :
    (numbered forks routines).map (fun x => f x.2) = routines.zipIdx.map fun x => f x.2 := by
  have hnumbers : ∀ {δ : Type} (xs : List δ),
      xs.zipIdx.map (fun x => f x.2) = (List.range' 0 xs.length).map f := by
    intro δ xs
    rw [← List.zipIdx_map_snd, List.map_map]
    rfl
  rw [hnumbers, hnumbers, List.length_zip, hlength, Nat.min_self]

/-- No region is open on a fork, and there are no records on it. -/
theorem blank_of_ends_fork {p q : Prover} {ranges : List RowSpan} {forks : List Prover}
    (h : (fork ranges).Ends p forks q) : ∀ f ∈ forks, f.current = none ∧ f.records = #[] := by
  obtain ⟨-, rfl⟩ := Even.of_ends_fork h
  intro f hf
  obtain ⟨range, -, rfl⟩ := List.mem_map.1 hf
  exact ⟨rfl, rfl⟩

/-- A batch that is written on forks opens all its regions there. Their records are taken back in order,
all of them if nothing fails. -/
theorem closes_writeForked {ranges : List RowSpan} {d : Layout Prover} {forks : List Prover}
    {lent : Prover} (hfork : (Assignment.fork ranges).Ends d.target forks lent)
    (hidle : d.target.current = none) (name : String) (starts : Array Nat) (first : Nat)
    {routines : List (Pass → Routine α)} (hlength : forks.length = routines.length) :
    ∃ more, more.map (·.name) <+: routines.zipIdx.map (fun x => batchName name x.2) ∧
      Closes (writeForked name starts first ranges routines) d
        (routines.zipIdx.map fun x => .region (first + x.2)) more ∧
      ((writeForked name starts first ranges routines d).result.isOk = true →
        more.map (·.name) = routines.zipIdx.map fun x => batchName name x.2) := by
  set placed : Layout Prover := { d with target := lent } with hplaced
  set regions := numbered forks routines with hregions
  have hforks : (onTarget (Assignment.fork ranges)).Ends d forks placed :=
    (Desk.ends_onTarget ..).2 ⟨lent, hfork, rfl⟩
  have hgiven := quiet_fork ranges d hidle
  have hidle' : placed.target.current = none := hforks.2 ▸ hgiven.idle
  -- each region is opened on its fork, and its record stays there
  have hblank := fun x (hx : x ∈ regions) =>
    blank_of_ends_fork hfork _ (List.of_mem_zip (List.fst_mem_of_mem_zipIdx hx)).1
  have hopened := fun x (hx : x ∈ regions) =>
    opened_writeNumbered name starts first (hblank x hx).1 (hblank x hx).2
  have hwritten : (Run.each (fun x => Run.aside x.1.1 (writeNumbered name starts first x))
      regions).Ends placed (writtenOn name starts first regions) placed :=
    (ends_each_aside ..).2 ⟨rfl, rfl⟩
  have hwrites := closes_each_aside (fun x hx => (hopened x hx).1) hidle'
  -- the records come back with the forks
  obtain ⟨taken, hprefix, hback, hall⟩ :=
    closes_takeBack name (writtenOn name starts first regions) hidle'
  have hnames : ((writtenOn name starts first regions).map (·.2)).flatMap
      (·.records.toList.map (·.name)) = regions.map fun x => batchName name x.2 := by
    rw [writtenOn, List.map_map, List.flatMap_map, List.map_eq_flatMap]
    exact List.flatMap_congr fun x hx => (hopened x hx).2
  -- the batch is lending, then writing on the forks, then taking them back
  have hloop : writeForked name starts first ranges routines = (do
      let forks ← onTarget (Assignment.fork ranges)
      let written ← Run.each (fun x => Run.aside x.1.1 (writeNumbered name starts first x))
        (numbered forks routines)
      takeBack name written) := rfl
  rw [← map_number_numbered hlength (batchName name),
    ← map_number_numbered hlength fun i => Opening.region (first + i)]
  refine ⟨taken.flatMap (·.records.toList), ?_, ?_, fun hok => ?_⟩
  · rw [List.map_flatMap, ← hnames]
    exact hprefix.flatMap _
  · have hrest := hwrites.bind hwritten hback
    rw [List.append_nil] at hrest
    rw [hloop]
    exact hgiven.bind hforks hrest
  · rw [hloop, hforks.bind_apply, hwritten.bind_apply] at hok
    rw [List.map_flatMap, hall hok, hnames]

/-- A batch whose regions are placed closes what its writing opens. -/
theorem closes_assignRegions {name : String} {routines : List (Pass → Routine α)}
    {d placed : Layout Prover} {ranges : List RowSpan} (hidle : d.target.current = none)
    (hmeasure : (measureBatch name routines).Ends d ranges placed) {told : List Opening}
    {more : List RegionRecord}
    (hwritten : Closes (writePlaced name d.kept.starts.size ranges routines placed) placed told more) :
    Closes (Planner.assignRegions name routines) d told more := by
  have hmeasured := quiet_measureBatch name routines d hidle
  refine (hmeasured.bind hmeasure (Closes.get_bind (hwritten.bind_quiet fun written => ?_))).of_eq
    (Planner.assignRegions_apply name routines d)
  exact quiet_finish (written.map (·.1), written.foldl (fun all w => all ++ w.2) #[])

theorem quiet_constrainInput (cell : Cell) (input row : Nat) :
    Quiet (Planner.constrainInput cell input row : Run (Layout Prover) Unit) := by
  refine .of_keeps (fun records => ?_) ?_
  · refine (Keeps.emit _).bind fun _ => keeps_getKept.bind fun planner => ?_
    exact (Keeps.ofExcept _).bind fun position => keeps_onTarget ((AtRest.callKeeps records).copy _ _)
  · refine Emits.bind (A := Event.OpensNothing) (Emits.emit rfl) fun _ => ?_
    refine (Emits.get.map _).bind fun planner => (Emits.ofExcept fun _ => rfl).bind fun position => ?_
    exact Emits.zoom (reports.copy _ _).opensNothing

theorem quiet_getKept_map (f : κ → α) :
    Quiet (f <$> Desk.getKept : Run (Desk Prover κ) α) :=
  .of_keeps (fun _ => keeps_getKept.map _) ((Emits.get.map _).map _)

end Prover

open Prover (AtRest Closes Quiet)

/-! ## Calls of planners -/

namespace LayoutCall

/-- What a call of a planner opens, with the names of the regions. What cannot be measured is not opened,
and neither is a batch for which no forks are given. -/
def opens (d : Layout Prover) : LayoutCall ρ → List (Opening × String)
  | .region name routine =>
    if (measureAndPlace name (routine .measuring) d).result.isOk then
      [(.region d.kept.starts.size, name)]
    else []
  | .regions name routines =>
    match (measureBatch name routines d).result with
    | .error _ => []
    | .ok ranges =>
      if d.kept.settings.parallel && !(Prover.fork ranges d.target).result.isOk then []
      else routines.zipIdx.map fun x => (.region (d.kept.starts.size + x.2), batchName name x.2)
  | .table name _ => [(.table name, name)]
  | .constrainInput .. | .challenge _ | .pushScope _ | .popScope _ | .starts | .tables | .settings => []

/-- Is a call a batch that is to be written on forks? -/
def OnForks (d : Layout Prover) : LayoutCall ρ → Prop
  | .regions .. => d.kept.settings.parallel = true
  | _ => False

/-- Does a call begin and end while no region is open, and open what it has to open? Of all that it opens
it leaves records, in order, unless it fails on forks. -/
structure Closed (c : LayoutCall ρ) (d : Layout Prover) (more : List RegionRecord) : Prop where
  before : d.target.current = none
  closes : Closes (Planner.perform c) d ((c.opens d).map (·.1)) more
  names : more.map (·.name) <+: (c.opens d).map (·.2)
  complete : ¬ c.OnForks d ∨ (Planner.perform c d).result.isOk = true →
    more.map (·.name) = (c.opens d).map (·.2)

variable {d : Layout Prover}

theorem Closed.of_eq {c : LayoutCall ρ} {more : List RegionRecord} (hidle : d.target.current = none)
    (hcloses : Closes (Planner.perform c) d ((c.opens d).map (·.1)) more)
    (hnames : more.map (·.name) = (c.opens d).map (·.2)) : c.Closed d more :=
  ⟨hidle, hcloses, hnames ▸ List.prefix_rfl, fun _ => hnames⟩

theorem closed_of_nil {c : LayoutCall ρ} (hidle : d.target.current = none) (hopens : c.opens d = [])
    (hcloses : Closes (Planner.perform c) d [] []) : ∃ more, c.Closed d more :=
  ⟨[], .of_eq hidle (by rwa [hopens]) (by rw [hopens]; rfl)⟩

theorem closed_region (name : String) (routine : Pass → Routine ρ) (hidle : d.target.current = none) :
    ∃ more, (LayoutCall.region name routine).Closed d more := by
  have hmeasured := Prover.quiet_measureAndPlace name (routine .measuring) d hidle
  have hperform : (Planner.perform (.region name routine) : Run (Layout Prover) ρ) =
      Planner.materialiseRegion name routine >>= finish := Planner.assignRegion_eq name routine
  cases hresult : (measureAndPlace name (routine .measuring) d).result with
  | error fault =>
    -- measuring failed, and no region was opened
    refine closed_of_nil hidle (by rw [opens, hresult]; rfl) ?_
    rw [hperform]
    exact (Closes.getKept_bind (hmeasured.of_error hresult _)).bind_quiet Prover.quiet_finish
  | ok span =>
    -- the region takes the next free index
    have hopens : (LayoutCall.region name routine).opens d =
        [(.region d.kept.starts.size, name)] := by
      rw [opens, hresult]
      rfl
    obtain ⟨r, hname, hwritten⟩ := Prover.closes_writeRegion
      (measureAndPlace name (routine .measuring) d).state.kept.starts d.kept.starts.size name
      (routine .writing) hmeasured.idle
    refine ⟨[r], .of_eq hidle ?_ (by rw [hopens, ← hname]; rfl)⟩
    rw [hopens, hperform]
    exact (Closes.getKept_bind (hmeasured.bind ⟨hresult, rfl⟩ hwritten.getKept_bind)).bind_quiet
      Prover.quiet_finish

section Batches

variable {name : String} {routines : List (Pass → Routine ρ)} {ranges : List RowSpan}
  {placed : Layout Prover}

/-- A batch that can be measured opens all its regions, if it is granted forks or needs none. -/
theorem opens_regions (hmeasure : (measureBatch name routines).Ends d ranges placed)
    (hgranted : d.kept.settings.parallel = false ∨ (Prover.fork ranges d.target).result.isOk = true) :
    (LayoutCall.regions name routines).opens d =
      routines.zipIdx.map fun x => (.region (d.kept.starts.size + x.2), batchName name x.2) := by
  have hnot : (d.kept.settings.parallel && !(Prover.fork ranges d.target).result.isOk) = false := by
    rcases hgranted with hserial | hfork
    · rw [hserial, Bool.false_and]
    · rw [hfork, Bool.not_true, Bool.and_false]
  simp only [opens, hmeasure.1, hnot, Bool.false_eq_true, if_false]

/-- A batch that is written one region after another. -/
theorem closed_regions_serially (hidle : d.target.current = none)
    (hmeasure : (measureBatch name routines).Ends d ranges placed)
    (hserial : d.kept.settings.parallel = false) :
    ∃ more, (LayoutCall.regions name routines).Closed d more := by
  obtain ⟨htarget, hsettings⟩ := Planner.eq_of_measureBatch hmeasure
  -- without forks the regions are written one after another
  have hwrites : writePlaced name d.kept.starts.size ranges routines placed =
      writeSerially name placed.kept.starts d.kept.starts.size routines :=
    Planner.writePlaced_of_serial (hsettings ▸ hserial) ..
  obtain ⟨more, hnames, hwritten⟩ := Prover.closes_writeSerially name placed.kept.starts
    d.kept.starts.size routines (htarget ▸ hidle)
  rw [← hwrites] at hwritten
  have hcloses := Prover.closes_assignRegions hidle hmeasure hwritten
  refine ⟨more, .of_eq hidle ?_ ?_⟩
  · rw [opens_regions hmeasure (.inl hserial), List.map_map]
    exact hcloses
  · rw [opens_regions hmeasure (.inl hserial), List.map_map]
    exact hnames

/-- A batch that is to be written on forks. -/
theorem closed_regions_onForks (hidle : d.target.current = none)
    (hmeasure : (measureBatch name routines).Ends d ranges placed)
    (hparallel : d.kept.settings.parallel = true) :
    ∃ more, (LayoutCall.regions name routines).Closed d more := by
  obtain ⟨htarget, hsettings⟩ := Planner.eq_of_measureBatch hmeasure
  have hidle' : placed.target.current = none := htarget ▸ hidle
  -- with forks each region is written on its own
  have hwrites : writePlaced name d.kept.starts.size ranges routines placed =
      writeForked name placed.kept.starts d.kept.starts.size ranges routines :=
    Planner.writePlaced_of_forked (by rw [hsettings, hparallel]; rfl) ..
  cases hfork : (Prover.fork ranges d.target).result with
  | error fault =>
    -- no fork was granted, so no region was opened
    have hopens : (LayoutCall.regions name routines).opens d = [] := by
      simp only [opens, hmeasure.1, hparallel, hfork]
      rfl
    have hrefused : Closes (writeForked name placed.kept.starts d.kept.starts.size ranges routines)
        placed [] [] := (Prover.quiet_fork ranges placed hidle').of_error (htarget ▸ hfork) _
    rw [← hwrites] at hrefused
    exact closed_of_nil hidle hopens (Prover.closes_assignRegions hidle hmeasure hrefused)
  | ok forks =>
    have hopens := opens_regions hmeasure (.inr (by rw [hfork]; rfl))
    -- there is one fork for each routine
    have hlength : forks.length = routines.length := by
      have hranges := hmeasure.length_each
      rw [List.length_zipIdx] at hranges
      rw [(Prover.Even.of_ends_fork ⟨hfork, rfl⟩).2, List.length_map, hranges]
    rw [← htarget] at hfork
    obtain ⟨more, hnames, hwritten, hall⟩ := Prover.closes_writeForked ⟨hfork, rfl⟩ hidle' name
      placed.kept.starts d.kept.starts.size hlength
    rw [← hwrites] at hwritten hall
    have hcloses := Prover.closes_assignRegions hidle hmeasure hwritten
    have hperform : Planner.perform (.regions name routines) d = _ :=
      Planner.assignRegions_apply name routines d
    refine ⟨more, hidle, ?_, ?_, fun h => ?_⟩
    · rw [hopens, List.map_map]
      exact hcloses
    · rw [hopens, List.map_map]
      exact hnames
    · rcases h with hserial | hok
      · exact absurd hparallel hserial
      · -- the call succeeded, so the writing did, and every record was taken over
        rw [hperform, hmeasure.bind_apply, Run.get_bind_apply] at hok
        rw [hopens, List.map_map]
        exact hall (Run.isOk_of_isOk_bind hok)

end Batches

theorem closed_regions (name : String) (routines : List (Pass → Routine ρ))
    (hidle : d.target.current = none) :
    ∃ more, (LayoutCall.regions name routines).Closed d more := by
  cases hresult : (measureBatch name routines d).result with
  | error fault =>
    have hunplaced := Prover.quiet_measureBatch name routines d hidle
    exact closed_of_nil hidle (by rw [opens, hresult])
      ((hunplaced.of_error hresult _).of_eq (Planner.assignRegions_apply name routines d))
  | ok ranges =>
    cases hparallel : d.kept.settings.parallel with
    | false => exact closed_regions_serially hidle ⟨hresult, rfl⟩ hparallel
    | true => exact closed_regions_onForks hidle ⟨hresult, rfl⟩ hparallel

/-- Whatever is asked of a planner while no region is open, none is open afterwards. -/
theorem exists_closed (c : LayoutCall ρ) (hidle : d.target.current = none) :
    ∃ more, c.Closed d more := by
  have hcalls := fun records => AtRest.callKeeps records
  cases c with
  | region name routine => exact closed_region name routine hidle
  | regions name routines => exact closed_regions name routines hidle
  | table name routine =>
    obtain ⟨r, hname, hcloses⟩ := Prover.closes_assignTable name routine hidle
    exact ⟨[r], .of_eq hidle hcloses (congrArg ([·]) hname)⟩
  | constrainInput cell input row =>
    -- the other calls open no region
    exact closed_of_nil hidle rfl (Prover.quiet_constrainInput cell input row d hidle)
  | challenge index =>
    exact closed_of_nil hidle rfl (Prover.quiet_onTarget (fun records => (hcalls records).challenge index)
      (Prover.reports.challenge index) d hidle)
  | pushScope name =>
    exact closed_of_nil hidle rfl (Prover.quiet_onTarget (fun records => (hcalls records).pushScope name)
      (Prover.reports.pushScope name) d hidle)
  | popScope name =>
    exact closed_of_nil hidle rfl (Prover.quiet_onTarget (fun records => (hcalls records).popScope name)
      (Prover.reports.popScope name) d hidle)
  | starts => exact closed_of_nil hidle rfl (Prover.quiet_getKept_map _ d hidle)
  | tables => exact closed_of_nil hidle rfl (Prover.quiet_getKept_map _ d hidle)
  | settings => exact closed_of_nil hidle rfl (Prover.quiet_getKept_map _ d hidle)

end LayoutCall

/-! ## Programs -/

namespace Planner

/-- Whatever a program asks of a planner, and whatever fails, no region is open where a call begins, so
whatever can be measured and needs no forks, or is given them, is opened. For each region that is opened
by itself or in a batch without forks, and for each table, one record of its name is left, in the order of
the calls and of the regions of each. -/
theorem regions_closed (program : Program (layoutInterface ρ) α) {d : Layout Prover}
    (hidle : d.target.current = none) :
    ∃ added : List (List RegionRecord),
      List.Forall₂ (fun v more => v.2.Closed v.1 more) (program.visits perform d) added ∧
      Closes (program.run perform) d
        ((program.visits perform d).flatMap fun v => (v.2.opens v.1).map (·.1)) added.flatten := by
  induction program generalizing d with
  | done a => exact ⟨[], .nil, Prover.quiet_pure a d hidle⟩
  | fail fault => exact ⟨[], .nil, hidle, (List.append_nil _).symm, rfl⟩
  | note n rest ih =>
    obtain ⟨added, hcalls, hrest⟩ := ih hidle
    exact ⟨added, hcalls, hrest.idle, hrest.records, hrest.told⟩
  | call c next ih =>
    -- the first call leaves no region open, so the rest begins as it did
    obtain ⟨more, hc⟩ := c.exists_closed hidle
    obtain ⟨added, hcalls, hrest⟩ := ih (perform c d).result hc.closes.idle
    exact ⟨more :: added, .cons hc hcalls, hc.closes.attempt.bind ⟨rfl, rfl⟩ hrest⟩

/-! ### Calls of which most fail -/

/-- A region whose routine fails, one that cannot be measured, a table without a cell, a batch of which two
regions fail, and a region of which nothing fails. -/
def mishaps : List (LayoutCall Unit) := [
  .region "broken" (complaining (some "broken")),
  .region "unmeasured" fun _ => .fail (.raised "unmeasured"),
  .table "empty" (pure ()),
  .regions "step" complaints,
  .region "whole" (complaining none)]

/-- A program that goes on after every call, whether it fails or not. -/
def undaunted (calls : List (LayoutCall ρ)) : Program (layoutInterface ρ) Unit :=
  calls.foldr (fun c rest => .call (I := layoutInterface ρ) c fun _ => rest) (.done ())

/-- What is opened then, whether the batch is written on forks or not. -/
def mishapOpenings : List Opening :=
  [.region 0, .table "empty", .region 1, .region 2, .region 3, .region 4]

/-- A new planner over a prover, with or without forks for its batches. -/
def mishapLayout (parallel : Bool) : Layout Prover := ⟨Prover.lender, .fresh [] ⟨parallel, 0, 10⟩⟩

/-- The regions of the batch leave their records, unless they are written on forks, which are not taken
back. -/
theorem regions_closed_mishaps :
    (∃ added, Closes ((undaunted mishaps).run perform) (mishapLayout false) mishapOpenings added ∧
      added.map (·.name) = ["broken", "empty", "step_0", "step_1", "step_2", "whole"]) ∧
    ∃ added, Closes ((undaunted mishaps).run perform) (mishapLayout true) mishapOpenings added ∧
      added.map (·.name) = ["broken", "empty", "whole"] := by
  have hnone : Prover.lender.records = #[] := by decide +kernel
  -- the general theorem at this program, on forks and without
  have hmishaps : ∀ parallel, ∃ added,
      Closes ((undaunted mishaps).run perform) (mishapLayout parallel) mishapOpenings added ∧
      ((undaunted mishaps).run perform (mishapLayout parallel)).state.target.records.toList.map
        (·.name) = added.map (·.name) := by
    intro parallel
    obtain ⟨added, -, hcloses⟩ := regions_closed (undaunted mishaps) (d := mishapLayout parallel) rfl
    have htold : (((undaunted mishaps).visits perform (mishapLayout parallel)).flatMap
        fun v => (v.2.opens v.1).map (·.1)) = mishapOpenings := by
      cases parallel
      all_goals decide +kernel
    rw [htold] at hcloses
    have hrecords := hcloses.records
    rw [show (mishapLayout parallel).target.records = #[] from hnone, List.nil_append] at hrecords
    exact ⟨_, hcloses, by rw [hrecords]⟩
  obtain ⟨serial, hserial, hnames⟩ := hmishaps false
  obtain ⟨forked, hforked, hnames'⟩ := hmishaps true
  refine ⟨⟨serial, hserial, hnames.symm.trans ?_⟩, forked, hforked, hnames'.symm.trans ?_⟩
  all_goals decide +kernel

end Planner

end CircuitLayout
