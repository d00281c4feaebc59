import CircuitLayout.Proofs.Forks.Layouts
import CircuitLayout.Proofs.Forks.Splits
import CircuitLayout.Proofs.Occupancy.Laid

namespace CircuitLayout

/-! # Batches in order, written on forks

A batch that succeeds in order, whose regions keep to their rows, succeeds on forks as well, with the
same data, if the rows of its regions follow each other in the order of the batch, and only then.
Main statement: `assignRegions_on_forks`, for provers and for key builders.
-/

open Run (Anywhere Emits)
open Ledger (confinement)
open Desk (onTarget)
open Planner (measureBatch)

variable {σ α : Type}

/-! ## Batches and their parts -/

namespace Planner

variable [Assignment σ]

/-- The regions of a batch are written as the settings ask for, once they are placed. -/
def writePlaced (name : String) (first : Nat) (ranges : List RowSpan)
    (routines : List (Pass → Routine α)) (placed : Layout σ) :
    Run (Layout σ) (List (α × Requests)) :=
  writeBatch (placed.kept.settings.parallel && Assignment.canFork placed.target) name
    placed.kept.starts first ranges routines

/-- Where the settings and the target allow it, regions that are placed are written on forks. -/
theorem writePlaced_of_forked {placed : Layout σ}
    (h : (placed.kept.settings.parallel && Assignment.canFork placed.target) = true) (name : String)
    (first : Nat) (ranges : List RowSpan) (routines : List (Pass → Routine α)) :
    writePlaced name first ranges routines placed =
      writeForked name placed.kept.starts first ranges routines := by
  rw [writePlaced, h]
  rfl

/-- Without the setting, regions that are placed are written one after the other. -/
theorem writePlaced_of_serial {placed : Layout σ} (h : placed.kept.settings.parallel = false)
    (name : String) (first : Nat) (ranges : List RowSpan) (routines : List (Pass → Routine α)) :
    writePlaced name first ranges routines placed =
      writeSerially name placed.kept.starts first routines := by
  rw [writePlaced, h]
  rfl

/-- A batch is measured, then written, and then its constants are written. -/
theorem assignRegions_apply (name : String) (routines : List (Pass → Routine α)) (d : Layout σ) :
    assignRegions name routines d =
      (measureBatch name routines >>= fun ranges => Run.get >>= fun placed =>
        writePlaced name d.kept.starts.size ranges routines placed >>= fun written => do
          assignConstants (written.foldl (fun all w => all ++ w.2) #[])
          return written.map (·.1)) d := by
  rw [assignRegions, Desk.getKept_bind_apply]
  rfl

theorem ends_assignRegions {name : String} {routines : List (Pass → Routine α)} {d d' : Layout σ}
    {results : List α} :
    (assignRegions name routines).Ends d results d' ↔
      ∃ ranges placed written u, (measureBatch name routines).Ends d ranges placed ∧
        (writePlaced name d.kept.starts.size ranges routines placed).Ends placed written u ∧
        (assignConstants (written.foldl (fun all w => all ++ w.2) #[])).Ends u () d' ∧
        results = written.map (·.1) := by
  rw [Run.Ends, assignRegions_apply, ← Run.Ends]
  simp only [Run.ends_bind, Run.ends_get, Run.ends_pure]
  constructor
  · rintro ⟨ranges, _, hmeasure, _, _, ⟨rfl, rfl⟩, written, u, hwritten, _, _, hconstants, rfl, rfl⟩
    exact ⟨ranges, _, written, u, hmeasure, hwritten, hconstants, rfl⟩
  · rintro ⟨ranges, placed, written, u, hmeasure, hwritten, hconstants, rfl⟩
    exact ⟨ranges, placed, hmeasure, placed, placed, ⟨rfl, rfl⟩, written, u, hwritten, (), d', hconstants,
      rfl, rfl⟩

/-- The journal of a batch: that of its measuring, that of its writing, and the rest. -/
theorem events_assignRegions {name : String} {routines : List (Pass → Routine α)}
    {d placed u : Layout σ} {ranges : List RowSpan} {written : List (α × Requests)}
    (hmeasure : (measureBatch name routines).Ends d ranges placed)
    (hwritten : (writePlaced name d.kept.starts.size ranges routines placed).Ends placed written u) :
    ∃ rest, (assignRegions name routines d).events = (measureBatch name routines d).events ++
      ((writePlaced name d.kept.starts.size ranges routines placed placed).events ++ rest) := by
  rw [assignRegions_apply, hmeasure.events_bind, Run.get_bind_apply, hwritten.events_bind]
  exact ⟨_, rfl⟩

end Planner

/-! ## Planners that differ in how they write batches -/

/-- The planner, with its batches written on forks or in order. -/
def Planner.withForks (p : Planner) (forks : Bool) : Planner :=
  { p with settings := { p.settings with parallel := forks } }

/-- Do settings differ in that batches are written in order by the one and on forks by the other? -/
def Settings.Switched (s s' : Settings) : Prop :=
  s.parallel = false ∧ s' = { s with parallel := true }

namespace Planner

/-- Planners that differ in the switch agree otherwise. -/
theorem alike_withForks (p : Planner) :
    Alike Settings.Switched (p.withForks false) (p.withForks true) where
  constants := rfl
  settings := ⟨rfl, rfl⟩
  starts := rfl
  frontiers := rfl
  sealedTables := rfl

theorem Alike.eq_withForks {p q : Planner} (h : Alike Settings.Switched p q) :
    q = p.withForks true := by
  obtain ⟨hconstants, ⟨-, hsettings⟩, hstarts, hfrontiers, htables⟩ := h
  cases q
  simp only [withForks, hconstants, hstarts, hfrontiers, htables, ← hsettings]

/-- Do layouts of one assignment differ in how batches are written? -/
abbrev Switched (d e : Layout σ) : Prop :=
  Layout.Rel Settings.Switched (fun _ (s t : σ) => s = t) d e

theorem Switched.eq {d e : Layout σ} (h : Switched d e) : e = ⟨d.target, d.kept.withForks true⟩ := by
  obtain ⟨target, kept⟩ := e
  obtain ⟨rfl, hkept⟩ := h
  obtain rfl : kept = d.kept.withForks true := hkept.eq_withForks
  rfl

/-- Regions are measured and placed alike, however they will be written. -/
theorem ends_measureBatch_withForks {name : String} {routines : List (Pass → Routine α)}
    (hroutines : ∀ r ∈ routines, (r .measuring).Propagates) {d u e : Layout σ} {ranges : List RowSpan}
    (hends : (measureBatch name routines).Ends d ranges u) (hde : Switched d e) :
    ∃ v, (measureBatch name routines).Ends e ranges v ∧ Switched u v := by
  have hnumbered : List.Forall₂ (fun x y : (Pass → Routine α) × Nat =>
      (x.1 .measuring).Propagates ∧ x = y) routines.zipIdx routines.zipIdx := by
    refine List.forall₂_same.2 fun x hx => ⟨?_, rfl⟩
    exact hroutines x.1 (List.mem_zipIdx_iff_getElem?.1 hx |> List.mem_of_getElem?)
  -- no measuring pass reads the settings, so both loops do the same
  have hloop := Run.Refines.each hnumbered (F := Anywhere) (S := Switched (σ := σ)) (R := Eq)
    (f := fun x => measureAndPlace (batchName name x.2) (x.1 .measuring))
    (g := fun x => measureAndPlace (batchName name x.2) (x.1 .measuring))
    (fun _ => Run.Keeps.not_anywhere) fun x y hxy => by
      obtain ⟨hpropagates, rfl⟩ := hxy
      exact refines_measureAndPlace _ _ (Routine.alike_self (t := Tolerance.exact) rfl hpropagates)
  obtain ⟨ranges', v, hends', hequal, huv⟩ := hloop d e ranges u hde hends trivial
  rw [List.forall₂_eq_eq_eq] at hequal
  subst hequal
  exact ⟨v, hends', huv⟩

/-- A batch is measured alike whether it will be written in order or on forks. The assignment is not
touched by this. -/
theorem measured_withForks {name : String} {routines : List (Pass → Routine α)}
    {ranges : List RowSpan} {target : σ} {p : Planner} {placed : Layout σ}
    (hpropagates : ∀ r ∈ routines, ∀ pass, (r pass).Propagates)
    (hmeasure : (measureBatch name routines).Ends ⟨target, p.withForks false⟩ ranges placed) :
    (placed.target = target ∧ Alike Settings.Switched placed.kept (placed.kept.withForks true)) ∧
      (measureBatch name routines).Ends ⟨target, p.withForks true⟩ ranges
        ⟨placed.target, placed.kept.withForks true⟩ := by
  have hstart : Switched (⟨target, p.withForks false⟩ : Layout σ) ⟨target, p.withForks true⟩ :=
    ⟨rfl, p.alike_withForks⟩
  obtain ⟨_, hmeasure', hswitched⟩ := ends_measureBatch_withForks
    (fun r hr => hpropagates r hr .measuring) hmeasure hstart
  obtain rfl := hswitched.eq
  have hkeeps : Run.Keeps (Desk.OnTarget (· = target)) (measureBatch name routines) :=
    Run.Keeps.each fun x _ => keeps_measureAndPlace _ _
  exact ⟨⟨hmeasure.of_keeps hkeeps rfl, hswitched.2⟩, hmeasure'⟩

end Planner

/-- A run matches itself. -/
theorem Run.Refines.same {R : α → α → Prop} {m : Run σ α} (hR : ∀ a, R a a) :
    Run.Refines Anywhere (fun s t => s = t) (fun s t => s = t) R m m := by
  rintro s _ a s' rfl hends -
  exact ⟨a, s', hends, hR a, rfl⟩

/-- An assignment simulates itself. -/
theorem RegionSimulation.same [Assignment σ] :
    RegionSimulation Tolerance.anySettings Anywhere (fun _ (s t : σ) => s = t) where
  keeps := RegionKeeps.not_anywhere
  -- one assignment answers both sides, once names and values are equal
  enterRegion hn := by
    rw [hn.eq]
    exact .same fun _ => trivial
  exitRegion := .same fun _ => trivial
  nameColumn hl column := by
    rw [hl.eq]
    exact .same fun _ => trivial
  enableSelector hl selector row := by
    rw [hl.eq]
    exact .same fun _ => trivial
  queryAdvice column row := .same .refl
  queryFixed column row := .same .refl
  queryInput column row := .same .refl
  assignAdvice hl column row v v' hv := by
    rw [hl.eq, hv.eq]
    exact .same .refl
  assignFixed opened l l' hl column row value := by
    rw [hl.eq]
    exact .same fun _ => rfl
  copy opened left right := .same fun _ => trivial

/-! ## Writing on forks -/

namespace Splitting

variable [Assignment σ] (P : Splitting σ)

/-- Regions that are written in order, each on its rows, are written as well on forks over these rows,
which gather the same. -/
theorem written_on_forks {usable : RowSpan} {name : String} {starts : Array Nat} {first : Nat}
    {measured : Nat → List (Lane × Nat)} {routines : List (Pass → Routine α)} {ranges : List RowSpan}
    {index cursor : Nat} {d d' : Layout σ} {written : List (α × Requests)} {l : Ledger}
    (hrested : P.Rested d.target) (hfollow : (P.window d.target).Follow cursor ranges)
    (hordered : ∀ r ∈ ranges, r.start ≤ r.stop) (hlength : ranges.length = routines.length)
    (hmeasured : l.measured = measured)
    (hholds : ∀ x ∈ ranges.zipIdx (first + index),
      x.1.Holds (starts.getD x.2 0) (measured x.2))
    (hpropagates : ∀ r ∈ routines, (r .writing).Propagates)
    (hends : (Run.each (fun x : (Pass → Routine α) × Nat => (onTarget
      (writeRegion starts (first + x.2) (Planner.batchName name x.2) (x.1 .writing))).attempt)
        (routines.zipIdx index)).Ends d (written.map .ok) d')
    (hassumed : (confinement usable).Assumed l (Run.each (fun x : (Pass → Routine α) × Nat => (onTarget
      (writeRegion starts (first + x.2) (Planner.batchName name x.2) (x.1 .writing))).attempt)
        (routines.zipIdx index) d).events) :
    ∃ pairs : List ((α × Requests) × σ), pairs.map (·.1) = written ∧
      Planner.WrittenOnForks name starts first
        (((ranges.map (P.sliver d.target)).zip routines).zipIdx index) pairs ∧
      Gathers (P.Mirrors false) d.target ranges (pairs.map (·.2)) d'.target ∧ d'.kept = d.kept := by
  induction routines generalizing ranges index cursor d written l with
  | nil =>
    obtain rfl : ranges = [] := List.eq_nil_of_length_eq_zero hlength
    obtain ⟨hwritten, rfl⟩ := (Run.ends_each_nil ..).1 hends
    obtain rfl : written = [] := List.map_eq_nil_iff.1 hwritten
    exact ⟨[], rfl, .nil, .nil _, rfl⟩
  | cons r routines ih =>
    cases ranges with
    | nil => cases hlength
    | cons range ranges =>
      obtain ⟨hstart, hcovers, hrest⟩ := hfollow
      rw [List.zipIdx_cons, Run.each_cons] at hends hassumed
      -- the first region, and the journal of it
      obtain ⟨result, t, hfirst, hmore, hevents⟩ := Run.of_ends_bind hends
      rw [hevents, Monitor.Assumed, Monitor.along_append] at hassumed
      obtain ⟨results, u, hmore, hpure, hevents'⟩ := Run.of_ends_bind hmore
      rw [hevents', Monitor.along_append] at hassumed
      obtain ⟨hresults, rfl⟩ := (Run.ends_pure ..).1 hpure
      obtain ⟨w, written, rfl, rfl, rfl⟩ := List.map_eq_cons_iff.1 hresults
      obtain ⟨s, hwrite, rfl⟩ := (Desk.ends_onTarget ..).1 ((Run.ends_attempt ..).1 hfirst)
      have hrows : range.Holds (starts.getD (first + index) 0) (measured (first + index)) :=
        hholds (range, first + index) (by simp)
      have hmirrors := P.mirrors_sliver hrested hcovers
      obtain ⟨_, f, hfork, rfl, hafter, hmirrored⟩ :=
        (P.simulation range d.target).follows_writeRegion P.reports hrows _
          (hpropagates r (List.mem_cons_self ..)) l d.target _ w s ⟨hmeasured, hmirrors⟩ hwrite
          hassumed.1
      -- the other regions, on what the first one left
      have hwindow : P.window s = P.window d.target := P.window_eq hmirrored
      have hlater : ∀ later ∈ ranges, (P.window d.target).Covers later ∧ range.stop ≤ later.start :=
        hrest.mem fun later hlater => hordered later (List.mem_cons_of_mem _ hlater)
      have hslivers : ranges.map (P.sliver s) = ranges.map (P.sliver d.target) :=
        List.map_congr_left fun later hmem =>
          P.sliver_eq hrested hmirrored (hlater later hmem).1 (hlater later hmem).2
      obtain ⟨pairs, rfl, hforks, hgathers, hkept⟩ := ih (d := { d with target := s })
        (P.rested hrested hmirrored) (hwindow ▸ hrest)
        (fun later hmem => hordered later (List.mem_cons_of_mem _ hmem)) (Nat.succ.inj hlength) hafter
        (fun x hx => hholds x (by rw [List.zipIdx_cons]; exact List.mem_cons_of_mem _ hx))
        (fun r hr => hpropagates r (List.mem_cons_of_mem _ hr)) hmore hassumed.2.1
      rw [hslivers] at hforks
      -- the first fork with those of the rest is what the batch wrote
      exact ⟨(w, f) :: pairs, rfl, .cons hfork hforks, .cons hmirrored hgathers, hkept⟩

/-- A batch is written on forks only if their ranges follow each other. -/
theorem follow_of_writeForked {name : String} {starts : Array Nat} {first : Nat}
    {routines : List (Pass → Routine α)} {ranges : List RowSpan} {d d' : Layout σ}
    {written : List (α × Requests)}
    (hends : (Planner.writeForked name starts first ranges routines).Ends d written d') :
    (P.window d.target).Follow (P.window d.target).start ranges := by
  obtain ⟨forks, lent, pairs, hfork, -⟩ := (Planner.ends_writeForked ..).1 hends
  obtain ⟨t, hgranted, -⟩ := (Desk.ends_onTarget ..).1 hfork
  exact (Store.follow_of_checkRanges (P.granted hgranted) (Nat.le_refl _)).1

/-- A batch that is written in order, each region on its rows, can be written on forks over these
rows, if the rows follow each other. -/
theorem ends_writeForked {usable : RowSpan} {name : String} {first : Nat} {l : Ledger}
    {routines : List (Pass → Routine α)} {ranges : List RowSpan} {d d' : Layout σ}
    {written : List (α × Requests)} (kept : Planner) (hrested : P.Rested d.target)
    (hlaid : Laid first ranges l d.kept.starts) (hlength : ranges.length = routines.length)
    (hpropagates : ∀ r ∈ routines, (r .writing).Propagates)
    (hends : (Planner.writeSerially name d.kept.starts first routines).Ends d written d')
    (hassumed : (confinement usable).Assumed l
      (Planner.writeSerially name d.kept.starts first routines d).events)
    (hfollow : (P.window d.target).Follow (P.window d.target).start ranges) :
    d'.kept = d.kept ∧ (Planner.writeForked name d.kept.starts first ranges routines).Ends
      ⟨d.target, kept⟩ written ⟨d'.target, kept⟩ := by
  obtain ⟨results, u, heach, hall, hevents⟩ := Run.of_ends_bind hends
  rw [Planner.writeSerially, hevents, Monitor.Assumed, Monitor.along_append] at hassumed
  obtain ⟨rfl, rfl⟩ := (Planner.ends_allOrFirstFault ..).1 hall
  -- the ranges are those of the measuring passes
  have hordered : ∀ r ∈ ranges, r.start ≤ r.stop := by
    intro r hr
    obtain ⟨i, hi⟩ := List.mem_iff_getElem?.1 hr
    exact (hlaid.2 (r, first + i) (List.mem_zipIdx_iff_le_and_getElem?_sub.2 (by simp [hi]))).1
  have hholds : ∀ x ∈ ranges.zipIdx (first + 0),
      x.1.Holds (d.kept.starts.getD x.2 0) (l.measured x.2) := fun x hx => (hlaid.2 x hx).2
  obtain ⟨lent, hfork, hmerge⟩ := P.split hrested (Store.checkRanges_of_follow hfollow hordered)
  -- each routine does on its sliver what it does in its turn
  obtain ⟨pairs, rfl, hforks, hgathers, hkept⟩ := P.written_on_forks hrested hfollow hordered hlength
    rfl hholds hpropagates heach hassumed.1
  have hmerged := hmerge _ _ hgathers
  rw [List.map_map] at hmerged
  exact ⟨hkept, (Planner.ends_writeForked ..).2 ⟨_, ⟨lent, kept⟩, pairs,
    (Desk.ends_onTarget ..).2 ⟨lent, hfork, rfl⟩, hforks,
    (Desk.ends_onTarget ..).2 ⟨_, hmerged, rfl⟩, rfl⟩⟩

section Switched

variable {name : String} {routines : List (Pass → Routine α)} {target : σ} {planner : Planner}
  {ranges : List RowSpan} {placed d : Layout σ}

include P in
/-- A planner that writes batches on forks does so where the assignment is split. -/
theorem writePlaced_withForks (kept : Planner) (first : Nat) :
    Planner.writePlaced name first ranges routines ⟨target, kept.withForks true⟩ =
      Planner.writeForked name kept.starts first ranges routines :=
  Planner.writePlaced_of_forked (by simp [Planner.withForks, P.canFork]) ..

/-- A batch succeeds on forks only if the rows of its regions follow each other. -/
theorem follow_of_assignRegions {results : List α} {kept : Planner}
    (hmeasure : (measureBatch name routines).Ends ⟨target, planner.withForks true⟩ ranges
      ⟨target, kept.withForks true⟩)
    (hends : (Planner.assignRegions name routines).Ends ⟨target, planner.withForks true⟩ results d) :
    (P.window target).Follow (P.window target).start ranges := by
  obtain ⟨ranges', placed', written, u, hmeasure', hwritten, -, -⟩ :=
    Planner.ends_assignRegions.1 hends
  obtain ⟨rfl, rfl⟩ := Run.Ends.unique hmeasure' hmeasure
  rw [P.writePlaced_withForks] at hwritten
  exact P.follow_of_writeForked hwritten

/-- A batch that succeeds in order, whose regions keep to their rows, succeeds on forks with the same
data if these rows follow each other. -/
theorem assignRegions_of_follow {usable : RowSpan} (husable : usable.stop < Word.size)
    {results : List α} (hrested : P.Rested target)
    (hpropagates : ∀ r ∈ routines, ∀ pass, (r pass).Propagates)
    (hmeasure : (measureBatch name routines).Ends ⟨target, planner.withForks false⟩ ranges placed)
    (hends : (Planner.assignRegions name routines).Ends ⟨target, planner.withForks false⟩ results d)
    (hassumed : (confinement usable).Assumed .blank
      (Planner.assignRegions name routines ⟨target, planner.withForks false⟩).events)
    (hfollow : (P.window target).Follow (P.window target).start ranges) :
    (Planner.assignRegions name routines).Ends ⟨target, planner.withForks true⟩ results
      ⟨d.target, d.kept.withForks true⟩ := by
  obtain ⟨⟨rfl, halike⟩, hmeasure'⟩ := Planner.measured_withForks hpropagates hmeasure
  obtain ⟨_, _, written, u, hmeasured, hwritten, hconstants, rfl⟩ :=
    Planner.ends_assignRegions.1 hends
  obtain ⟨rfl, rfl⟩ := Run.Ends.unique hmeasure hmeasured
  -- in order, the journal is that of the measuring, that of the writing, and the rest
  obtain ⟨rest, hevents⟩ := Planner.events_assignRegions hmeasured hwritten
  rw [hevents, Monitor.Assumed, Monitor.along_append, Monitor.along_append] at hassumed
  rw [Planner.writePlaced_of_serial halike.settings.1] at hwritten hassumed
  have hlaid := (Planner.upholds_measureBatch_laid husable name routines _).of_ends rfl hmeasured
    hassumed.1
  have hlength : ranges.length = routines.length := by
    simpa using Run.Ends.length_each hmeasured
  obtain ⟨hkept, hforked⟩ := P.ends_writeForked (placed.kept.withForks true) hrested hlaid hlength
    (fun r hr => hpropagates r hr .writing) hwritten hassumed.2.1 hfollow
  -- the constants are those that the regions ask for, and these are the same
  have hafter : Planner.Switched u ⟨u.target, placed.kept.withForks true⟩ :=
    ⟨rfl, hkept ▸ halike⟩
  obtain ⟨_, e, hconstants', -, hend⟩ :=
    RegionSimulation.same.assignConstants _ _ _ () d hafter hconstants trivial
  obtain rfl := Planner.Switched.eq hend
  rw [← P.writePlaced_withForks] at hforked
  exact Planner.ends_assignRegions.2
    ⟨ranges, _, written, _, hmeasure', hforked, hconstants', rfl⟩

/-- A batch that succeeds in order, whose regions keep to their rows, succeeds on forks exactly if the
rows of its regions follow each other, and then with the same data. -/
theorem assignRegions {usable : RowSpan} (husable : usable.stop < Word.size) {results : List α}
    (hrested : P.Rested target) (hpropagates : ∀ r ∈ routines, ∀ pass, (r pass).Propagates)
    (hends : (Planner.assignRegions name routines).Ends ⟨target, planner.withForks false⟩ results d)
    (hassumed : (confinement usable).Assumed .blank
      (Planner.assignRegions name routines ⟨target, planner.withForks false⟩).events) :
    ∃ ranges placed,
      (measureBatch name routines).Ends ⟨target, planner.withForks false⟩ ranges placed ∧
      ((∃ results' e, (Planner.assignRegions name routines).Ends ⟨target, planner.withForks true⟩
          results' e) ↔ (P.window target).Follow (P.window target).start ranges) ∧
      ((P.window target).Follow (P.window target).start ranges →
        (Planner.assignRegions name routines).Ends ⟨target, planner.withForks true⟩ results
          ⟨d.target, d.kept.withForks true⟩) := by
  obtain ⟨ranges, placed, -, -, hmeasure, -⟩ := Planner.ends_assignRegions.1 hends
  obtain ⟨⟨rfl, -⟩, hmeasure'⟩ := Planner.measured_withForks hpropagates hmeasure
  have hsame := P.assignRegions_of_follow husable hrested hpropagates hmeasure hends hassumed
  refine ⟨ranges, placed, hmeasure, ⟨?_, fun hfollow => ⟨_, _, hsame hfollow⟩⟩, hsame⟩
  rintro ⟨results', e, hends'⟩
  exact P.follow_of_assignRegions hmeasure' hends'

end Switched

end Splitting

/-! ## Provers and key builders -/

/-- A batch that a planner lays out in order on a prover or a key builder which is synthesizing and has
nothing lent. Its routines hand every fault on; by the journal its regions take up while they are
written only what they took up while they were measured, look only at rows that they span, and end
within the usable rows. Written on forks the batch succeeds exactly if the rows of its regions follow
each other, in the order of the batch and within the rows that may be written, and then it leaves the
same results and the same data. -/
theorem assignRegions_on_forks (logRows : Nat) (schema : Schema) (planner : Planner) (name : String)
    {routines : List (Pass → Routine α)}
    (hpropagates : ∀ r ∈ routines, ∀ pass, (r pass).Propagates) :
    (∀ {inputs : List (List Goldilocks)} {new p : Prover} {results : List α} {d : Layout Prover},
      Prover.create logRows schema inputs = .ok new → Descends new p →
      p.board.phase = .synthesizing → p.board.fixed.lent = [] →
      (Planner.assignRegions name routines).Ends ⟨p, planner.withForks false⟩ results d →
      (confinement p.board.usable).Assumed .blank
        (Planner.assignRegions name routines ⟨p, planner.withForks false⟩).events →
      ∃ ranges placed,
        (measureBatch name routines).Ends ⟨p, planner.withForks false⟩ ranges placed ∧
        ((∃ results' e, (Planner.assignRegions name routines).Ends ⟨p, planner.withForks true⟩
          results' e) ↔ p.board.window.Follow p.board.window.start ranges) ∧
        (p.board.window.Follow p.board.window.start ranges →
          (Planner.assignRegions name routines).Ends ⟨p, planner.withForks true⟩ results
            ⟨d.target, d.kept.withForks true⟩)) ∧
    (∀ {new k : KeyBuilder} {results : List α} {d : Layout KeyBuilder},
      KeyBuilder.create logRows schema = .ok new → Descends new k →
      k.board.phase = .synthesizing → k.board.fixed.lent = [] →
      (Planner.assignRegions name routines).Ends ⟨k, planner.withForks false⟩ results d →
      (confinement k.board.usable).Assumed .blank
        (Planner.assignRegions name routines ⟨k, planner.withForks false⟩).events →
      ∃ ranges placed,
        (measureBatch name routines).Ends ⟨k, planner.withForks false⟩ ranges placed ∧
        ((∃ results' e, (Planner.assignRegions name routines).Ends ⟨k, planner.withForks true⟩
          results' e) ↔ k.board.window.Follow k.board.window.start ranges) ∧
        (k.board.window.Follow k.board.window.start ranges →
          (Planner.assignRegions name routines).Ends ⟨k, planner.withForks true⟩ results
            ⟨d.target, d.kept.withForks true⟩)) := by
  constructor
  · intro inputs new p results d hnew hp hphase hlent hends hassumed
    obtain ⟨⟨hgrid, -⟩, -, rfl⟩ := Prover.create_eq_ok_iff.1 hnew
    obtain ⟨rows, heven⟩ := hp.of_familyKeeps Prover.familyKeeps (.unused hgrid schema inputs)
    exact (Prover.splitting schema rows).assignRegions heven.board.words ⟨heven, hlent, hphase⟩
      hpropagates hends hassumed
  · intro new k results d hnew hk hphase hlent hends hassumed
    obtain ⟨⟨hgrid, -⟩, rfl⟩ := KeyBuilder.create_eq_ok_iff.1 hnew
    obtain ⟨rows, heven⟩ := hk.of_familyKeeps KeyBuilder.familyKeeps (.unused hgrid schema)
    exact (KeyBuilder.splitting schema rows).assignRegions heven.words ⟨heven, hlent, hphase⟩
      hpropagates hends hassumed

/-! ## Two batches of two regions -/

namespace Prover

/-- A routine that assigns one cell of a column. -/
def routineAt (column : Nat) : Pass → Routine AssignedCell := fun _ =>
  Routine.assignAdvice "five" column 0 (.known (.whole 5))

/-- The routine passes on whatever its call answers. -/
theorem propagates_routineAt (column : Nat) (pass : Pass) :
    Program.Propagates (routineAt column pass) := .perform _

/-- Two advice columns. -/
def twoColumns : Schema := { (∅ : Schema) with adviceRotations := [[], []] }

/-- A prover whose synthesis has begun. -/
def begun : Prover := AssignmentCall.performAll [.start] (unused 4 twoColumns [])

/-- A planner that has placed nothing. -/
def blankPlanner : Planner := .fresh [] ⟨true, 0, 40⟩

theorem descends_begun : ∃ new, create 4 twoColumns [] = .ok new ∧ Descends new begun :=
  ⟨_, create_eq_ok_iff.2 ⟨by decide, by decide, rfl⟩, .reached ((Reached.refl _).performAll _)⟩

/-- Two regions in one column follow each other. -/
theorem assignRegions_on_forks_stacked :
    ∃ results d,
      (Planner.assignRegions "pair" [routineAt 0, routineAt 0]).Ends
        ⟨begun, blankPlanner.withForks false⟩ results d ∧
      (Planner.assignRegions "pair" [routineAt 0, routineAt 0]).Ends
        ⟨begun, blankPlanner.withForks true⟩ results ⟨d.target, d.kept.withForks true⟩ := by
  have hok : (Planner.assignRegions "pair" [routineAt 0, routineAt 0]
      (⟨begun, blankPlanner.withForks false⟩ : Layout Prover)).result.isOk = true := by decide +kernel
  obtain ⟨results, hends⟩ := Run.exists_ends_of_isOk hok
  obtain ⟨new, hnew, hbegun⟩ := descends_begun
  -- the routine is the same twice over, and hands on every fault
  have hpropagates : ∀ r ∈ [routineAt 0, routineAt 0], ∀ pass, Program.Propagates (r pass) := by
    intro r hr pass
    obtain rfl : r = routineAt 0 := by simpa using hr
    exact propagates_routineAt 0 pass
  obtain ⟨ranges, placed, hmeasure, -, hsame⟩ :=
    (assignRegions_on_forks 4 twoColumns blankPlanner "pair" hpropagates).1 hnew hbegun
      (by decide +kernel) (by decide +kernel) hends (by decide +kernel)
  have hranges : (measureBatch "pair" [routineAt 0, routineAt 0]
      (⟨begun, blankPlanner.withForks false⟩ : Layout Prover)).result = .ok [⟨0, 1⟩, ⟨1, 2⟩] := by
    decide +kernel
  obtain rfl : ranges = [⟨0, 1⟩, ⟨1, 2⟩] := Except.ok.inj (hmeasure.1.symm.trans hranges)
  -- the second range begins where the first one ends
  refine ⟨results, _, hends, hsame ?_⟩
  refine ⟨?_, ?_, ?_, ?_, trivial⟩
  all_goals decide +kernel

/-- Two regions side by side do not: they are laid out in order, and refused on forks. -/
theorem assignRegions_abreast :
    (∃ new, create 4 twoColumns [] = .ok new ∧ Descends new begun) ∧
      (begun.board.phase = .synthesizing ∧ begun.board.fixed.lent = [] ∧
        begun.board.selectors.lent = [] ∧ begun.advice.lent = []) ∧
      (∀ r ∈ [routineAt 0, routineAt 1], ∀ pass, Program.Propagates (r pass)) ∧
      (Planner.assignRegions "pair" [routineAt 0, routineAt 1]
        (⟨begun, blankPlanner.withForks false⟩ : Layout Prover)).result.isOk = true ∧
      (confinement begun.board.usable).Assumed .blank
        (Planner.assignRegions "pair" [routineAt 0, routineAt 1]
          (⟨begun, blankPlanner.withForks false⟩ : Layout Prover)).events ∧
      (Planner.assignRegions "pair" [routineAt 0, routineAt 1]
        (⟨begun, blankPlanner.withForks true⟩ : Layout Prover)).result =
          .error (.forkOverlap 1 ⟨0, 1⟩ 1) := by
  refine ⟨descends_begun, ?_, ?_, ?_, ?_, ?_⟩
  · decide +kernel
  · intro r hr pass
    simp only [List.mem_cons, List.not_mem_nil, or_false] at hr
    rcases hr with rfl | rfl
    · exact propagates_routineAt 0 pass
    · exact propagates_routineAt 1 pass
  all_goals decide +kernel

end Prover

end CircuitLayout
