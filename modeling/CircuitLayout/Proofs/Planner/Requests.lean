import CircuitLayout.Proofs.Forks.Batches

namespace CircuitLayout

/-! # What steps ask for

The constants that a step asks for are read off the calls of its routines: those of one region in the
order of the calls, those of a batch in the order of the regions. Main statement:
`LayoutCall.asked_of_ends`, these are the requests that are left when the step is materialised, in
order or on forks.
-/

open Desk (onTarget getKept modifyKept withinRegion)

variable {σ α ρ : Type}

/-! ## Visits -/

/-- The calls that a run of a program makes, each with the state in which it begins. -/
def Program.visits {I : Interface} (handle : (c : I.Call) → Run σ (I.Reply c)) :
    Program I α → σ → List (σ × I.Call)
  | done _, _ | fail _, _ => []
  | note _ rest, s => visits handle rest s
  | call c next, s => (s, c) :: visits handle (next (handle c s).result) (handle c s).state

/-- What every call keeps is so where each of them begins. -/
theorem Program.forall_visits {I : Interface} {P : σ → Prop}
    {handle : (c : I.Call) → Run σ (I.Reply c)} (hhandle : ∀ c, Run.Keeps P (handle c))
    (p : Program I α) {s : σ} (hs : P s) : ∀ v ∈ p.visits handle s, P v.1 := by
  induction p generalizing s with
  | done a => exact fun v hv => absurd hv List.not_mem_nil
  | fail fault => exact fun v hv => absurd hv List.not_mem_nil
  | note n rest ih => exact ih hs
  | call c next ih => exact List.forall_mem_cons.2 ⟨hs, ih _ (hhandle c s hs)⟩

/-! ## Requests of regions -/

/-- The constant that a call on a region asks for, with the cell that is to equal it. -/
def RegionCall.asks? (region : Nat) : RegionCall → Option (Fraction × Cell)
  | assignConstant _ column offset constant => some (constant, ⟨region, offset, .advice column⟩)
  | constrainConstant cell constant => some (constant, cell)
  | enableSelector .. | nameColumn .. | queryAdvice .. | queryFixed .. | assignAdvice ..
  | assignFixed .. | assignInput .. | constrainEqual .. | globalRow .. => none

/-- What is asked for after a call on the assignment is collected unless that call fails. -/
theorem kept_ask {β γ : Type} (m : Run σ β) (request : Fraction × Cell) (reply : γ)
    (d : Desk σ Requests) :
    let asking : Run (Desk σ Requests) γ := do
      let _ ← onTarget m
      modifyKept (·.push request)
      return reply
    (asking d).state.kept.toList =
      d.kept.toList ++ (if (asking d).result.isOk then some request else none).toList := by
  cases h : m d.target with
  | mk result t es =>
    simp only [Run.bind_apply, onTarget, Run.zoom, h]
    cases result with
    | error fault => exact (List.append_nil _).symm
    | ok b => exact Array.toList_push

section Regions

variable [Assignment σ] (starts : Array Nat) (region : Nat)

/-- The constants that the routine of a region asks for, from an assignment on in which the region is
open: those of its calls that do not fail, in order. -/
def Routine.asked (routine : Routine α) (target : σ) : List (Fraction × Cell) :=
  (routine.visits (announcedCall starts region) (⟨target, #[]⟩ : Desk σ Requests)).filterMap fun v =>
    if (announcedCall starts region v.2 v.1).result.isOk then v.2.asks? region else none

/-- The constants that a region asks for while it is written. -/
def regionAsked (name : String) (routine : Routine α)
    (target : σ) : List (Fraction × Cell) :=
  routine.asked starts region (Assignment.enterRegion name target).state

/-- A call that asks for no constant collects none. -/
theorem keeps_kept_writeCall {starts : Array Nat} {region : Nat} {c : RegionCall}
    (hc : c.asks? region = none) (requests : Requests) :
    Run.Keeps (fun d => d.kept = requests)
      (writeCall starts region c : Run (Desk σ Requests) c.Reply) := by
  -- a call of the target leaves the requests alone
  have htarget : ∀ {β : Type} (m : Run σ β),
      Run.Keeps (fun d : Desk σ Requests => d.kept = requests) (onTarget m) :=
    fun m => Run.Keeps.zoom fun d hd => hd
  cases c with
  | assignConstant | constrainConstant => cases hc
  | enableSelector | nameColumn | queryAdvice | queryFixed => exact htarget _
  | assignAdvice | assignFixed => exact (htarget _).bind fun v => Run.Keeps.pure _
  | assignInput =>
    refine (htarget _).bind fun value => (htarget _).bind fun _ => ?_
    exact (htarget _).bind fun _ => Run.Keeps.pure _
  | constrainEqual =>
    exact (Run.Keeps.ofExcept _).bind fun r => (Run.Keeps.ofExcept _).bind fun l => htarget _
  | globalRow => exact Run.Keeps.pure _

/-- A call collects what it asks for, unless it fails. -/
theorem kept_writeCall (c : RegionCall) (d : Desk σ Requests) :
    (writeCall starts region c d).state.kept.toList = d.kept.toList ++
      (if (writeCall starts region c d).result.isOk then c.asks? region else none).toList := by
  cases hc : c.asks? region with
  | none => rw [ite_self, keeps_kept_writeCall hc d.kept d rfl, Option.toList_none, List.append_nil]
  | some request =>
    cases c with
    | assignConstant label column offset constant =>
      cases hc
      exact kept_ask ..
    | constrainConstant cell constant =>
      cases hc
      exact Array.toList_push
    | enableSelector | nameColumn | queryAdvice | queryFixed | assignAdvice | assignFixed | assignInput
    | constrainEqual | globalRow => cases hc

/-- What a call announces and acknowledges plays no part in what it does. -/
theorem announcedCall_apply (c : RegionCall) (d : Desk σ Requests) :
    (announcedCall starts region c d).result = (writeCall starts region c d).result ∧
      (announcedCall starts region c d).state = (writeCall starts region c d).state := by
  -- both ends of the call only tell of it
  have hannounce : ∃ es, c.announce d = ⟨.ok (), d, es⟩ := by
    unfold RegionCall.announce
    cases c.announces? with
    | none => exact ⟨[], rfl⟩
    | some e => exact ⟨[e], rfl⟩
  have hacknowledge : ∀ reply (e : Desk σ Requests), ∃ es, c.acknowledge reply e = ⟨.ok (), e, es⟩ := by
    intro reply e
    unfold RegionCall.acknowledge
    cases c.cell? reply with
    | none => exact ⟨[], rfl⟩
    | some cell => exact ⟨[.answered cell], rfl⟩
  obtain ⟨es, hes⟩ := hannounce
  simp only [announcedCall, Run.bind_apply, hes]
  rcases writeCall starts region c d with ⟨_ | reply, e, fs⟩
  · exact ⟨rfl, rfl⟩
  · obtain ⟨gs, hgs⟩ := hacknowledge reply e
    simp only [hgs]
    exact ⟨rfl, rfl⟩

theorem kept_announcedCall (c : RegionCall) (d : Desk σ Requests) :
    (announcedCall starts region c d).state.kept.toList = d.kept.toList ++
      (if (announcedCall starts region c d).result.isOk then c.asks? region else none).toList := by
  obtain ⟨hresult, hstate⟩ := announcedCall_apply starts region c d
  rw [hresult, hstate, kept_writeCall]

/-- What a routine asked for is collected behind what was collected before it. -/
theorem Routine.kept_run (routine : Routine α) (d : Desk σ Requests) :
    (routine.run (announcedCall starts region) d).state.kept.toList =
      d.kept.toList ++ (routine.visits (announcedCall starts region) d).filterMap fun v =>
        if (announcedCall starts region v.2 v.1).result.isOk then v.2.asks? region else none := by
  induction routine generalizing d with
  | done a => exact (List.append_nil _).symm
  | fail fault => exact (List.append_nil _).symm
  | note n rest ih => exact ih d
  | call c next ih =>
    have hcall := kept_announcedCall starts region c d
    have hrest := ih (announcedCall starts region c d).result (announcedCall starts region c d).state
    -- the first call adds its request, if it has one, before those of the rest
    rw [hcall, List.append_assoc] at hrest
    refine hrest.trans (congrArg (d.kept.toList ++ ·) ?_)
    refine Eq.trans ?_ List.filterMap_cons.symm
    cases if (announcedCall starts region c d).result.isOk then c.asks? region else none with
    | none => rfl
    | some request => rfl

/-- A region that is written leaves what it asked for. -/
theorem requests_of_ends {starts : Array Nat} {region : Nat} {name : String} {routine : Routine α}
    {target target' : σ} {a : α} {requests : Requests}
    (hends : (writeRegion starts region name routine).Ends target (a, requests) target') :
    requests.toList = regionAsked starts region name routine target := by
  obtain ⟨d, hends, -⟩ := (Run.ends_zoom ..).1 hends
  obtain ⟨a', u, hwithin, hrest⟩ := (Run.ends_bind ..).1 hends
  rw [Run.Ends, Desk.getKept_bind_apply, ← Run.Ends] at hrest
  obtain ⟨hpair, rfl⟩ := (Run.ends_pure ..).1 hrest
  obtain ⟨opened, v, hopen, hbody, hclose⟩ := (Desk.ends_withinRegion ..).1 hwithin
  obtain ⟨t, henter, rfl⟩ := (Desk.ends_onTarget ..).1 hopen
  obtain ⟨t', -, rfl⟩ := (Desk.ends_onTarget ..).1 hclose
  have hrun := (Run.ends_emit_bind ..).1 hbody
  -- the desk of the region begins without requests
  have hkept := routine.kept_run starts region ⟨t, #[]⟩
  obtain ⟨-, rfl⟩ := Prod.mk.inj hpair
  rw [regionAsked, henter.2]
  exact (congrArg (fun d => d.kept.toList) hrun.2.symm).trans (hkept.trans (List.nil_append _))

end Regions

/-! ## Requests of batches -/

namespace Planner

variable [Assignment σ] (name : String) (starts : Array Nat) (first : Nat)

/-- The constants that the regions of a batch ask for that are written one after another. -/
def askedInOrder : List ((Pass → Routine α) × Nat) → σ → List (Fraction × Cell)
  | [], _ => []
  | (routine, i) :: rest, target =>
    regionAsked starts (first + i) (batchName name i) (routine .writing) target ++
      askedInOrder rest
        (writeRegion starts (first + i) (batchName name i) (routine .writing) target).state

/-- The constants that the regions of a batch ask for that are each written on a fork. -/
def askedOnForks (regions : List ((σ × (Pass → Routine α)) × Nat)) : List (Fraction × Cell) :=
  regions.flatMap fun x =>
    regionAsked starts (first + x.2) (batchName name x.2) (x.1.2 .writing) x.1.1

/-- The requests of the regions of a batch are put together in the order of the regions. -/
theorem toList_gathered (written : List (α × Requests)) (requests : Requests) :
    (written.foldl (fun all w => all ++ w.2) requests).toList =
      requests.toList ++ written.flatMap (·.2.toList) := by
  induction written generalizing requests with
  | nil => exact (List.append_nil _).symm
  | cons w written ih =>
    rw [List.foldl_cons, ih, Array.toList_append, List.flatMap_cons, List.append_assoc]

theorem gathered_of_writeSerially {routines : List (Pass → Routine α)} {d d' : Layout σ}
    {written : List (α × Requests)}
    (hends : (writeSerially name starts first routines).Ends d written d') :
    written.flatMap (·.2.toList) = askedInOrder name starts first routines.zipIdx d.target := by
  rw [ends_writeSerially] at hends
  generalize routines.zipIdx = numbered at hends ⊢
  induction numbered generalizing d written with
  | nil =>
    obtain ⟨rfl, -⟩ := (Run.ends_each_nil ..).1 hends
    rfl
  | cons x numbered ih =>
    -- the first region leaves the state in which the next is written
    obtain ⟨⟨a, requests⟩, u, more, hx, hrest, rfl⟩ := (Run.ends_each_cons ..).1 hends
    obtain ⟨t, hwrite, rfl⟩ := (Desk.ends_onTarget ..).1 hx
    rw [List.flatMap_cons, requests_of_ends hwrite, ih hrest, askedInOrder, hwrite.2]

theorem gathered_of_forks {regions : List ((σ × (Pass → Routine α)) × Nat)}
    {written : List ((α × Requests) × σ)}
    (hwritten : WrittenOnForks name starts first regions written) :
    (written.map (·.1)).flatMap (·.2.toList) = askedOnForks name starts first regions := by
  induction hwritten with
  | nil => rfl
  | @cons x w regions written hw _ ih =>
    have hfirst : w.1.2.toList = regionAsked starts (first + x.2) (batchName name x.2)
      (x.1.2 .writing) x.1.1 := requests_of_ends hw
    rw [List.map_cons, List.flatMap_cons, ih, hfirst, askedOnForks, askedOnForks, List.flatMap_cons]

end Planner

/-! ## Requests of steps -/

open Planner (measureAndPlace measureBatch askedInOrder askedOnForks writePlaced)

/-- The constants that a call of a planner asks for, in the order in which they are to be written. -/
def LayoutCall.asked [Assignment σ] (d : Layout σ) : LayoutCall ρ → List (Fraction × Cell)
  | .region name routine =>
    let placed := (measureAndPlace name (routine .measuring) d).state
    regionAsked placed.kept.starts d.kept.starts.size name (routine .writing) placed.target
  | .regions name routines =>
    match measureBatch name routines d with
    | ⟨.error _, _, _⟩ => []
    | ⟨.ok ranges, placed, _⟩ =>
      if placed.kept.settings.parallel && Assignment.canFork placed.target then
        match ((Assignment.fork ranges : Run σ (List σ)) placed.target).result with
        | .error _ => []
        | .ok forks =>
          askedOnForks name placed.kept.starts d.kept.starts.size (forks.zip routines).zipIdx
      else
        askedInOrder name placed.kept.starts d.kept.starts.size routines.zipIdx placed.target
  | .table .. | .constrainInput .. | .challenge .. | .pushScope .. | .popScope .. | .starts | .tables
  | .settings => []

namespace Planner

variable [Assignment σ]

/-- A region is materialised if it is placed and then written. -/
theorem ends_materialiseRegion {name : String} {routine : Pass → Routine α} {d m : Layout σ}
    {w : α × Requests} :
    (materialiseRegion name routine).Ends d w m ↔
      ∃ range placed, (measureAndPlace name (routine .measuring)).Ends d range placed ∧
        (onTarget (writeRegion placed.kept.starts d.kept.starts.size name
          (routine .writing))).Ends placed w m := by
  rw [materialiseRegion, Run.Ends, Desk.getKept_bind_apply, ← Run.Ends, Run.ends_bind]
  refine exists_congr fun range => exists_congr fun placed => and_congr_right fun _ => ?_
  rw [Run.Ends, Desk.getKept_bind_apply, ← Run.Ends]

/-- A batch is materialised if its regions are placed and then written, as the settings ask for. -/
theorem ends_materialiseRegions {name : String} {routines : List (Pass → Routine α)} {d m : Layout σ}
    {w : List α × Requests} :
    (materialiseRegions name routines).Ends d w m ↔
      ∃ ranges placed written, (measureBatch name routines).Ends d ranges placed ∧
        (writePlaced name d.kept.starts.size ranges routines placed).Ends placed written m ∧
        w = (written.map (·.1), written.foldl (fun all w => all ++ w.2) #[]) := by
  -- reading the planner first changes nothing of what follows
  have hparts : materialiseRegions name routines d =
      (measureBatch name routines >>= fun ranges => Run.get >>= fun placed =>
        writePlaced name d.kept.starts.size ranges routines placed >>= fun written =>
          return (written.map (·.1), written.foldl (fun all w => all ++ w.2) #[])) d := by
    rw [materialiseRegions, Desk.getKept_bind_apply]
    rfl
  rw [Run.Ends, hparts, ← Run.Ends]
  simp only [Run.ends_bind, Run.ends_get, Run.ends_pure]
  constructor
  · rintro ⟨ranges, _, hmeasure, _, _, ⟨rfl, rfl⟩, written, u, hwritten, rfl, rfl⟩
    exact ⟨ranges, _, written, hmeasure, hwritten, rfl⟩
  · rintro ⟨ranges, placed, written, hmeasure, hwritten, rfl⟩
    exact ⟨ranges, placed, hmeasure, placed, placed, ⟨rfl, rfl⟩, written, m, hwritten, rfl, rfl⟩

theorem asked_of_region {name : String} {routine : Pass → Routine ρ} {d m : Layout σ} {a : ρ}
    {requests : Requests} (hends : (materialiseRegion name routine).Ends d (a, requests) m) :
    requests.toList = (LayoutCall.region name routine).asked d := by
  obtain ⟨range, placed, hplaced, hends⟩ := ends_materialiseRegion.1 hends
  obtain ⟨t, hwrite, -⟩ := (Desk.ends_onTarget ..).1 hends
  rw [requests_of_ends hwrite, LayoutCall.asked, hplaced.2]

theorem asked_of_regions {name : String} {routines : List (Pass → Routine ρ)} {d m : Layout σ}
    {results : List ρ} {requests : Requests}
    (hends : (materialiseRegions name routines).Ends d (results, requests) m) :
    requests.toList = (LayoutCall.regions name routines).asked d := by
  obtain ⟨ranges, placed, written, hplaced, hwritten, heq⟩ := ends_materialiseRegions.1 hends
  obtain ⟨-, rfl⟩ := Prod.mk.inj heq
  have hbatch : measureBatch name routines d =
      ⟨.ok ranges, placed, (measureBatch name routines d).events⟩ := by
    rw [← hplaced.1, ← hplaced.2]
  rw [toList_gathered, LayoutCall.asked, hbatch]
  refine (List.nil_append _).trans ?_
  -- the requests are read off the writing, which ran on forks or in order
  unfold writePlaced writeBatch at hwritten
  split at hwritten
  · next hforked =>
    obtain ⟨forks, v, pairs, hfork, hpairs, -, rfl⟩ := (ends_writeForked ..).1 hwritten
    obtain ⟨t, hfork, -⟩ := (Desk.ends_onTarget ..).1 hfork
    simp only [hforked, if_true, hfork.1]
    exact gathered_of_forks name _ _ hpairs
  · next hordered =>
    simp only [if_neg hordered]
    exact gathered_of_writeSerially name _ _ hwritten

end Planner

/-- A step that is materialised leaves the requests that it asks for, in their order. -/
theorem LayoutCall.asked_of_ends [Assignment σ] {c : LayoutCall ρ} {d m : Layout σ} {reply : c.Reply}
    {requests : Requests} (hends : c.materialise.Ends d (reply, requests) m) :
    requests.toList = c.asked d := by
  -- calls other than those of regions ask for no constant
  have hnone : ∀ {β : Type} {b : β} {m' : Run (Layout σ) β},
      ((·, #[]) <$> m' : Run (Layout σ) (β × Requests)).Ends d (b, requests) m →
        requests.toList = [] := by
    intro β b m' hends
    obtain ⟨b', -, heq⟩ := (Run.ends_map ..).1 hends
    rw [(Prod.mk.inj heq).2]
  cases c with
  | region name routine => exact Planner.asked_of_region hends
  | regions name routines => exact Planner.asked_of_regions hends
  | table | constrainInput | challenge | pushScope | popScope | starts | tables | settings =>
    exact hnone hends

end CircuitLayout
