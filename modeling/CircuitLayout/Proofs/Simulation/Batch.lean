import CircuitLayout.Proofs.Simulation.Layout

namespace CircuitLayout

/-! # Simulation of batches

All regions of a batch run, whatever fails, and the batch succeeds if all of them did. Written one
after another they succeed as a loop over them would; written on forks they succeed if each does on
its fork and the merge does. Main statements: `ends_writeSerially`, `ends_writeForked`, and the two
refinements that follow from them.
-/

open Tolerance (Passes)
open Run (Anywhere)
open Desk (onTarget)

variable {σ τ α β γ : Type}

/-- A step for every item that ends with a pair of a result and a state of its own. -/
theorem ends_each_aside {f : γ → σ} {m : γ → Run σ α} (xs : List γ) (s s' : τ)
    (results : List (Except Fault α × σ)) :
    (Run.each (fun x => Run.aside (f x) (m x)) xs).Ends s results s' ↔
      results = xs.map (fun x => ((m x (f x)).result, (m x (f x)).state)) ∧ s' = s := by
  induction xs generalizing results with
  | nil => simp
  | cons x xs ih =>
    rw [Run.ends_each_cons]
    constructor
    · rintro ⟨⟨result, u⟩, v, more, hx, hxs, rfl⟩
      rw [Run.ends_aside] at hx
      -- an element run aside ends in what its own run gives, and the state stays
      rcases hx with ⟨⟨rfl, rfl⟩, rfl⟩
      rcases (ih more).1 hxs with ⟨rfl, rfl⟩
      exact ⟨rfl, rfl⟩
    · rintro ⟨rfl, rfl⟩
      exact ⟨_, s', _, (Run.ends_aside ..).2 ⟨⟨rfl, rfl⟩, rfl⟩, (ih _).2 ⟨rfl, rfl⟩, rfl⟩

/-- Attempts at all items of which none failed are a loop over the items. -/
theorem ends_each_attempt {f : γ → Run σ α} (xs : List γ) (s s' : σ) (results : List α) :
    (Run.each (fun x => (f x).attempt) xs).Ends s (results.map .ok) s' ↔
      (Run.each f xs).Ends s results s' := by
  induction xs generalizing s results with
  | nil => simp
  | cons x xs ih =>
    rw [Run.ends_each_cons, Run.ends_each_cons]
    constructor
    · rintro ⟨result, u, more, hx, hxs, heq⟩
      cases results with
      | nil => simp at heq
      | cons a results =>
        simp only [List.map_cons, List.cons.injEq] at heq
        rcases heq with ⟨rfl, rfl⟩
        -- an attempt that ends with a result is a run that ends with it
        exact ⟨a, u, results, (Run.ends_attempt ..).1 hx, (ih u results).1 hxs, rfl⟩
    · rintro ⟨a, u, more, hx, hxs, rfl⟩
      exact ⟨.ok a, u, more.map .ok, (Run.ends_attempt ..).2 hx, (ih u more).2 hxs, rfl⟩

/-- Ends of which none is a fault, as results with the states that go with them. -/
theorem exists_of_map_fst_eq {ends : List (Except Fault β × σ)} {results : List β}
    (h : ends.map (·.1) = results.map .ok) :
    ∃ written : List (β × σ), ends = written.map (fun w => (.ok w.1, w.2)) ∧
      written.map (·.1) = results := by
  induction results generalizing ends with
  | nil =>
    refine ⟨[], ?_, rfl⟩
    simpa using h
  | cons b results ih =>
    cases ends with
    | nil => simp at h
    | cons e ends =>
      simp only [List.map_cons, List.cons.injEq] at h
      rcases h with ⟨hb, hrest⟩
      rcases ih hrest with ⟨written, rfl, rfl⟩
      -- each end succeeded with the result that is listed for it
      exact ⟨(b, e.2) :: written, by simp [← hb], rfl⟩

namespace Planner

/-- The results of a batch are handed on if all of them are results. -/
theorem ends_allOrFirstFault (name : String) (results : List (Except Fault β)) (s s' : σ)
    (bs : List β) :
    (allOrFirstFault name results : Run σ (List β)).Ends s bs s' ↔
      results = bs.map .ok ∧ s' = s := by
  unfold allOrFirstFault
  generalize 0 = first
  induction results generalizing first bs s with
  | nil => simp [List.zipIdx, eq_comm]
  | cons result results ih =>
    rw [List.zipIdx_cons, Run.ends_each_cons]
    cases result with
    | error fault =>
      constructor
      · -- the first fault ends the loop
        rintro ⟨a, u, more, hfault, -, -⟩
        simp at hfault
      · rintro ⟨heq, -⟩
        cases bs with
        | nil => simp at heq
        | cons b bs => simp at heq
    | ok b =>
      simp only [ih, Run.ends_pure']
      constructor
      · rintro ⟨a, u, more, ⟨rfl, rfl⟩, ⟨rfl, rfl⟩, rfl⟩
        exact ⟨rfl, rfl⟩
      · rintro ⟨heq, rfl⟩
        cases bs with
        | nil => simp at heq
        | cons b' bs =>
          simp only [List.map_cons, List.cons.injEq, Except.ok.injEq] at heq
          rcases heq with ⟨rfl, rfl⟩
          -- a result that succeeded is handed on, and the loop changes nothing
          exact ⟨b, s', bs, ⟨rfl, rfl⟩, ⟨rfl, rfl⟩, rfl⟩

variable [Assignment σ] [Assignment τ]

/-- A batch that is written one region after another succeeds as the loop over its regions. -/
theorem ends_writeSerially (name : String) (starts : Array Nat) (first : Nat)
    (routines : List (Pass → Routine α)) (d d' : Layout σ) (written : List (α × Requests)) :
    (writeSerially name starts first routines).Ends d written d' ↔
      (Run.each (fun x : (Pass → Routine α) × Nat => onTarget
        (writeRegion starts (first + x.2) (batchName name x.2) (x.1 .writing)))
          routines.zipIdx).Ends d written d' := by
  unfold writeSerially
  rw [← ends_each_attempt]
  simp only [Run.ends_bind, ends_allOrFirstFault]
  constructor
  · rintro ⟨_, _, h, rfl, rfl⟩
    exact h
  · intro h
    exact ⟨_, d', h, rfl, rfl⟩

/-- Writes a region of a batch, given with its fork and its number. -/
def writeNumbered (name : String) (starts : Array Nat) (first : Nat)
    (x : (σ × (Pass → Routine α)) × Nat) : Run σ (α × Requests) :=
  writeRegion starts (first + x.2) (batchName name x.2) (x.1.2 .writing)

/-- Does each region of a batch succeed on its own fork? The results are paired with the forks
that are left. -/
def WrittenOnForks (name : String) (starts : Array Nat) (first : Nat)
    (regions : List ((σ × (Pass → Routine α)) × Nat)) (written : List ((α × Requests) × σ)) : Prop :=
  List.Forall₂ (fun x w => (writeNumbered name starts first x).Ends x.1.1 w.1 w.2) regions written

theorem writtenOnForks_iff (name : String) (starts : Array Nat) (first : Nat)
    (regions : List ((σ × (Pass → Routine α)) × Nat)) (written : List ((α × Requests) × σ)) :
    WrittenOnForks name starts first regions written ↔
      written.map (fun w => (.ok w.1, w.2)) = regions.map (fun x =>
        ((writeNumbered name starts first x x.1.1).result,
          (writeNumbered name starts first x x.1.1).state)) := by
  induction regions generalizing written with
  | nil => cases written <;> simp [WrittenOnForks]
  | cons x regions ih =>
    cases written with
    | nil => simp [WrittenOnForks]
    | cons w written =>
      have htail := ih written
      simp only [WrittenOnForks] at htail
      -- one region was written on its fork when its run ends in what is listed
      have hfirst : (writeNumbered name starts first x).Ends x.1.1 w.1 w.2 ↔
          .ok w.1 = (writeNumbered name starts first x x.1.1).result ∧
            w.2 = (writeNumbered name starts first x x.1.1).state :=
        and_congr eq_comm eq_comm
      simp only [WrittenOnForks, List.map_cons, List.cons.injEq, Prod.mk.injEq, List.forall₂_cons,
        htail, hfirst]

/-- A batch is written on forks by one loop, whose items are numbered. -/
theorem writeForked_eq (name : String) (starts : Array Nat) (first : Nat) (ranges : List RowSpan)
    (routines : List (Pass → Routine α)) :
    writeForked name starts first ranges routines = (do
      let forks ← onTarget (Assignment.fork ranges)
      let ends ← Run.each (fun x => Run.aside x.1.1 (writeNumbered name starts first x))
        (forks.zip routines).zipIdx
      let results ← allOrFirstFault name (ends.map (·.1))
      onTarget (Assignment.merge (ends.map fun w => .fork w.2))
      return results : Run (Layout σ) (List (α × Requests))) := rfl

/-- A batch to which no forks are given ends there. -/
theorem writeForked_of_fork_error {ranges : List RowSpan} {d : Layout σ} {fault : Fault}
    (h : (Assignment.fork ranges d.target : Outcome σ (List σ)).result = .error fault) (name : String)
    (starts : Array Nat) (first : Nat) (routines : List (Pass → Routine α)) :
    (writeForked name starts first ranges routines d).result = .error fault ∧
      (writeForked name starts first ranges routines d).state =
        { d with target := (Assignment.fork ranges d.target : Outcome σ (List σ)).state } := by
  have hforks : (onTarget (Assignment.fork ranges) d : Outcome (Layout σ) (List σ)).result =
      .error fault := h
  rw [writeForked_eq]
  exact Run.bind_eq_of_error hforks _

/-- A batch that is written on forks succeeds if each region does on its fork, and the merge. -/
theorem ends_writeForked (name : String) (starts : Array Nat) (first : Nat)
    (ranges : List RowSpan) (routines : List (Pass → Routine α)) (d d' : Layout σ)
    (results : List (α × Requests)) :
    (writeForked name starts first ranges routines).Ends d results d' ↔
      ∃ forks u written, (onTarget (Assignment.fork ranges)).Ends d forks u ∧
        WrittenOnForks name starts first (forks.zip routines).zipIdx written ∧
        (onTarget (Assignment.merge (written.map fun w => .fork w.2))).Ends u () d' ∧
        results = written.map (·.1) := by
  simp only [writeForked_eq, Run.ends_bind, Run.ends_pure, ends_allOrFirstFault, ends_each_aside]
  constructor
  · rintro ⟨forks, u, hfork, ends, _, ⟨hends, rfl⟩, results', _, ⟨hok, rfl⟩, _, _, hmerge, rfl, rfl⟩
    -- no fault among the ends: the forks were all written, and their ends are merged
    rcases exists_of_map_fst_eq hok with ⟨written, rfl, rfl⟩
    refine ⟨forks, _, written, hfork, (writtenOnForks_iff ..).2 hends, ?_, rfl⟩
    rw [List.map_map] at hmerge
    exact hmerge
  · rintro ⟨forks, u, written, hfork, hwritten, hmerge, rfl⟩
    -- conversely, forks that were written leave no fault for the loop to find
    have hends := (writtenOnForks_iff ..).1 hwritten
    refine ⟨forks, u, hfork, written.map (fun w => (.ok w.1, w.2)), u, ⟨hends, rfl⟩,
      written.map (·.1), u, ⟨?_, rfl⟩, (), d', ?_, rfl, rfl⟩
    · rw [List.map_map, List.map_map]
      rfl
    · rw [List.map_map]
      exact hmerge

/-! ## Batches in one mode -/

variable {t : Tolerance} {Q : Settings → Settings → Prop} {S : Bool → σ → τ → Prop}
  {A : α → β → Prop} {n n' : String} {rs : List (Pass → Routine α)} {rs' : List (Pass → Routine β)}

/-- Two batches whose regions are written one after another. -/
theorem refines_writeSerially (h : RegionSimulation t Anywhere S)
    (hn : ∀ i, Passes t.labels (batchName n i) (batchName n' i))
    (hr : List.Forall₂ (fun r r' => ∀ pass, Routine.Alike t A (r pass) (r' pass)) rs rs')
    (starts : Array Nat) (first : Nat) :
    Run.Refines Anywhere (Layout.Rel Q S) (Layout.Rel Q S) (List.Forall₂ (WrittenAlike A))
      (writeSerially n starts first rs) (writeSerially n' starts first rs') := by
  -- one region of either side, under the number that both give it
  have hstep : ∀ (x : (Pass → Routine α) × Nat) (y : (Pass → Routine β) × Nat),
      (∀ pass, Routine.Alike t A (x.1 pass) (y.1 pass)) ∧ x.2 = y.2 →
      Run.Refines Anywhere (Layout.Rel Q S) (Layout.Rel Q S) (WrittenAlike A)
        (onTarget (writeRegion starts (first + x.2) (batchName n x.2) (x.1 .writing)))
        (onTarget (writeRegion starts (first + y.2) (batchName n' y.2) (y.1 .writing))) := by
    rintro ⟨r, i⟩ ⟨r', j⟩ ⟨hr, hij⟩
    obtain rfl : i = j := hij
    exact Desk.refines_onTarget (h.writeRegion starts (first + i) (hn i) (hr .writing))
  -- the regions run one after another keep the states related
  have hloop := Run.Refines.each (forall₂_zipIdx hr 0) (fun _ => Run.Keeps.not_anywhere) hstep
  intro d e written d' hde hends hF
  rw [ends_writeSerially] at hends
  rcases hloop d e written d' hde hends hF with ⟨written', e', hends', hresult⟩
  exact ⟨written', e', (ends_writeSerially ..).2 hends', hresult⟩

/-- Regions that are written on forks which stand for each other leave such forks. -/
theorem writtenOnForks_alike (h : RegionSimulation t Anywhere S)
    (hn : ∀ i, Passes t.labels (batchName n i) (batchName n' i)) {starts : Array Nat} {first : Nat}
    {regions : List ((σ × (Pass → Routine α)) × Nat)}
    {regions' : List ((τ × (Pass → Routine β)) × Nat)}
    (hregions : List.Forall₂ (fun x y => (S false x.1.1 y.1.1 ∧
      ∀ pass, Routine.Alike t A (x.1.2 pass) (y.1.2 pass)) ∧ x.2 = y.2) regions regions')
    {written : List ((α × Requests) × σ)} (hwritten : WrittenOnForks n starts first regions written) :
    ∃ written', WrittenOnForks n' starts first regions' written' ∧
      List.Forall₂ (fun w w' => WrittenAlike A w.1 w'.1 ∧ S false w.2 w'.2) written written' := by
  induction hregions generalizing written with
  | nil =>
    cases hwritten
    exact ⟨[], .nil, .nil⟩
  | @cons x y regions regions' hxy _ ih =>
    cases hwritten with
    | @cons _ w _ written hw hrest =>
      rcases ih hrest with ⟨written', hrest', hall⟩
      rcases hxy with ⟨⟨hS, hr⟩, hij⟩
      -- each region runs on a fork of its own, so the forks are matched one by one
      unfold writeNumbered at hw
      rw [hij] at hw
      obtain ⟨b, u, hends, hb, hu⟩ :=
        h.writeRegion starts (first + y.2) (hn y.2) (hr .writing) _ _ _ _ hS hw trivial
      exact ⟨(b, u) :: written', .cons hends hrest', .cons ⟨hb, hu⟩ hall⟩

/-- Two batches that are both written on forks, given how forking and merging are matched. Forks may
stand for each other in another way than the assignments that they are split off. -/
theorem refines_writeForked {T : Bool → σ → τ → Prop} (h : RegionSimulation t Anywhere T)
    {Lent : σ → τ → Prop} {ranges : List RowSpan}
    (hfork : Run.Refines Anywhere (S false) Lent (List.Forall₂ (T false))
      (Assignment.fork ranges) (Assignment.fork ranges))
    (hmerge : ∀ fs gs, List.Forall₂ (T false) fs gs → Run.Refines Anywhere Lent (S false)
      (fun _ _ => True) (Assignment.merge (fs.map .fork)) (Assignment.merge (gs.map .fork)))
    (hn : ∀ i, Passes t.labels (batchName n i) (batchName n' i))
    (hr : List.Forall₂ (fun r r' => ∀ pass, Routine.Alike t A (r pass) (r' pass)) rs rs')
    (starts : Array Nat) (first : Nat) :
    Run.Refines Anywhere (Layout.Rel Q S) (Layout.Rel Q S) (List.Forall₂ (WrittenAlike A))
      (writeForked n starts first ranges rs) (writeForked n' starts first ranges rs') := by
  intro d e results d' hde hends hF
  rw [ends_writeForked] at hends
  rcases hends with ⟨forks, u, written, hforks, hwritten, hmerged, rfl⟩
  obtain ⟨forks', u', hforks', hpairs, hlent⟩ :=
    Desk.refines_onTarget hfork d e forks u hde hforks hF
  -- a fork and its routine stand for the fork and the routine of the same number
  have hnumbered := forall₂_zipIdx (forall₂_zip hpairs hr) 0
  rcases writtenOnForks_alike h hn hnumbered hwritten with ⟨written', hwritten', hall⟩
  -- the forks as they were left are related too, and merging keeps it so
  have hleft : List.Forall₂ (T false) (written.map (·.2)) (written'.map (·.2)) :=
    List.forall₂_map_left_iff.2 (List.forall₂_map_right_iff.2 (hall.imp fun _ _ h => h.2))
  have hmerge := Desk.refines_onTarget (K := Planner.Alike Q) (hmerge _ _ hleft)
  simp only [List.map_map, Function.comp_def] at hmerge
  rcases hmerge u u' () d' hlent hmerged hF with ⟨_, e', hmerged', -, hrel⟩
  refine ⟨written'.map (·.1), e', (ends_writeForked ..).2
    ⟨forks', u', written', hforks', hwritten', hmerged', rfl⟩, ?_, hrel⟩
  exact List.forall₂_map_left_iff.2 (List.forall₂_map_right_iff.2 (hall.imp fun _ _ h => h.1))

/-- Two batches that are written in the same mode. -/
theorem refines_writeBatch {T : Bool → σ → τ → Prop} (h : RegionSimulation t Anywhere S)
    (hforks : RegionSimulation t Anywhere T) {Lent : σ → τ → Prop} {ranges : List RowSpan}
    (hfork : Run.Refines Anywhere (S false) Lent (List.Forall₂ (T false))
      (Assignment.fork ranges) (Assignment.fork ranges))
    (hmerge : ∀ fs gs, List.Forall₂ (T false) fs gs → Run.Refines Anywhere Lent (S false)
      (fun _ _ => True) (Assignment.merge (fs.map .fork)) (Assignment.merge (gs.map .fork)))
    (hn : ∀ i, Passes t.labels (batchName n i) (batchName n' i))
    (hr : List.Forall₂ (fun r r' => ∀ pass, Routine.Alike t A (r pass) (r' pass)) rs rs')
    (forked : Bool) (starts : Array Nat) (first : Nat) :
    Run.Refines Anywhere (Layout.Rel Q S) (Layout.Rel Q S) (List.Forall₂ (WrittenAlike A))
      (writeBatch forked n starts first ranges rs) (writeBatch forked n' starts first ranges rs') := by
  unfold writeBatch
  split
  · exact refines_writeForked hforks hfork hmerge hn hr starts first
  · exact refines_writeSerially h hn hr starts first

end Planner

end CircuitLayout
