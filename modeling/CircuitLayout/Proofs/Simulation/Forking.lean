import CircuitLayout.Proofs.Simulation.Batch
import CircuitLayout.Proofs.Simulation.Keeps
import CircuitLayout.Proofs.Store.Parts

namespace CircuitLayout

/-! # Batches on forks and in order

A root and a fork of it stand together for what the root becomes once the fork is taken back. So
regions that are written on forks of one root could have been written on the root, one after
another: each is written on what the root has become with the forks before it. Main statement:
`Faithful.layoutSimulation`, a layout on forks is matched by the layout in order.
-/

open Tolerance (Passes)
open Run (Anywhere)
open Desk (onTarget)

variable {σ τ α β : Type}

/-- A loop on the assignment of a desk is a loop on the desk. -/
theorem Desk.ends_each_onTarget {κ γ : Type} {f : γ → Run σ α} (xs : List γ) (d d' : Desk σ κ)
    (results : List α) :
    (Run.each (fun x => onTarget (f x)) xs).Ends d results d' ↔
      ∃ u, (Run.each f xs).Ends d.target results u ∧ d' = { d with target := u } := by
  induction xs generalizing d results with
  | nil =>
    simp only [Run.ends_each_nil]
    constructor
    · rintro ⟨rfl, rfl⟩
      exact ⟨_, ⟨rfl, rfl⟩, rfl⟩
    · rintro ⟨_, ⟨rfl, rfl⟩, rfl⟩
      exact ⟨rfl, rfl⟩
  | cons x xs ih =>
    simp only [Run.ends_each_cons, Desk.ends_onTarget, ih]
    constructor
    · rintro ⟨a, _, more, ⟨u, hfirst, rfl⟩, ⟨v, hrest, rfl⟩, rfl⟩
      -- only the target moves, so the kept half is the same at every step
      exact ⟨v, ⟨a, u, more, hfirst, hrest, rfl⟩, rfl⟩
    · rintro ⟨v, ⟨a, u, more, hfirst, hrest, rfl⟩, rfl⟩
      exact ⟨a, _, more, ⟨u, hfirst, rfl⟩, ⟨v, hrest, rfl⟩, rfl⟩

/-! ## Forks -/

/-- What is known of the forks of an assignment: which states are roots at rest, which are forks of
a root over a range, whether a root will admit what a fork keeps for it, the fork over a range that
nothing was written to, and what becomes of a root when a fork is taken back. -/
structure Forking (σ : Type) [Assignment σ] (t : Tolerance) where
  /-- The rows of the grid. -/
  grid : RowSpan
  /-- A root of which nothing is lent; is a region open on it? -/
  Idle : Bool → σ → Prop
  /-- A fork of a root over a range; is a region open on it? -/
  Serves : Bool → RowSpan → σ → σ → Prop
  Admits : σ → σ → Prop
  sliver : σ → RowSpan → σ
  fold : σ → σ → σ
  simulation : ∀ range base, RegionSimulation t (Admits base)
    fun opened f q => q = fold base f ∧ Serves opened range base f
  serves_sliver : ∀ {base range}, Idle false base → Assignment.phase base = .synthesizing →
    grid.Covers range → Serves false range base (sliver base range)
  fold_sliver : ∀ {base range}, Idle false base → grid.Covers range →
    fold base (sliver base range) = base
  phase_fold : ∀ base f, Assignment.phase (fold base f) = Assignment.phase base
  idle_fold : ∀ {range base f}, Idle false base → Serves false range base f → Idle false (fold base f)
  sliver_fold : ∀ {range base f later}, Idle false base → Serves false range base f →
    grid.Covers later → range.stop ≤ later.start → sliver (fold base f) later = sliver base later

namespace Forking

variable [Assignment σ] {t : Tolerance} (forking : Forking σ t)

/-- Will a root admit what forks keep for it, when they are taken back in order? -/
def AdmitsAll : σ → List σ → Prop
  | _, [] => True
  | base, f :: fs => forking.Admits base f ∧ AdmitsAll (forking.fold base f) fs

/-- A fork on which no region is open. -/
def Closed (f : σ) : Prop := ∃ range base, forking.Serves false range base f

/-- Regions that were written on forks of a root are written one after another on the root, which
then is what becomes of it when the forks that are left are taken back. -/
theorem written_in_order {n n' : String}
    (hn : ∀ i, Passes t.labels (Planner.batchName n i) (Planner.batchName n' i)) (starts : Array Nat)
    (first : Nat) {A : α → β → Prop} {rs : List (Pass → Routine α)} {rs' : List (Pass → Routine β)}
    (hrs : List.Forall₂ (fun r r' => ∀ pass, Routine.Alike t A (r pass) (r' pass)) rs rs')
    {ranges : List RowSpan} (hlength : ranges.length = rs.length)
    (hordered : ∀ r ∈ ranges, r.start ≤ r.stop) {cursor : Nat}
    (hfollow : forking.grid.Follow cursor ranges) {base : σ} (hidle : forking.Idle false base)
    (hphase : Assignment.phase base = .synthesizing) {index : Nat}
    {written : List ((α × Requests) × σ)}
    (hwritten : Planner.WrittenOnForks n starts first
      (((ranges.map (forking.sliver base)).zip rs).zipIdx index) written)
    (hadmits : forking.AdmitsAll base (written.map (·.2))) :
    ∃ written',
      (Run.each (fun x : (Pass → Routine β) × Nat => writeRegion starts (first + x.2)
        (Planner.batchName n' x.2) (x.1 .writing)) (rs'.zipIdx index)).Ends base written'
          ((written.map (·.2)).foldl forking.fold base) ∧
      List.Forall₂ (WrittenAlike A) (written.map (·.1)) written' ∧
      forking.Idle false ((written.map (·.2)).foldl forking.fold base) ∧
      ∀ f ∈ written.map (·.2), forking.Closed f := by
  induction hrs generalizing ranges base index written cursor with
  | nil =>
    obtain rfl : ranges = [] := List.eq_nil_of_length_eq_zero hlength
    cases hwritten
    exact ⟨[], (Run.ends_each_nil ..).2 ⟨rfl, rfl⟩, .nil, hidle, by simp⟩
  | @cons r r' rs rs' hr _ ih =>
    cases ranges with
    | nil => simp at hlength
    | cons range ranges =>
      rw [List.map_cons, List.zip_cons_cons, List.zipIdx_cons] at hwritten
      cases hwritten with
      | @cons _ w _ written hw hrest =>
        rcases hfollow with ⟨hstart, hcovers, hlater⟩
        rcases hadmits with ⟨hfirst, hadmits⟩
        -- the first region: its fork stands with the root for the root itself
        have hserves := forking.serves_sliver hidle hphase hcovers
        have hstand := forking.fold_sliver hidle hcovers
        obtain ⟨b, q, hends, halike, rfl, hserves'⟩ :=
          (forking.simulation range base).writeRegion starts (first + index) (hn index) (hr .writing)
            _ base w.1 w.2 ⟨hstand.symm, hserves⟩ hw hfirst
        -- the regions after it: their forks are as good as forks of what the root has become
        have hordered' : ∀ r ∈ ranges, r.start ≤ r.stop :=
          fun r hr => hordered r (List.mem_cons_of_mem _ hr)
        have hslivers : ranges.map (forking.sliver base) =
            ranges.map (forking.sliver (forking.fold base w.2)) := by
          refine List.map_congr_left fun later hmem => ?_
          rcases hlater.mem hordered' later hmem with ⟨hcovers', hafter⟩
          exact (forking.sliver_fold hidle hserves' hcovers' hafter).symm
        rw [hslivers] at hrest
        -- folding a fork in leaves the root synthesizing
        have hphase' : Assignment.phase (forking.fold base w.2) = .synthesizing := by
          rw [forking.phase_fold, hphase]
        obtain ⟨bs, hends', halikes, hidle', hclosed⟩ := ih (by simpa using hlength) hordered' hlater
          (forking.idle_fold hidle hserves') hphase' hrest hadmits
        -- the replies and the fold of all forks are put together
        refine ⟨b :: bs, ?_, .cons halike halikes, hidle', ?_⟩
        · rw [List.zipIdx_cons, Run.ends_each_cons]
          exact ⟨b, _, bs, hends, hends', rfl⟩
        · intro f hf
          rcases List.mem_cons.1 hf with rfl | hf
          · exact ⟨range, base, hserves'⟩
          · exact hclosed f hf

/-- How a fork and a merge bring the states of a forking about. -/
structure Faithful : Prop where
  /-- A root is forked only during a synthesis, over ranges that follow each other. -/
  fork : ∀ {base ranges forks lent}, forking.Idle false base →
    (Assignment.fork ranges).Ends base forks lent →
      Assignment.phase base = .synthesizing ∧ forks = ranges.map (forking.sliver base) ∧
        (∀ r ∈ ranges, r.start ≤ r.stop) ∧ ∃ cursor, forking.grid.Follow cursor ranges
  /-- The merge of closed forks admits what they keep and takes them back. -/
  merge : ∀ {base ranges forks lent merged} {fs : List σ}, forking.Idle false base →
    (Assignment.fork ranges).Ends base forks lent →
    (Assignment.merge (fs.map .fork)).Ends lent () merged →
      forking.AdmitsAll base fs ∧
        ((∀ f ∈ fs, forking.Closed f) → merged = fs.foldl forking.fold base)

variable {forking}

/-- What was written on forks could have been written in order. -/
theorem Faithful.writeSerially (h : forking.Faithful) {n n' : String}
    (hn : ∀ i, Passes t.labels (Planner.batchName n i) (Planner.batchName n' i))
    {A : α → β → Prop} {rs : List (Pass → Routine α)} {rs' : List (Pass → Routine β)}
    (hrs : List.Forall₂ (fun r r' => ∀ pass, Routine.Alike t A (r pass) (r' pass)) rs rs')
    {ranges : List RowSpan} (hlength : ranges.length = rs.length) (starts : Array Nat) (first : Nat)
    {d d' : Layout σ} (hidle : forking.Idle false d.target) {results : List (α × Requests)}
    (hends : (Planner.writeForked n starts first ranges rs).Ends d results d') (kept : Planner) :
    ∃ results', (Planner.writeSerially n' starts first rs').Ends ⟨d.target, kept⟩ results'
        ⟨d'.target, kept⟩ ∧
      List.Forall₂ (WrittenAlike A) results results' ∧ d'.kept = d.kept ∧
      forking.Idle false d'.target := by
  rcases (Planner.ends_writeForked ..).1 hends with ⟨forks, u, written, honFork, hwritten, honMerge, rfl⟩
  rcases (Desk.ends_onTarget ..).1 honFork with ⟨lent, hfork, rfl⟩
  rcases (Desk.ends_onTarget ..).1 honMerge with ⟨merged, hmerge, rfl⟩
  have hoffers : (written.map fun w => Offer.fork w.2) = (written.map (·.2)).map Offer.fork := by
    rw [List.map_map]
    rfl
  rw [hoffers] at hmerge
  -- the forks are slivers of the root; merged, they are folded into it one by one
  rcases h.fork hidle hfork with ⟨hphase, rfl, hordered, cursor, hfollow⟩
  rcases h.merge hidle hfork hmerge with ⟨hadmits, hmerged⟩
  obtain ⟨results', hserial, halike, hidle', hclosed⟩ := forking.written_in_order hn starts first hrs hlength
    hordered hfollow hidle hphase hwritten hadmits
  -- so the root after the merge is the root after the same regions, written in order
  rcases hmerged hclosed with rfl
  refine ⟨results', (Planner.ends_writeSerially ..).2 ?_, halike, rfl, hidle'⟩
  exact (Desk.ends_each_onTarget ..).2 ⟨_, hserial, rfl⟩

/-! ## Batches -/

/-- Are settings the same, but for batches being written one region after another? -/
def InOrder (s s' : Settings) : Prop := s' = { s with parallel := false }

/-- Does a state stand for itself, as a root of which nothing is lent? -/
def Same (forking : Forking σ t) (opened : Bool) (p q : σ) : Prop :=
  q = p ∧ forking.Idle opened p

/-- A batch that may be written on forks is matched by the batch written in order. -/
theorem Faithful.batch (h : forking.Faithful)
    (hregion : RegionSimulation t Anywhere forking.Same) {A : α → β → Prop} (d e : Layout σ)
    (hde : Layout.Rel InOrder forking.Same d e) {n n' : String} (hn : Passes t.labels n n')
    (starts : Array Nat) (first : Nat) (ranges : List RowSpan) {rs : List (Pass → Routine α)}
    {rs' : List (Pass → Routine β)} (hlength : ranges.length = rs.length)
    (hrs : List.Forall₂ (fun r r' => ∀ pass, Routine.Alike t A (r pass) (r' pass)) rs rs') :
    Run.Refines Anywhere (fun x y => x = d ∧ y = e) (Layout.Rel InOrder forking.Same)
      (List.Forall₂ (WrittenAlike A))
      (Planner.writeBatch (d.kept.settings.parallel && Assignment.canFork d.target) n starts first
        ranges rs)
      (Planner.writeBatch (e.kept.settings.parallel && Assignment.canFork e.target) n' starts first
        ranges rs') := by
  have hnames : ∀ i, Passes t.labels (Planner.batchName n i) (Planner.batchName n' i) :=
    fun i => hn.map fun name => Planner.batchName name i
  rcases hde with ⟨⟨htarget, hidle⟩, hkept⟩
  have hserial : (e.kept.settings.parallel && Assignment.canFork e.target) = false := by
    rw [hkept.settings]
    rfl
  rw [hserial]
  by_cases hforked : (d.kept.settings.parallel && Assignment.canFork d.target) = true
  · rw [hforked]
    rintro x y results d' ⟨hx, hy⟩ hends -
    rw [hx] at hends
    rw [hy]
    obtain ⟨results', hends', halike, hkept', hidle'⟩ :=
      h.writeSerially hnames hrs hlength starts first hidle hends e.kept
    -- written on forks on the one side, in order on the other
    have hwhole : (⟨d.target, e.kept⟩ : Layout σ) = e := by rw [← htarget]
    rw [hwhole] at hends'
    refine ⟨results', ⟨d'.target, e.kept⟩, hends', halike, ⟨rfl, hidle'⟩, ?_⟩
    rw [hkept']
    exact hkept
  · -- written in order on both sides
    rw [Bool.not_eq_true] at hforked
    rw [hforked]
    refine (Planner.refines_writeSerially hregion hnames hrs starts first).start ?_
    rintro _ _ ⟨rfl, rfl⟩
    exact ⟨⟨htarget, hidle⟩, hkept⟩

/-! ## Layouts -/

/-- Whatever a planner asks for, with batches on forks, is matched by the same call with batches in
order. -/
theorem Faithful.layoutSimulation {forking : Forking σ Tolerance.anySettings} (h : forking.Faithful)
    (hcalls : ∀ opened, CallKeeps (forking.Idle opened))
    (henter : ∀ name s a s', forking.Idle false s →
      (Assignment.enterRegion name : Run σ Unit).Ends s a s' → forking.Idle true s')
    (hexit : ∀ s a s', forking.Idle true s →
      (Assignment.exitRegion : Run σ Unit).Ends s a s' → forking.Idle false s') :
    LayoutSimulation Tolerance.anySettings InOrder forking.Same := by
  -- a state that is idle stays idle through any run that keeps it so
  have hself : ∀ {γ : Type} (opened : Bool) {m : Run σ γ}, Run.Keeps (forking.Idle opened) m →
      Run.Refines Anywhere (forking.Same opened) (forking.Same opened) Eq m m :=
    fun opened _ hkeep => Run.Refines.self fun _ _ _ hidle hends => hends.of_keeps hkeep hidle
  have hunit : ∀ (opened : Bool) {m : Run σ Unit}, Run.Keeps (forking.Idle opened) m →
      Run.Refines Anywhere (forking.Same opened) (forking.Same opened) (fun _ _ => True) m m :=
    fun opened _ hkeep => (hself opened hkeep).mono (fun _ _ _ => trivial) fun _ _ hsame => hsame
  -- outside of batches the two sides make the same calls of the same state
  have hregion : RegionSimulation Tolerance.anySettings Anywhere forking.Same :=
    { keeps := .not_anywhere
      enterRegion := fun hn => by
        rw [hn.eq]
        exact (Run.Refines.self (henter _)).mono (fun _ _ _ => trivial) fun _ _ hsame => hsame
      exitRegion := (Run.Refines.self hexit).mono (fun _ _ _ => trivial) fun _ _ hsame => hsame
      nameColumn := fun hl column => by
        rw [hl.eq]
        exact hunit true ((hcalls true).nameColumn _ column)
      enableSelector := fun hl selector row => by
        rw [hl.eq]
        exact hunit true ((hcalls true).enableSelector _ selector row)
      queryAdvice := fun column row => (hself true ((hcalls true).queryAdvice column row)).mono
        (fun _ _ hsame => .inr hsame) fun _ _ hsame => hsame
      queryFixed := fun column row => (hself true ((hcalls true).queryFixed column row)).mono
        (fun _ _ hsame => .inr hsame) fun _ _ hsame => hsame
      queryInput := fun column row => (hself true ((hcalls true).queryInput column row)).mono
        (fun _ _ hsame => .inr hsame) fun _ _ hsame => hsame
      assignAdvice := fun hl column row _ _ hv => by
        rw [hl.eq, hv.eq]
        exact (hself true ((hcalls true).assignAdvice _ column row _)).mono
          (fun _ _ hsame => .inr hsame) fun _ _ hsame => hsame
      assignFixed := fun opened _ _ hl column row value => by
        rw [hl.eq]
        exact hself opened ((hcalls opened).assignFixed _ column row value)
      copy := fun opened left right => hunit opened ((hcalls opened).copy left right) }
  exact
    -- a batch is the only call whose two sides differ
    { toRegionSimulation := hregion
      settings := fun _ _ _ => .inl rfl
      start := hunit false (hcalls false).start
      close := hunit false (hcalls false).close
      fillFrom := fun column row value => hunit false ((hcalls false).fillFrom column row value)
      challenge := fun index => (hself false ((hcalls false).challenge index)).mono
        (fun _ _ hsame => .inr hsame) fun _ _ hsame => hsame
      pushScope := fun hn => by
        rw [hn.eq]
        exact hunit false ((hcalls false).pushScope _)
      popScope := fun hn => by
        rw [hn.eq]
        exact hunit false ((hcalls false).popScope _)
      batch := fun d e hde _ _ hn starts first ranges _ _ hlength hrs =>
        h.batch hregion d e hde hn starts first ranges hlength hrs }

end Forking

end CircuitLayout
