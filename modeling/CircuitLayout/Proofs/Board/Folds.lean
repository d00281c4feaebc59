import CircuitLayout.Proofs.Board.Roots
import CircuitLayout.Proofs.Run.Refines
import CircuitLayout.Proofs.Store.Parts

namespace CircuitLayout

/-! # Boards with a fork taken back

The board of a root and a fork of it together stand for the board that the root becomes once the
fork is taken back. Whatever succeeds on the fork succeeds there as well, and leaves what the root
becomes with the fork that is left, as long as the copies that the fork keeps will be accepted.
Main statements: one lemma for each operation that a region may ask for.
-/

/-! ## Many copies -/

namespace Permutation

/-- Records copies in order, if all of them are accepted. -/
def copyAll (p : Permutation) : List (Position × Position) → Except Fault Permutation
  | [] => .ok p
  | c :: cs => do
    let q ← p.copy c.1 c.2
    copyAll q cs

/-- The permutation with copies, if all of them are accepted, or without. -/
def withCopies (p : Permutation) (cs : List (Position × Position)) : Permutation :=
  match p.copyAll cs with
  | .ok q => q
  | .error _ => p

variable {p q : Permutation}

/-- Copies that are all accepted give what they come to. -/
theorem withCopies_of_ok {cs : List (Position × Position)} (h : p.copyAll cs = .ok q) :
    p.withCopies cs = q := by
  rw [withCopies, h]

/-- Without copies the permutation stays. -/
@[simp] theorem withCopies_nil : p.withCopies [] = p := rfl

/-- Copies are accepted one after the other. -/
theorem copyAll_cons_eq_ok_iff (c : Position × Position) (cs : List (Position × Position)) :
    p.copyAll (c :: cs) = .ok q ↔ ∃ m, p.copy c.1 c.2 = .ok m ∧ m.copyAll cs = .ok q := by
  rw [copyAll, bind_eq_ok]

/-- The last copy is accepted by what the others leave. -/
theorem copyAll_concat_eq_ok_iff (cs : List (Position × Position)) (c : Position × Position) :
    p.copyAll (cs ++ [c]) = .ok q ↔ ∃ m, p.copyAll cs = .ok m ∧ m.copy c.1 c.2 = .ok q := by
  induction cs generalizing p with
  | nil =>
    rw [List.nil_append, copyAll_cons_eq_ok_iff]
    simp [copyAll]
  | cons d ds ih =>
    rw [List.cons_append, copyAll_cons_eq_ok_iff]
    constructor
    · rintro ⟨m, hm, hrest⟩
      rcases ih.1 hrest with ⟨m', hm', hlast⟩
      exact ⟨m', (copyAll_cons_eq_ok_iff ..).2 ⟨m, hm, hm'⟩, hlast⟩
    · rintro ⟨m', hcopies, hlast⟩
      rcases (copyAll_cons_eq_ok_iff ..).1 hcopies with ⟨m, hm, hm'⟩
      exact ⟨m, hm, ih.2 ⟨m', hm', hlast⟩⟩

end Permutation

namespace Board

variable {φ : Type} {base f f' b' : Board φ} {range : RowSpan}

/-- The copies that a fork kept are replayed on a root if the permutation accepts all of them. -/
theorem ends_replay {p : Permutation} (hp : base.permutation = some p) (a : Unit) :
    (replay f).Ends base a b' ↔
      ∃ q, p.copyAll f.pending.toList = .ok q ∧ b' = { base with permutation := some q } := by
  -- by induction on the copies, over whatever permutation the copies before them left
  have hloop : ∀ (copies : List (Position × Position)) (b : Board φ) (p : Permutation),
      b.permutation = some p → ∀ b', (∃ results,
        (Run.each (fun c : Position × Position => connect c.1 c.2) copies).Ends b results b') ↔
          ∃ q, p.copyAll copies = .ok q ∧ b' = { b with permutation := some q } := by
    intro copies
    induction copies with
    | nil =>
      intro b p hb b'
      simp only [Run.ends_each_nil, Permutation.copyAll, Except.ok.injEq]
      constructor
      · rintro ⟨_, -, rfl⟩
        exact ⟨p, rfl, by rw [← hb]⟩
      · rintro ⟨q, rfl, rfl⟩
        exact ⟨[], rfl, by rw [← hb]⟩
    | cons c copies ih =>
      intro b p hb b'
      simp only [Run.ends_each_cons, Permutation.copyAll_cons_eq_ok_iff, ends_connect, hb]
      constructor
      · rintro ⟨_, _, u, more, hfirst, hrest, -⟩
        rcases hfirst with ⟨hnone, -⟩ | ⟨_, m, hsome, hm, rfl⟩
        · -- a root has a permutation, so nothing is kept pending
          exact absurd hnone (by simp)
        · rcases Option.some.inj hsome with rfl
          rcases (ih _ m rfl b').1 ⟨more, hrest⟩ with ⟨q, hq, rfl⟩
          exact ⟨q, ⟨m, hm, hq⟩, rfl⟩
      · rintro ⟨q, ⟨m, hm, hq⟩, rfl⟩
        rcases (ih { b with permutation := some m } m rfl _).2 ⟨q, hq, rfl⟩ with ⟨more, hrest⟩
        exact ⟨_, (), _, more, .inr ⟨p, m, rfl, hm, rfl⟩, hrest, rfl⟩
  rw [← hloop _ base p hp, replay, Run.ends_bind]
  constructor
  · rintro ⟨results, _, h, -, rfl⟩
    exact ⟨results, h⟩
  · rintro ⟨results, h⟩
    exact ⟨results, b', h, (Run.ends_pure ..).2 ⟨rfl, rfl⟩⟩

/-! ## Taking a fork back -/

/-- What becomes of a root when a fork of it is taken back. -/
def fold (base f : Board φ) : Board φ :=
  { base with
    fixed := base.fixed.absorb f.fixed
    selectors := base.selectors.absorb f.selectors
    permutation := base.permutation.map (·.withCopies f.pending.toList) }

/-- Will a root admit the copies that a fork keeps? -/
def Admits (base f : Board φ) : Prop :=
  ∃ p q, base.permutation = some p ∧ p.copyAll f.pending.toList = .ok q

/-- Is a board a fork of a root over a range of rows, whatever was written to it? -/
structure Serves (range : RowSpan) (base f : Board φ) : Prop where
  phase : f.phase = base.phase
  usable : f.usable = base.usable
  confined : base.window = base.usable
  unrooted : f.permutation = none
  fixed : base.fixed.IsPart range f.fixed
  selectors : base.selectors.IsPart range f.selectors

/-- Does a board stand for a root and a fork of it? -/
def StandsFor (range : RowSpan) (base f q : Board φ) : Prop :=
  q = base.fold f ∧ base.Serves range f

/-- What may be written on a fork may be written on the root that takes it back. -/
theorem Serves.writable (h : base.Serves range f) {row : Nat} (hrow : f.Writable row) :
    (base.fold f).Writable row := by
  rcases hrow with ⟨hphase, husable, -⟩
  rw [h.usable] at husable
  refine ⟨h.phase ▸ hphase, husable, ?_⟩
  show row ∈ base.window
  rw [h.confined]
  exact husable

/-- A run on a fork, matched by the same run on what stands for the root and the fork. -/
abbrev Passed {α : Type} (range : RowSpan) (base : Board φ) (m : Run (Board φ) α) : Prop :=
  Run.Refines base.Admits (StandsFor range base) (StandsFor range base) Eq m m

/-- The root finds a row usable that its fork does. -/
theorem passed_requireUsable (row : Nat) : Passed range base (requireUsable row) := by
  rintro f _ a f' ⟨rfl, hserves⟩ hends -
  rcases (ends_requireUsable row a).1 hends with ⟨hrow, rfl⟩
  rw [hserves.usable] at hrow
  exact ⟨(), _, (ends_requireUsable row ()).2 ⟨hrow, rfl⟩, rfl, rfl, hserves⟩

/-- The root finds a row writable that its fork does. -/
theorem passed_requireWritable (operation : String) (row : Nat) :
    Passed range base (requireWritable operation row) := by
  rintro f _ a f' ⟨rfl, hserves⟩ hends -
  rcases (ends_requireWritable operation row a).1 hends with ⟨⟨husable, -⟩, rfl⟩
  rw [hserves.usable] at husable
  have hwindow : row ∈ base.window := by
    rw [hserves.confined]
    exact husable
  exact ⟨(), _, (ends_requireWritable operation row ()).2 ⟨⟨husable, hwindow⟩, rfl⟩, rfl, rfl,
    hserves⟩

/-- A selector that is enabled on a fork is enabled on the root. -/
theorem passed_enableSelector (selector : Selector) (row : Nat) :
    Passed range base (enableSelector selector row) := by
  rintro f _ a f' ⟨rfl, hserves⟩ hends -
  rcases (ends_enableSelector selector row a).1 hends with ⟨hrow, selectors, hset, rfl⟩
  rcases hserves.selectors.set hset with ⟨hset', hpart⟩
  exact ⟨(), _, (ends_enableSelector selector row ()).2 ⟨hserves.writable hrow, _, hset', rfl⟩, rfl,
    rfl, { hserves with selectors := hpart }⟩

/-- A fixed cell that is assigned on a fork is assigned on the root. -/
theorem passed_assignFixed (keep : Fraction → φ) (label : String) (column row : Nat)
    (value : Producer) : Passed range base (assignFixed keep label column row value) := by
  rintro f _ v f' ⟨rfl, hserves⟩ hends -
  rcases (ends_assignFixed ..).1 hends with ⟨⟨hrow, hvalue⟩, fixed, hset, rfl⟩
  rcases hserves.fixed.set hset with ⟨hset', hpart⟩
  exact ⟨v, _, (ends_assignFixed ..).2 ⟨⟨hserves.writable hrow, hvalue⟩, _, hset', rfl⟩, rfl,
    rfl, { hserves with fixed := hpart }⟩

/-- A copy that a fork keeps is accepted at once where the fork is taken back, if it is going to
be. -/
theorem passed_copy (left right : Position) : Passed range base (copy left right) := by
  rintro f _ a f' ⟨rfl, hserves⟩ hends hadmits
  rcases (ends_copy left right a).1 hends with ⟨⟨hphase, hleft, hright⟩, hconnect⟩
  rcases (ends_connect left right a).1 hconnect with ⟨-, rfl⟩ | ⟨p, q, hsome, -, -⟩
  · -- the copies before this one are accepted too, and the fold has connected them
    rcases hadmits with ⟨p, r, hp, hcopies⟩
    rw [Array.toList_push] at hcopies
    rcases (Permutation.copyAll_concat_eq_ok_iff _ _).1 hcopies with ⟨q, hbefore, hcopy⟩
    rw [hserves.phase] at hphase
    rw [hserves.usable] at hleft hright
    have hpermutation : (base.fold f).permutation = some q := by
      rw [fold, hp, Option.map_some, Permutation.withCopies_of_ok hbefore]
    refine ⟨(), { base.fold f with permutation := some r }, (ends_copy left right ()).2
      ⟨⟨hphase, hleft, hright⟩, (ends_connect left right ()).2
        (.inr ⟨q, r, hpermutation, hcopy, rfl⟩)⟩, rfl, ?_, { hserves with }⟩
    simp only [fold, hp, Option.map_some, Array.toList_push, Permutation.withCopies_of_ok hcopies]
  · -- a fork has no permutation of its own
    rw [hserves.unrooted] at hsome
    exact absurd hsome (by simp)

/-- Copies that will be refused go on being so: a fork only adds to the copies that it keeps. -/
theorem stable_not_admits : Stable fun f => ¬ base.Admits f := by
  intro f f' hstep hrefused
  cases hstep with
  | kept hnone c =>
    rintro ⟨p, q, hp, hcopies⟩
    rw [Array.toList_push] at hcopies
    rcases (Permutation.copyAll_concat_eq_ok_iff _ _).1 hcopies with ⟨m, hbefore, -⟩
    exact hrefused ⟨p, m, hp, hbefore⟩
  | phase | selector | cell | filled | joined => exact hrefused

/-! ## Forks of a root -/

/-- Is a board a root of which nothing is lent? -/
structure IsWhole (logRows : Nat) (schema : Schema) (b : Board φ) : Prop where
  root : b.IsRoot logRows schema
  lent_fixed : b.fixed.lent = []
  lent_selectors : b.selectors.lent = []

variable {logRows : Nat} {schema : Schema}

/-- No step takes away that a root is whole. -/
theorem IsWhole.stable : Stable (IsWhole logRows schema : Board φ → Prop) := by
  intro b c hstep hb
  have hroot := IsRoot.stable hstep hb.root
  cases hstep with
  | selector h => exact ⟨hroot, hb.lent_fixed, (Store.lent_of_set h).trans hb.lent_selectors⟩
  | cell h => exact ⟨hroot, (Store.lent_of_set h).trans hb.lent_fixed, hb.lent_selectors⟩
  | filled h => exact ⟨hroot, (Store.lent_of_fill h).trans hb.lent_fixed, hb.lent_selectors⟩
  | phase | joined | kept => exact ⟨hroot, hb.lent_fixed, hb.lent_selectors⟩

/-- The fork of a root that is being synthesized serves it. -/
theorem IsWhole.serves_forkOver (h : base.IsWhole logRows schema) (hphase : base.phase = .synthesizing)
    (hrange : (grid logRows).Covers range) : base.Serves range (base.forkOver range) where
  phase := hphase.symm
  usable := rfl
  confined := h.root.window_eq.trans h.root.usable_eq.symm
  unrooted := rfl
  fixed := Store.isPart_part h.root.fixed h.lent_fixed hrange
  selectors := Store.isPart_part h.root.selectors h.lent_selectors hrange

/-- A fork that nothing was written to changes nothing when it is taken back. -/
theorem IsWhole.fold_forkOver (h : base.IsWhole logRows schema)
    (hrange : (grid logRows).Covers range) : base.fold (base.forkOver range) = base := by
  have hfixed := Store.absorb_part h.root.fixed hrange
  have hselectors := Store.absorb_part h.root.selectors hrange
  have hpermutation : base.permutation.map (·.withCopies []) = base.permutation := by simp
  unfold fold
  simp only [forkOver, hfixed, hselectors, hpermutation]

/-- A root with a fork taken back is a root. -/
theorem IsWhole.fold (h : base.IsWhole logRows schema) (hserves : base.Serves range f) :
    (base.fold f).IsWhole logRows schema where
  root := { h.root with
    fixed := h.root.fixed.absorb (hserves.fixed.part.width_eq.trans h.root.fixed.width_eq)
    selectors :=
      h.root.selectors.absorb (hserves.selectors.part.width_eq.trans h.root.selectors.width_eq)
    permutation := by
      rw [Board.fold, Option.isSome_map]
      exact h.root.permutation }
  lent_fixed := h.lent_fixed
  lent_selectors := h.lent_selectors

/-- Later rows are forked alike before and after a fork is taken back. -/
theorem IsWhole.forkOver_fold (h : base.IsWhole logRows schema) (hserves : base.Serves range f)
    {later : RowSpan} (hlater : (grid logRows).Covers later) (hdisjoint : range.stop ≤ later.start) :
    (base.fold f).forkOver later = base.forkOver later := by
  -- rows that lie behind the fork are not touched by taking it back
  have hcovers : base.fixed.window.Covers later := by
    rw [h.root.fixed.window_eq]
    exact hlater
  have hcovers' : base.selectors.window.Covers later := by
    rw [h.root.selectors.window_eq]
    exact hlater
  have hfixed := Store.part_absorb hserves.fixed hcovers hdisjoint
  have hselectors := Store.part_absorb hserves.selectors hcovers' hdisjoint
  unfold forkOver Board.fold
  simp only [hfixed, hselectors]

/-- Checking ranges changes nothing, and is done only during a synthesis. -/
theorem of_ends_grant {ranges : List RowSpan} {b : Board φ}
    (h : (grant ranges).Ends base () b) : base.phase = .synthesizing ∧ b = base := by
  have hkept : Run.Keeps (fun c => c = base) (grant ranges) := keeps_grant ranges
  have hsame := hkept base rfl
  rw [h.2] at hsame
  rw [grant, ends_requireSynthesizing_bind] at h
  exact ⟨h.1, hsame⟩

/-- What is left of a root while rows of it are lent out. -/
def lend (b : Board φ) (ranges : List RowSpan) : Board φ :=
  { b with
    fixed := { b.fixed with lent := ranges }
    selectors := { b.selectors with lent := ranges } }

/-- A root is carved over ranges of the grid that follow each other. -/
theorem IsWhole.of_ends_carve (h : base.IsWhole logRows schema) {ranges : List RowSpan}
    {boards : List (Board φ)} {b : Board φ} (hends : (carve ranges).Ends base boards b) :
    boards = ranges.map base.forkOver ∧ b = base.lend ranges ∧
      (grid logRows).Follow (grid logRows).start ranges ∧ ∀ r ∈ ranges, r.start ≤ r.stop := by
  rcases (ends_carve ranges boards).1 hends with ⟨-, hcheck, -, hboards, hlent⟩
  rw [h.root.fixed.window_eq] at hcheck
  exact ⟨hboards, hlent, Store.follow_of_checkRanges hcheck (Nat.le_refl _)⟩

/-! ## Merging forks -/

/-- Will a root admit what forks keep, when they are taken back in order? -/
def AdmitsAll : Board φ → List (Board φ) → Prop
  | _, [] => True
  | base, f :: fs => base.Admits f ∧ AdmitsAll (base.fold f) fs

/-- Whether a root admits what a fork keeps depends on its permutation alone. -/
theorem Admits.congr {b c : Board φ} (h : b.Admits f) (hbc : b.permutation = c.permutation) :
    c.Admits f := by
  unfold Admits at h ⊢
  rwa [← hbc]

/-- Replaying the copies of forks in order, each on what the ones before it left. -/
theorem of_ends_replays {fs : List (Board φ)} {results : List Unit} {b c : Board φ}
    (hpermutation : b.permutation = base.permutation) (hrooted : b.permutation.isSome = true)
    (h : (Run.each replay fs).Ends b results c) :
    base.AdmitsAll fs ∧ c = { b with permutation := (fs.foldl fold base).permutation } := by
  induction fs generalizing base b results with
  | nil =>
    rcases (Run.ends_each_nil ..).1 h with ⟨-, rfl⟩
    refine ⟨trivial, ?_⟩
    rw [List.foldl_nil, ← hpermutation]
  | cons f fs ih =>
    rcases (Run.ends_each_cons ..).1 h with ⟨_, d, more, hfirst, hrest, -⟩
    rcases Option.isSome_iff_exists.1 hrooted with ⟨p, hp⟩
    rcases (ends_replay hp _).1 hfirst with ⟨q, hq, rfl⟩
    have hadmits : b.Admits f := ⟨p, q, hp, hq⟩
    -- what the replay leaves is the permutation that the fold comes to
    have hnext : (some q : Option Permutation) = (base.fold f).permutation := by
      rw [Board.fold, ← hpermutation, hp, Option.map_some, Permutation.withCopies_of_ok hq]
    rcases ih hnext rfl hrest with ⟨hadmits', rfl⟩
    exact ⟨⟨hadmits.congr hpermutation, hadmits'⟩, rfl⟩

/-- Taking cells and copies back one fork after another. -/
theorem foldl_fold_eq (fs : List (Board φ)) (b : Board φ) :
    fs.foldl fold b = { b with
      fixed := (fs.map (·.fixed)).foldl Store.absorb b.fixed
      selectors := (fs.map (·.selectors)).foldl Store.absorb b.selectors
      permutation := (fs.foldl fold b).permutation } := by
  induction fs generalizing b with
  | nil => rfl
  | cons f fs ih =>
    rw [List.foldl_cons, ih]
    rfl

/-- A root whose forks are merged is what becomes of it when they are taken back one by one. -/
theorem IsWhole.of_ends_merge (h : base.IsWhole logRows schema) {ranges : List RowSpan}
    {fs : List (Board φ)} {results : List Unit} {b c : Board φ}
    (hreplays : (Run.each replay fs).Ends (base.lend ranges) results b)
    (hrejoin : (rejoin fs).Ends b () c) : base.AdmitsAll fs ∧ c = fs.foldl Board.fold base := by
  have hpermutation : (base.lend ranges).permutation = base.permutation := rfl
  rcases of_ends_replays hpermutation h.root.permutation hreplays with ⟨hadmits, rfl⟩
  rcases (ends_rejoin fs ()).1 hrejoin with ⟨fixed, selectors, hfixed, hselectors, rfl⟩
  rcases Store.eq_foldl_of_rejoin h.lent_fixed hfixed with rfl
  rcases Store.eq_foldl_of_rejoin h.lent_selectors hselectors with rfl
  refine ⟨hadmits, ?_⟩
  -- the stores are absorbed in the order in which the copies were replayed
  rw [foldl_fold_eq]
  rfl

end Board

end CircuitLayout
