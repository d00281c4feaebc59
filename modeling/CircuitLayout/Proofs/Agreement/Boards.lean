import CircuitLayout.Keys
import CircuitLayout.Prover
import CircuitLayout.Proofs.Run.Refines
import CircuitLayout.Proofs.Store.Map

namespace CircuitLayout.Board

/-! # Boards of a witness and of keys

The board of a prover keeps its fixed cells evaluated, that of a key builder keeps them as
fractions. The two agree if they do so once all cells are read as values. Main statements: every
operation on the one is matched by the same operation on the other.
-/

open Run (Anywhere Refines)

/-- Do the board of a prover and the board of a key builder agree, with the given rows lent out? -/
structure Agrees (lent : List RowSpan) (b : Board Content) (c : Board Fraction) : Prop where
  logRows : b.logRows = c.logRows
  phase : b.phase = c.phase
  usable : b.usable = c.usable
  window : b.window = c.window
  fixed : b.fixed.map Content.queried = c.fixed.map Fraction.evaluate
  selectors : b.selectors = c.selectors
  permutation : b.permutation = c.permutation
  pending : b.pending = c.pending
  /-- Every usable row with fixed cells may be written. -/
  confined : ∀ row, row ∈ b.usable → row ∈ b.fixed.window → row ∈ b.window
  lent_fixed : b.fixed.lent = lent
  lent_selectors : b.selectors.lent = lent

variable {lent : List RowSpan}

/-- A run on the board of a prover is matched by a run on the board of a key builder, and the
boards go on agreeing. -/
abbrev Matches {α β : Type} (lent : List RowSpan) (R : α → β → Prop) (m : Run (Board Content) α)
    (n : Run (Board Fraction) β) : Prop :=
  Refines Anywhere (Agrees lent) (Agrees lent) R m n

/-! ## Checks -/

theorem matches_requireSynthesizing (operation operation' : String) :
    Matches lent (fun _ _ => True) (requireSynthesizing operation)
      (requireSynthesizing operation') := by
  refine Refines.get.andThen fun b c hbc => ?_
  rw [hbc.phase]
  exact Refines.refuse fun h => h

theorem matches_requireUsable (row : Nat) :
    Matches lent (fun _ _ => True) (requireUsable row) (requireUsable row) := by
  refine Refines.get.andThen fun b c hbc => ?_
  rw [hbc.usable]
  exact Refines.refuse fun h => h

theorem matches_requireWritable (operation operation' : String) (row : Nat) :
    Matches lent (fun _ _ => True) (requireWritable operation row)
      (requireWritable operation' row) := by
  refine (matches_requireUsable row).andThen fun _ _ _ => ?_
  refine Refines.get.andThen fun b c hbc => ?_
  rw [hbc.window]
  exact Refines.refuse fun h => h

theorem matches_advance (next : Phase → Except Fault Phase) :
    Matches lent (fun _ _ => True) (advance next) (advance next) := by
  refine Refines.get.andThen fun b c hbc => ?_
  rw [hbc.phase]
  refine (Refines.ofExcept (R := Eq) fun a ha => ⟨a, ha, rfl⟩).andThen fun phase _ hphase => ?_
  subst hphase
  exact Refines.set { hbc with phase := rfl }

/-! ## Cells -/

theorem matches_enableSelector (selector : Selector) (row : Nat) :
    Matches lent (fun _ _ => True) (enableSelector selector row)
      (enableSelector selector row) := by
  refine (matches_requireSynthesizing _ _).andThen fun _ _ _ => ?_
  refine (matches_requireWritable _ _ row).andThen fun _ _ _ => ?_
  refine Refines.get.andThen fun b c hbc => ?_
  rw [← hbc.selectors]
  refine (Refines.ofExcept (R := fun x y => x = y ∧ x.lent = lent) fun selectors h => ?_).andThen
    fun selectors _ h => ?_
  · -- the selectors are the same store on both sides, and a write lends nothing
    rcases Store.set_eq_ok_iff.1 h with ⟨i, -, rfl⟩
    exact ⟨_, h, rfl, hbc.lent_selectors⟩
  · rcases h with ⟨rfl, hlent⟩
    refine (Refines.set (T := Agrees lent) ?_).andThen fun _ _ _ => Refines.emit _ _
    exact { hbc with selectors := rfl, lent_selectors := hlent }

/-- A fixed cell is kept evaluated on the one side and as it is on the other. -/
theorem matches_assignFixed (label label' : String) (column row : Nat) (value : Producer) :
    Matches lent Eq (assignFixed .keep label column row value)
      (assignFixed id label' column row value) := by
  refine (matches_requireSynthesizing _ _).andThen fun _ _ _ => ?_
  refine (matches_requireWritable _ _ row).andThen fun _ _ _ => ?_
  have hask : Matches lent Eq (askProducer (.fixed column) value)
      (askProducer (.fixed column) value) :=
    (Refines.emit _ _).andThen fun _ _ _ => Refines.ofExcept fun a ha => ⟨a, ha, rfl⟩
  refine hask.andThen fun v _ hv => ?_
  subst hv
  cases v with
  | none => exact Refines.raise _ _
  | some v =>
    refine Refines.get.andThen fun b c hbc => ?_
    refine (Refines.ofExcept (R := fun x y => x.map Content.queried = y.map Fraction.evaluate ∧
      x.window = b.fixed.window ∧ x.lent = lent) fun fixed h => ?_).andThen fun fixed fixed' h => ?_
    · -- the same cell may be set on both sides, for the stores differ in their values only
      rcases Store.set_agree hbc.fixed (y := v) rfl h with ⟨fixed', h', hagree⟩
      rcases Store.set_eq_ok_iff.1 h with ⟨i, -, rfl⟩
      exact ⟨fixed', h', hagree, rfl, hbc.lent_fixed⟩
    · rcases h with ⟨hagree, hwindow, hlent⟩
      refine (Refines.set (T := Agrees lent) ?_).andThen fun _ _ _ => ?_
      · -- the window of the store is what it was, so the board is as confined as before
        exact { hbc with
          fixed := hagree
          confined := fun row husable hrow => hbc.confined row husable (hwindow ▸ hrow)
          lent_fixed := hlent }
      · exact (Refines.emit _ _).andThen fun _ _ _ => Refines.pure rfl

theorem matches_fillFrom (column row : Nat) (value : Option Fraction) :
    Matches lent (fun _ _ => True) (fillFrom .keep column row value)
      (fillFrom id column row value) := by
  refine (matches_requireSynthesizing _ _).andThen fun _ _ _ => ?_
  refine (matches_requireUsable row).andThen fun _ _ _ => ?_
  refine Refines.get.andThen fun b c hbc => ?_
  rw [Store.width_of_map_eq hbc.fixed]
  refine (Refines.refuse fun h => h).andThen fun _ _ _ => ?_
  cases value with
  | none => exact Refines.raise _ _
  | some v =>
    -- both boards refuse the same rows
    have hcovers : ¬ c.window.Covers ⟨row, c.usable.stop⟩ → ¬ b.window.Covers ⟨row, b.usable.stop⟩ := by
      rw [hbc.window, hbc.usable]
      exact id
    refine (Refines.refuse hcovers).andThen fun _ _ _ => ?_
    refine (Refines.ofExcept (R := fun x y => x.map Content.queried = y.map Fraction.evaluate ∧
      x.window = b.fixed.window ∧ x.lent = lent) fun fixed h => ?_).andThen fun fixed fixed' h => ?_
    · -- nothing is filled where the rows miss the window; then the stores are what they were
      rcases Store.fill_agree hbc.fixed (y := v) rfl h with ⟨fixed', h', hagree⟩
      rw [hbc.usable] at h'
      refine ⟨fixed', h', hagree, ?_⟩
      rcases Store.fill_eq_ok_iff.1 h with ⟨-, rfl⟩ | ⟨-, i, -, -, rfl⟩
      · exact ⟨rfl, hbc.lent_fixed⟩
      · exact ⟨rfl, hbc.lent_fixed⟩
    · rcases h with ⟨hagree, hwindow, hlent⟩
      exact Refines.set { hbc with
        fixed := hagree
        confined := fun row husable hrow => hbc.confined row husable (hwindow ▸ hrow)
        lent_fixed := hlent }

/-! ## Copies -/

theorem matches_connect (left right : Position) :
    Matches lent (fun _ _ => True) (connect left right) (connect left right) := by
  refine Refines.get.andThen fun b c hbc => ?_
  rw [hbc.permutation]
  cases c.permutation with
  -- forks keep the copy for later, roots connect at once
  | none => exact Refines.set { hbc with permutation := rfl, pending := by rw [hbc.pending] }
  | some p =>
    refine (Refines.ofExcept (R := Eq) fun a ha => ⟨a, ha, rfl⟩).andThen fun q _ hq => ?_
    subst hq
    exact Refines.set { hbc with permutation := rfl }

theorem matches_copy (left right : Position) :
    Matches lent (fun _ _ => True) (copy left right) (copy left right) := by
  refine (matches_requireSynthesizing _ _).andThen fun _ _ _ => ?_
  refine Refines.get.andThen fun b c hbc => ?_
  rw [hbc.usable]
  exact (Refines.refuse fun h => h).andThen fun _ _ _ => matches_connect left right

/-! ## Forks -/

theorem matches_grant (ranges : List RowSpan) :
    Matches lent (fun _ _ => True) (grant ranges) (grant ranges) := by
  -- whether a range is granted depends on the window and the range before it
  have hrange : ∀ window index cursor range, Matches lent (fun _ _ => True)
      (grantRange window index cursor range) (grantRange window index cursor range) := by
    intro window index cursor range
    refine (Refines.refuse fun h => h).andThen fun _ _ _ => ?_
    refine (Refines.refuse fun h => h).andThen fun _ _ _ => ?_
    exact (Refines.refuse fun h => h).andThen fun _ _ _ => Refines.emit _ _
  refine (matches_requireSynthesizing _ _).andThen fun _ _ _ => ?_
  refine Refines.get.andThen fun b c hbc => ?_
  rw [hbc.window]
  -- the windows are equal, so the same ranges are looked at
  have heach := Refines.each_same (F := Anywhere) (S := Agrees lent) (R := fun _ _ => True)
    ((List.range ranges.length).zip ((c.window.start :: ranges.map (·.stop)).zip ranges))
    (fun _ => Run.Keeps.not_anywhere) fun x => hrange c.window x.1 x.2.1 x.2.2
  exact heach.andThen fun _ _ _ => Refines.pure trivial

/-- The forks of boards that agree do so, if their fixed cells do. -/
theorem agrees_forks {b : Board Content} {c : Board Fraction} (hbc : Agrees [] b c)
    {ranges : List RowSpan} {parts : List (Store Fraction)}
    (hparts : List.Forall₂ (fun p q => p.map Content.queried = q.map Fraction.evaluate)
      (ranges.map b.fixed.part) parts) :
    List.Forall₂ (Agrees [])
      ((ranges.zip ((ranges.map b.fixed.part).zip (ranges.map b.selectors.part))).map
        fun (range, fixed, selectors) =>
          { b with
            phase := .synthesizing
            window := range
            fixed := fixed
            selectors := selectors
            permutation := none
            pending := #[] })
      ((ranges.zip (parts.zip (ranges.map b.selectors.part))).map
        fun (range, fixed, selectors) =>
          { c with
            phase := .synthesizing
            window := range
            fixed := fixed
            selectors := selectors
            permutation := none
            pending := #[] }) := by
  induction ranges generalizing parts with
  | nil => exact .nil
  | cons range ranges ih =>
    cases hparts with
    | cons hpart hparts =>
      -- a fork takes its range for its window, and begins without copies
      refine .cons ?_ (ih hparts)
      exact { hbc with
        phase := rfl
        window := rfl
        fixed := hpart
        selectors := rfl
        permutation := rfl
        pending := rfl
        confined := fun row _ hrow => hrow
        lent_fixed := rfl
        lent_selectors := rfl }

/-- Boards that agree are split into boards that agree; the rows are then lent out. -/
theorem matches_carve (ranges : List RowSpan) :
    Refines Anywhere (Agrees []) (Agrees ranges) (List.Forall₂ (Agrees [])) (carve ranges)
      (carve ranges) := by
  refine Refines.get.andThen fun b c hbc => ?_
  refine (Refines.ofExcept (R := fun x y => (List.Forall₂ (fun p q => p.map Content.queried =
    q.map Fraction.evaluate) x.1 y.1 ∧ x.2.map Content.queried = y.2.map Fraction.evaluate) ∧
    x.1 = ranges.map b.fixed.part ∧ x.2 = { b.fixed with lent := ranges })
    fun x h => ?_).andThen fun x y hxy => ?_
  · -- fixed cells: the parts agree as the stores do
    rcases Store.split_agree hbc.fixed h with ⟨parts, rest, h', hparts, hrest⟩
    rcases Store.split_eq_ok_iff.1 h with ⟨-, -, hleft, hright⟩
    exact ⟨(parts, rest), h', ⟨hparts, hrest⟩, hleft, hright⟩
  rcases x with ⟨parts, rest⟩
  rcases y with ⟨parts', rest'⟩
  rcases hxy with ⟨⟨hparts, hrest⟩, rfl, rfl⟩
  refine (Refines.set (T := fun _ _ => True) trivial).andThen fun _ _ _ => ?_
  rw [← hbc.selectors]
  -- selectors: the two boards have the same ones
  refine (Refines.ofExcept (R := fun x y => x = y ∧ x.1 = ranges.map b.selectors.part ∧
    x.2 = { b.selectors with lent := ranges }) fun x h => ?_).andThen fun x _ hxy => ?_
  · rcases Store.split_eq_ok_iff.1 h with ⟨-, -, hleft, hright⟩
    exact ⟨x, h, rfl, hleft, hright⟩
  rcases x with ⟨selectors, selectorRest⟩
  rcases hxy with ⟨rfl, rfl, rfl⟩
  refine (Refines.set (T := Agrees ranges) ?_).andThen fun _ _ _ => Refines.pure ?_
  · exact { hbc with
      fixed := hrest
      selectors := rfl
      lent_fixed := rfl
      lent_selectors := rfl }
  · exact agrees_forks hbc hparts

/-- The copies of forks that agree are replayed alike. -/
theorem matches_replay {lent' : List RowSpan} {f : Board Content} {g : Board Fraction}
    (hfg : Agrees lent' f g) :
    Matches lent (fun _ _ => True) (replay f) (replay g) := by
  unfold replay
  rw [hfg.pending]
  have heach := Refines.each_same (F := Anywhere) (S := Agrees lent) (R := fun _ _ => True)
    g.pending.toList (fun _ => Run.Keeps.not_anywhere) fun x => matches_connect x.1 x.2
  exact heach.andThen fun _ _ _ => Refines.pure trivial

theorem matches_reportMerge (index : Nat) (f : Board Content) (g : Board Fraction) :
    Matches lent (fun _ _ => True) (reportMerge index f) (reportMerge index g) :=
  Refines.get.andThen fun _ _ _ => Refines.emit _ _

/-- The cells of forks that agree are taken back alike; nothing is lent out afterwards. -/
theorem matches_rejoin {fs : List (Board Content)} {gs : List (Board Fraction)}
    (hfgs : List.Forall₂ (Agrees []) fs gs) :
    Refines Anywhere (Agrees lent) (Agrees []) (fun _ _ => True) (rejoin fs) (rejoin gs) := by
  have hfixed : List.Forall₂ (fun p q => p.map Content.queried = q.map Fraction.evaluate)
      (fs.map (·.fixed)) (gs.map (·.fixed)) :=
    List.forall₂_map_left_iff.2 (List.forall₂_map_right_iff.2 (hfgs.imp fun _ _ h => h.fixed))
  have hselectors : fs.map (·.selectors) = gs.map (·.selectors) := by
    clear hfixed
    induction hfgs with
    | nil => rfl
    | cons h _ ih => rw [List.map_cons, List.map_cons, h.selectors, ih]
  refine Refines.get.andThen fun b c hbc => ?_
  refine (Refines.ofExcept (R := fun x y => x.map Content.queried = y.map Fraction.evaluate ∧
    x.window = b.fixed.window ∧ x.lent = []) fun fixed h => ?_).andThen fun fixed fixed' h => ?_
  · -- absorbing parts moves no window
    rcases Store.rejoin_agree hbc.fixed hfixed h with ⟨fixed', h', hagree⟩
    rcases Store.rejoin_eq_ok_iff.1 h with ⟨-, -, rfl⟩
    exact ⟨fixed', h', hagree, Store.window_foldl_absorb .., rfl⟩
  rcases h with ⟨hagree, hwindow, hlent⟩
  refine (Refines.set (T := fun _ _ => True) trivial).andThen fun _ _ _ => ?_
  -- the selectors are the same stores on both sides
  rw [hselectors, ← hbc.selectors]
  refine (Refines.ofExcept (R := fun x y => x = y ∧ x.lent = []) fun x h => ?_).andThen
    fun x _ hxy => ?_
  · rcases Store.rejoin_eq_ok_iff.1 h with ⟨-, -, rfl⟩
    exact ⟨_, h, rfl, rfl⟩
  rcases hxy with ⟨rfl, hlent'⟩
  exact Refines.set { hbc with
    fixed := hagree
    selectors := rfl
    confined := fun row husable hrow => hbc.confined row husable (hwindow ▸ hrow)
    lent_fixed := hlent
    lent_selectors := hlent' }

end CircuitLayout.Board
