import CircuitLayout.Proofs.Board.Growth
import CircuitLayout.Proofs.Circuit.Specs
import CircuitLayout.Proofs.Simulation.Batch

namespace CircuitLayout

/-! # Provers and key builders on more rows

What a planner asks of a prover or of a key builder, it may ask of one on more rows. Main
statements: `KeyBuilder.growth` and `Prover.growth`, by which every success is matched, with equal
answers, on all grids that are at least as high.
-/

open Run (Anywhere Refines)
open Tolerance (Passes)

variable {α : Type} {atRoot : Bool} {usable : RowSpan} {lent : List RowSpan}

/-! ## Key builders -/

namespace KeyBuilder

/-- Does the board of a key builder grow to that of another one? -/
def GrowsTo (atRoot : Bool) (usable : RowSpan) (lent : List RowSpan) (k l : KeyBuilder) : Prop :=
  Board.GrowsTo atRoot usable lent k.board l.board

/-- What boards match when they grow, key builders do. -/
theorem scales_onBoard {lent' : List RowSpan} {R : α → α → Prop} {m n : Run (Board Fraction) α}
    (h : Refines Anywhere (Board.GrowsTo atRoot usable lent) (Board.GrowsTo atRoot usable lent') R
      m n) :
    Refines Anywhere (GrowsTo atRoot usable lent) (GrowsTo atRoot usable lent') R (onBoard m)
      (onBoard n) :=
  h.zoom (fun _ _ => rfl) fun _ _ => rfl

/-- The calls on regions, on a root or on a fork. -/
theorem regionGrowth (atRoot : Bool) (usable : RowSpan) :
    RegionSimulation Tolerance.exact Anywhere
      (fun _ => GrowsTo atRoot usable [] : Bool → KeyBuilder → KeyBuilder → Prop) where
  keeps := .not_anywhere
  enterRegion _ := Refines.pure trivial
  exitRegion := Refines.pure trivial
  nameColumn _ _ := Refines.pure trivial
  enableSelector _ selector row := scales_onBoard (Board.scales_enableSelector selector row)
  queryAdvice _ _ := Refines.pure (.refl _)
  queryFixed column row := by
    intro k l x k' h hends _
    obtain ⟨⟨husable, hwindow⟩, value, hget, rfl, rfl⟩ := (ends_queryFixed column row x).1 hends
    -- a row that is usable on the small grid is usable on the large one
    have hrow : row ∈ usable := h.usable_eq ▸ husable
    exact ⟨_, l, (ends_queryFixed column row _).2 ⟨⟨h.mem_usable husable, h.window.mem hwindow⟩,
      value, h.fixed.get h.lent_fixed hrow hget, rfl, rfl⟩, .refl _, h⟩
  queryInput column row := by
    intro k l x k' h hends _
    obtain ⟨husable, rfl, rfl⟩ := (ends_queryInput row x).1 hends
    exact ⟨none, l, (ends_queryInput row none).2 ⟨h.mem_usable husable, rfl, rfl⟩, .refl _, h⟩
  assignAdvice _ _ _ _ _ _ := Refines.pure (.refl _)
  assignFixed _ _ _ hlabel column row value := by
    obtain rfl := hlabel.eq
    exact (scales_onBoard (Board.scales_assignFixed id _ column row value)).map
      fun _ _ h => congrArg some h
  copy _ left right := scales_onBoard (Board.scales_copy left right)

/-- Key builders are split over the same ranges into key builders of which one grows to the
other. -/
theorem scales_fork (ranges : List RowSpan) :
    Refines Anywhere (GrowsTo atRoot usable []) (GrowsTo atRoot usable ranges)
      (List.Forall₂ (GrowsTo false usable [])) (fork ranges) (fork ranges) := by
  refine (scales_onBoard (Board.scales_grant ranges)).andThen fun _ _ _ => ?_
  refine (scales_onBoard (Board.scales_carve ranges)).andThen fun boards boards' hboards => ?_
  exact Refines.pure (List.forall₂_map_left_iff.2 (List.forall₂_map_right_iff.2 hboards))

/-- The copies of a fork are taken on the larger grid as well. -/
theorem scales_mergeOne (index : Nat) {f g : KeyBuilder} (hfg : GrowsTo false usable [] f g) :
    Refines Anywhere (GrowsTo atRoot usable lent) (GrowsTo atRoot usable lent)
      (GrowsTo false usable []) (mergeOne index (.fork f)) (mergeOne index (.fork g)) := by
  refine (scales_onBoard (Board.scales_replay hfg)).andThen fun _ _ _ => ?_
  refine (scales_onBoard (Board.scales_reportMerge index f.board g.board)).andThen fun _ _ _ => ?_
  exact Refines.pure hfg

/-- What is merged on a grid is merged on a larger one. -/
theorem scales_merge {fs gs : List KeyBuilder} (hfgs : List.Forall₂ (GrowsTo false usable []) fs gs) :
    Refines Anywhere (GrowsTo atRoot usable lent) (GrowsTo atRoot usable []) (fun _ _ => True)
      (merge (fs.map .fork)) (merge (gs.map .fork)) := by
  refine (scales_onBoard (Board.scales_requireSynthesizing _)).andThen fun _ _ _ => ?_
  refine (Refines.each_fork hfgs fun i f g hfg => scales_mergeOne i hfg).andThen
    fun forks forks' hforks => ?_
  exact scales_onBoard (Board.scales_rejoin
    (List.forall₂_map_left_iff.2 (List.forall₂_map_right_iff.2 hforks)))

/-- All that a planner asks of a root is matched by a root on more rows. -/
theorem growth (usable : RowSpan) :
    LayoutSimulation Tolerance.exact Eq
      (fun _ => GrowsTo true usable [] : Bool → KeyBuilder → KeyBuilder → Prop) where
  toRegionSimulation := regionGrowth true usable
  settings _ _ h := .inr h
  start := scales_onBoard (Board.scales_advance _)
  close := scales_onBoard (Board.scales_advance _)
  fillFrom column row value := scales_onBoard (Board.scales_fillFrom id column row value)
  challenge _ := Refines.pure (.refl _)
  pushScope _ := Refines.pure trivial
  popScope _ := Refines.pure trivial
  batch d e hde n n' hn starts first ranges rs rs' _ hrs := by
    obtain rfl := hn.eq
    -- a key builder can always be forked, so the settings decide
    have hmode : (e.kept.settings.parallel && Assignment.canFork e.target) =
        (d.kept.settings.parallel && Assignment.canFork d.target) := by
      rw [← hde.2.settings]
      rfl
    rw [hmode]
    refine (Planner.refines_writeBatch (regionGrowth true usable) (regionGrowth false usable)
      (scales_fork ranges) (fun fs gs hfgs => scales_merge hfgs) (fun _ => .refl _) hrs _ starts
      first).start ?_
    rintro _ _ ⟨rfl, rfl⟩
    exact hde

end KeyBuilder

/-! ## Provers -/

namespace Prover

/-- Does a prover grow to another one? Its advice cells and public inputs are the same on the usable
rows, the challenges and the open region are the same altogether. -/
structure GrowsTo (atRoot : Bool) (usable : RowSpan) (lent : List RowSpan) (p q : Prover) :
    Prop where
  board : Board.GrowsTo atRoot usable lent p.board q.board
  advice : p.advice.GrowsTo (· ∈ usable) q.advice
  lent_advice : p.advice.lent = lent
  bounded : atRoot = false → q.advice.window = p.advice.window
  inputs : ∀ (column : Nat) (cells : Array Content), p.inputs[column]? = some cells →
    ∃ cells' : Array Content, q.inputs[column]? = some cells' ∧
      ∀ row, row ∈ usable → cells'.getD row .blank = cells.getD row .blank
  challenges : q.challenges = p.challenges
  current : q.current = p.current

/-- Whenever a run succeeds on a prover, it succeeds on the provers that this one grows to. -/
abbrev Scales {β : Type} (atRoot : Bool) (usable : RowSpan) (lent : List RowSpan) (R : α → β → Prop)
    (m : Run Prover α) (n : Run Prover β) : Prop :=
  Refines Anywhere (GrowsTo atRoot usable lent) (GrowsTo atRoot usable lent) R m n

/-- What boards match when they grow, provers do. -/
theorem scales_onBoard {R : α → α → Prop} {m n : Run (Board Content) α}
    (h : Board.Scales atRoot usable lent R m n) : Scales atRoot usable lent R (onBoard m) (onBoard n) :=
  h.zoom_of (fun _ _ => rfl) GrowsTo.board fun hpq hboard => { hpq with board := hboard }

/-- The same is recorded on both grids. -/
theorem scales_record (change : RegionRecord → RegionRecord) :
    Scales atRoot usable lent (fun _ _ => True) (record change) (record change) := by
  refine Refines.modify fun p q hpq => ?_
  exact { hpq with current := by rw [hpq.current] }

theorem scales_enterRegion (name : String) :
    Scales atRoot usable lent (fun _ _ => True) (enterRegion name) (enterRegion name) := by
  intro p q _ p' hpq hends _
  obtain ⟨hnone, rfl⟩ := (ends_enterRegion name ()).1 hends
  exact ⟨(), _, (ends_enterRegion name ()).2 ⟨hpq.current.trans hnone, rfl⟩, trivial,
    { hpq with current := rfl }⟩

theorem scales_exitRegion :
    Scales atRoot usable lent (fun _ _ => True) exitRegion exitRegion := by
  intro p q _ p' hpq hends _
  obtain ⟨region, hregion, rfl⟩ := (ends_exitRegion ()).1 hends
  exact ⟨(), _, (ends_exitRegion ()).2 ⟨region, hpq.current.trans hregion, rfl⟩, trivial,
    { hpq with current := rfl }⟩

/-- An advice cell that is assigned on a grid is assigned on a larger one. -/
theorem scales_assignAdvice (label : String) (column row : Nat) (value : Producer) :
    Scales atRoot usable lent Eq (assignAdvice label column row value)
      (assignAdvice label column row value) := by
  intro p q v p' hpq hends _
  obtain ⟨⟨hrow, hvalue⟩, advice, hset, rfl⟩ := (ends_assignAdvice label column row value v).1 hends
  obtain ⟨advice', hset', hgrows, hwindow'⟩ := hpq.advice.set hset
  -- neither grid gets another window by this
  have hwindow := (hpq.advice.shape.set hset).window_eq
  refine ⟨v, _, (ends_assignAdvice label column row value v).2
    ⟨⟨hpq.board.writable hrow, hvalue⟩, advice', hset', rfl⟩, rfl, ?_⟩
  exact { hpq with
    advice := hgrows
    lent_advice := (Store.lent_of_set hset).trans hpq.lent_advice
    bounded := fun hfork => by
      rw [hwindow, hwindow']
      exact hpq.bounded hfork
    current := by rw [hpq.current] }

theorem scales_assignFixed (label : String) (column row : Nat) (value : Producer) :
    Scales atRoot usable lent Eq (assignFixed label column row value)
      (assignFixed label column row value) := by
  refine (scales_onBoard (Board.scales_assignFixed Content.keep label column row value)).andThen
    fun v _ hv => ?_
  exact (scales_record _).andThen fun _ _ _ => Refines.pure hv

/-- The calls on regions, on a root or on a fork. -/
theorem regionGrowth (atRoot : Bool) (usable : RowSpan) :
    RegionSimulation Tolerance.exact Anywhere
      (fun _ => GrowsTo atRoot usable [] : Bool → Prover → Prover → Prop) where
  keeps := .not_anywhere
  enterRegion hname := by
    obtain rfl := hname.eq
    exact scales_enterRegion _
  exitRegion := scales_exitRegion
  nameColumn hlabel column := by
    obtain rfl := hlabel.eq
    exact scales_record _
  enableSelector _ selector row :=
    (scales_onBoard (Board.scales_enableSelector selector row)).andThen fun _ _ _ => scales_record _
  queryAdvice column row := by
    refine (refines_lookUp (·.advice) (ends_queryAdvice column row) ?_).mono (fun _ _ h => h ▸ .refl _)
      fun _ _ hpq => hpq
    -- the advice cell read is on a usable row, where both provers hold the same
    intro p q content hpq hrow hget
    exact ⟨hpq.board.mem_usable hrow,
      hpq.advice.get hpq.lent_advice (hpq.board.usable_eq ▸ hrow) hget⟩
  queryFixed column row := by
    refine (refines_lookUp (·.board.fixed) (ends_queryFixed column row) ?_).mono
      (fun _ _ h => h ▸ .refl _) fun _ _ hpq => hpq
    intro p q content hpq hrow hget
    exact ⟨hpq.board.mem_usable hrow,
      hpq.board.fixed.get hpq.board.lent_fixed (hpq.board.usable_eq ▸ hrow) hget⟩
  queryInput column row := by
    intro p q x p' hpq hends _
    obtain ⟨hrow, cells, hcells, rfl, rfl⟩ := (ends_queryInput column row x).1 hends
    obtain ⟨cells', hcells', hsame⟩ := hpq.inputs column cells hcells
    refine ⟨_, q, (ends_queryInput column row _).2
      ⟨hpq.board.mem_usable hrow, cells', hcells', rfl, rfl⟩, .inr ?_, hpq⟩
    -- on a usable row both columns of public inputs hold the same
    rw [hsame row (hpq.board.usable_eq ▸ hrow)]
  assignAdvice hlabel column row _ _ hvalue := by
    obtain rfl := hlabel.eq
    obtain rfl := hvalue.eq
    exact (scales_assignAdvice _ column row _).map fun _ _ h => .inr (congrArg some h)
  assignFixed _ _ _ hlabel column row value := by
    obtain rfl := hlabel.eq
    exact (scales_assignFixed _ column row value).map fun _ _ h => congrArg some h
  copy _ left right := scales_onBoard (Board.scales_copy left right)

/-- Provers are split over the same ranges into provers of which one grows to the other. -/
theorem scales_fork (ranges : List RowSpan) :
    Refines Anywhere (GrowsTo atRoot usable []) (GrowsTo atRoot usable ranges)
      (List.Forall₂ (GrowsTo false usable [])) (fork ranges) (fork ranges) := by
  intro p q forks p' hpq hends _
  obtain ⟨b, parts, advice, boards, b', hgrant, hsplit, hcarve, rfl, rfl⟩ :=
    (ends_fork ranges forks).1 hends
  obtain ⟨hlent, hranges, rfl, rfl⟩ := Store.split_eq_ok_iff.1 hsplit
  obtain ⟨_, c, hgrant', -, hbc⟩ := Board.scales_grant ranges _ _ _ _ hpq.board hgrant trivial
  obtain ⟨boards', c', hcarve', hboards, hbc'⟩ := Board.scales_carve ranges _ _ _ _ hbc hcarve trivial
  obtain ⟨hfollow, hordered⟩ := Store.follow_of_checkRanges hranges (Nat.le_refl _)
  -- the ranges that are granted lie in the window, so they lie in the larger one
  have hcovers : ∀ range ∈ ranges, p.advice.window.Covers range :=
    fun range hrange => (hfollow.mem hordered range hrange).1
  -- so the larger store grants them too
  have hsplit' : q.advice.split ranges =
      .ok (ranges.map q.advice.part, { q.advice with lent := ranges }) :=
    Store.split_eq_ok_iff.2 ⟨hpq.advice.lent_eq.trans hlent,
      Store.checkRanges_of_covers hpq.advice.covers hranges, rfl, rfl⟩
  refine ⟨_, _, (ends_fork ranges _).2
    ⟨c, _, _, boards', c', hgrant', hsplit', hcarve', rfl, rfl⟩, ?_, ?_⟩
  · -- part by part
    have hparts : List.Forall₂ (fun s t : Store Content => s.GrowsTo (· ∈ usable) t ∧ s.lent = [] ∧
        t.window = s.window) (ranges.map p.advice.part) (ranges.map q.advice.part) :=
      List.forall₂_map_left_iff.2 (List.forall₂_map_right_iff.2 (List.forall₂_same.2
        fun range hrange => ⟨hpq.advice.part (hcovers range hrange), rfl, rfl⟩))
    refine List.forall₂_map_left_iff.2 (List.forall₂_map_right_iff.2
      ((forall₂_zip hparts hboards).imp ?_))
    rintro ⟨s, f⟩ ⟨t, g⟩ ⟨⟨hst, hnil, hwindow⟩, hfg⟩
    exact { hpq with
      board := hfg
      advice := hst
      lent_advice := hnil
      bounded := fun _ => hwindow
      current := rfl }
  · exact { hpq with
      board := hbc'
      advice := hpq.advice.lend hcovers
      lent_advice := rfl }

/-- A fork is merged on the larger grid as well, with its copies and its records. -/
theorem scales_mergeOne (index : Nat) {f g : Prover} (hfg : GrowsTo false usable [] f g) :
    Scales atRoot usable lent (GrowsTo false usable []) (mergeOne index (.fork f))
      (mergeOne index (.fork g)) := by
  have htake : Scales atRoot usable lent (fun _ _ => True) (takeOver f) (takeOver g) :=
    (scales_onBoard (Board.scales_replay hfg.board)).andThen fun _ _ _ =>
      Refines.modify fun _ _ hpq => { hpq with }
  refine htake.andThen fun _ _ _ => ?_
  refine (scales_onBoard (Board.scales_reportMerge index f.board g.board)).andThen fun _ _ _ => ?_
  exact Refines.pure hfg

/-- What is merged on a grid is merged on a larger one: copies first, then the cells of every
store. -/
theorem scales_merge {fs gs : List Prover} (hfgs : List.Forall₂ (GrowsTo false usable []) fs gs) :
    Refines Anywhere (GrowsTo atRoot usable lent) (GrowsTo atRoot usable []) (fun _ _ => True)
      (merge (fs.map .fork)) (merge (gs.map .fork)) := by
  intro p q _ p' hpq hends _
  obtain ⟨hphase, forks, u, advice, b, heach, hadvice, hboard, rfl⟩ := (ends_merge _ ()).1 hends
  obtain ⟨forks', v, heach', hforks, huv⟩ :=
    Refines.each_fork hfgs (fun i f g hfg => scales_mergeOne i hfg) p q forks u hpq heach trivial
  -- the stores of the forks, and those of the forks that these grow to
  have hboards : List.Forall₂ (Board.GrowsTo false usable []) (forks.map (·.board))
      (forks'.map (·.board)) :=
    List.forall₂_map_left_iff.2 (List.forall₂_map_right_iff.2 (hforks.imp fun _ _ h => h.board))
  have hparts : List.Forall₂ (fun s t : Store Content => s.GrowsTo (· ∈ usable) t ∧
      t.window = s.window) (forks.map (·.advice)) (forks'.map (·.advice)) :=
    List.forall₂_map_left_iff.2 (List.forall₂_map_right_iff.2
      (hforks.imp fun _ _ h => ⟨h.advice, h.bounded rfl⟩))
  obtain ⟨advice', hadvice', hgrows, hwindow'⟩ := huv.advice.rejoin hparts hadvice
  have hwindow := (huv.advice.shape.rejoin hadvice).window_eq
  obtain ⟨_, c, hboard', -, hbc⟩ := Board.scales_rejoin hboards _ _ _ _ huv.board hboard trivial
  -- what the small prover took back, the large one takes back as well
  refine ⟨(), _, (ends_merge _ ()).2 ⟨hpq.board.phase.trans hphase, forks', v, advice', c, heach',
    hadvice', hboard', rfl⟩, trivial, ?_⟩
  obtain ⟨-, -, rfl⟩ := Store.rejoin_eq_ok_iff.1 hadvice
  exact { huv with
    board := hbc
    advice := hgrows
    lent_advice := rfl
    bounded := fun hfork => by
      rw [hwindow, hwindow']
      exact huv.bounded hfork }

/-- All that a planner asks of a root is matched by a root on more rows. -/
theorem growth (usable : RowSpan) :
    LayoutSimulation Tolerance.exact Eq
      (fun _ => GrowsTo true usable [] : Bool → Prover → Prover → Prop) where
  toRegionSimulation := regionGrowth true usable
  settings _ _ h := .inr h
  start := scales_onBoard (Board.scales_advance _)
  close := scales_onBoard (Board.scales_advance _)
  fillFrom column row value := scales_onBoard (Board.scales_fillFrom Content.keep column row value)
  challenge index := by
    intro p q x p' hpq hends _
    -- the challenges were given to both alike
    obtain ⟨⟨value, hvalue, rfl⟩, rfl⟩ := (ends_challenge index x).1 hends
    rw [← hpq.challenges] at hvalue
    exact ⟨_, q, (ends_challenge index _).2 ⟨⟨value, hvalue, rfl⟩, rfl⟩, .refl _, hpq⟩
  pushScope _ := Refines.modify fun _ _ hpq => { hpq with }
  popScope _ := Refines.modify fun _ _ hpq => { hpq with }
  batch d e hde n n' hn starts first ranges rs rs' _ hrs := by
    obtain rfl := hn.eq
    -- a prover can always be forked, so the settings decide
    have hmode : (e.kept.settings.parallel && Assignment.canFork e.target) =
        (d.kept.settings.parallel && Assignment.canFork d.target) := by
      rw [← hde.2.settings]
      rfl
    rw [hmode]
    refine (Planner.refines_writeBatch (regionGrowth true usable) (regionGrowth false usable)
      (scales_fork ranges) (fun fs gs hfgs => scales_merge hfgs) (fun _ => .refl _) hrs _ starts
      first).start ?_
    rintro _ _ ⟨rfl, rfl⟩
    exact hde

end Prover

/-! ## New roots -/

section Unused

variable {k k' : Nat} (schema : Schema)

/-- The board of a new root grows to that of a new root on a higher grid. -/
theorem Board.growsTo_root {φ : Type} (hk : k ≤ k') (party : Party) (blank : φ) :
    Board.GrowsTo true (usableRows k schema) []
      (root party k (Nat.pow 2 k) schema.reservedRows schema.fixedCount schema.selectorCount blank
        schema.equality)
      (root party k' (Nat.pow 2 k') schema.reservedRows schema.fixedCount schema.selectorCount blank
        schema.equality) := by
  have hrows : Nat.pow 2 k ≤ Nat.pow 2 k' := Nat.pow_le_pow_right (by decide) hk
  -- the reserved rows are the last ones of either grid
  have husable : (usableRows k' schema).Covers (usableRows k schema) :=
    ⟨Nat.le_refl _, Nat.sub_le_sub_right hrows _⟩
  have hgrid : (⟨0, Nat.pow 2 k'⟩ : RowSpan).Covers ⟨0, Nat.pow 2 k⟩ := ⟨Nat.le_refl _, hrows⟩
  exact {
    phase := rfl
    usable_eq := rfl
    usable_covers := husable
    window := husable
    unbounded := fun _ => ⟨Nat.le_refl _, Nat.le_refl _⟩
    bounded := fun hfork => absurd hfork.symm Bool.false_ne_true
    fixed := .replicate hgrid blank
    selectors := .replicate hgrid false
    lent_fixed := rfl
    lent_selectors := rfl
    -- the larger permutation is the identity on the new rows too
    permutation := .some (.identity schema.equality hrows)
    pending := rfl }

/-- A new key builder grows to the one on a larger grid. -/
theorem KeyBuilder.growsTo_unused (hk : k ≤ k') :
    (unused k schema).GrowsTo true (Board.usableRows k schema) [] (unused k' schema) :=
  Board.growsTo_root schema hk .keygen Fraction.zero

/-- The usable cells of a new advice column are blank. -/
theorem Prover.cell?_advice_unused (inputs : List (List Goldilocks)) {column row : Nat}
    (hcolumn : column < schema.adviceCount) (hrow : row ∈ Board.usableRows k schema) :
    (unused k schema inputs).advice.cell? column row = some .blank := by
  simp only [unused, Store.cell?, Array.getElem?_replicate, if_pos hcolumn, Option.bind_some]
  exact getElem?_adviceColumn hrow.2

/-- A new prover grows to the one on a larger grid. -/
theorem Prover.growsTo_unused (hk : k ≤ k') (inputs : List (List Goldilocks)) :
    (unused k schema inputs).GrowsTo true (Board.usableRows k schema) []
      (unused k' schema inputs) := by
  have hboard : Board.GrowsTo true (Board.usableRows k schema) [] (unused k schema inputs).board
      (unused k' schema inputs).board := Board.growsTo_root schema hk .prover Content.blank
  -- both advice stores cover their whole grid
  have husable : (Board.usableRows k' schema).Covers (Board.usableRows k schema) :=
    hboard.usable_covers
  have hadvice : (unused k schema inputs).advice.HasShape (Board.grid k) schema.adviceCount :=
    (isRoot_unused inputs).advice
  have hadvice' : (unused k' schema inputs).advice.HasShape (Board.grid k') schema.adviceCount :=
    (isRoot_unused inputs).advice
  have hwidth : (unused k schema inputs).advice.width = schema.adviceCount := hadvice.width_eq
  constructor
  case board => exact hboard
  -- on usable rows the advice columns are blank alike
  case advice =>
    refine ⟨?_, ?_, hboard.fixed.covers, rfl, by simp [unused], fun column row hcolumn hrow _ => ?_⟩
    · rw [hwidth]
      exact hadvice
    · rw [hwidth]
      exact hadvice'
    · rw [hwidth] at hcolumn
      rw [cell?_advice_unused schema inputs hcolumn hrow,
        cell?_advice_unused schema inputs hcolumn (husable.mem hrow)]
  case lent_advice => rfl
  case bounded => exact fun hfork => absurd hfork.symm Bool.false_ne_true
  case inputs =>
    -- a value that was given is on the same row, and all other usable rows hold zero
    intro column cells hcells
    simp only [unused, List.getElem?_toArray, List.getElem?_map] at hcells ⊢
    obtain ⟨values, hvalues, rfl⟩ := Option.map_eq_some_iff.1 hcells
    refine ⟨_, by rw [hvalues]; rfl, fun row hrow => ?_⟩
    have hlow : row < Nat.pow 2 k - schema.reservedRows := hrow.2
    have hhigh : row < Nat.pow 2 k' - schema.reservedRows := (husable.mem hrow).2
    rw [Array.getD_eq_getD_getElem?, Array.getD_eq_getD_getElem?,
      getElem?_inputColumn values hlow, getElem?_inputColumn values hhigh]
  case challenges => rfl
  case current => rfl

end Unused

end CircuitLayout
