import CircuitLayout.Proofs.Board.Mirrors
import CircuitLayout.Proofs.Forks.Families
import CircuitLayout.Proofs.Simulation.Rows

namespace CircuitLayout

/-! # Assignments that are split

Each fork of an assignment mirrors, over its rows, what the assignment would have become without
being split. Forks over ranges that follow each other do so one after another, and a merge leaves
what the last of them mirrors. Main statements: `Splitting`, what a batch on forks needs of this, and
that provers and key builders have it.
-/

open Run (Anywhere Refines)

/-- Forks over ranges, each of which mirrors a change, one change after another. -/
inductive Gathers {σ : Type} (M : RowSpan → σ → σ → σ → Prop) :
    σ → List RowSpan → List σ → σ → Prop
  | nil (s : σ) : Gathers M s [] [] s
  | cons {s t u f : σ} {range : RowSpan} {ranges : List RowSpan} {fs : List σ}
      (hfirst : M range s f t) (hrest : Gathers M t ranges fs u) :
      Gathers M s (range :: ranges) (f :: fs) u

/-- What is mirrored may be looked at in part. -/
theorem Gathers.map {σ τ : Type} {M : RowSpan → σ → σ → σ → Prop} {N : RowSpan → τ → τ → τ → Prop}
    {g : σ → τ} {s u : σ} {ranges : List RowSpan} {fs : List σ}
    (hpart : ∀ range s f t, M range s f t → N range (g s) (g f) (g t))
    (h : Gathers M s ranges fs u) : Gathers N (g s) ranges (fs.map g) (g u) := by
  induction h with
  | nil s => exact .nil _
  | cons hfirst _ ih => exact .cons (hpart _ _ _ _ hfirst) ih

/-- What a batch on forks needs of assignments and their forks. -/
structure Splitting (σ : Type) [Assignment σ] where
  /-- Is an assignment synthesizing, with nothing lent? -/
  Rested : σ → Prop
  /-- The rows that may be written. -/
  window : σ → RowSpan
  /-- Does a fork over a range mirror what an assignment has become? A region may be open. -/
  Mirrors : Bool → RowSpan → σ → σ → σ → Prop
  /-- The fork over a range that nothing was written to. -/
  sliver : σ → RowSpan → σ
  reports : Reports σ
  canFork : ∀ s : σ, Assignment.canFork s = true
  simulation : ∀ (range : RowSpan) (s : σ),
    RowSimulation range fun opened t f => Mirrors opened range s f t
  mirrors_sliver : ∀ {s range}, Rested s → (window s).Covers range →
    Mirrors false range s (sliver s range) s
  rested : ∀ {s range f t}, Rested s → Mirrors false range s f t → Rested t
  window_eq : ∀ {s range f t}, Mirrors false range s f t → window t = window s
  /-- Rows behind a fork are forked as if there were no such fork. -/
  sliver_eq : ∀ {s range f t later}, Rested s → Mirrors false range s f t →
    (window s).Covers later → range.stop ≤ later.start → sliver t later = sliver s later
  /-- Forks are granted, and merged after the batch. -/
  split : ∀ {s ranges}, Rested s →
    Store.checkRanges (window s) (window s).start ranges = .ok () →
      ∃ lent, (Assignment.fork ranges).Ends s (ranges.map (sliver s)) lent ∧
        ∀ fs t, Gathers (Mirrors false) s ranges fs t →
          (Assignment.merge (fs.map .fork)).Ends lent () t
  granted : ∀ {s ranges forks lent}, (Assignment.fork ranges).Ends s forks lent →
    Store.checkRanges (window s) (window s).start ranges = .ok ()

/-! ## Stores -/

namespace Store

variable {α : Type} {s : Store α} {ranges : List RowSpan} {parts : List (Store α)}

/-- Parts over the rows that are lent are taken back. -/
theorem rejoin_lent (hlent : s.lent = [])
    (h : List.Forall₂ (fun (r : RowSpan) (p : Store α) => p.window = r ∧ p.width = s.width) ranges
      parts) : ({ s with lent := ranges } : Store α).rejoin parts = .ok (parts.foldl absorb s) := by
  have hlength : parts.length = ranges.length := h.length_eq.symm
  have hchecked : checkParts s.width ranges parts = .ok () := (checkParts_eq_ok_iff hlength).2 h
  have hok : ({ s with lent := ranges } : Store α).rejoin parts =
      .ok { parts.foldl absorb { s with lent := ranges } with lent := [] } :=
    rejoin_eq_ok_iff.2 ⟨hlength, hchecked, rfl⟩
  rw [hok, ← eq_foldl_of_rejoin hlent hok]

end Store

/-! ## Boards -/

namespace Board

variable {φ : Type} {schema : Schema} {rows range : RowSpan} {b c f : Board φ}
  {ranges : List RowSpan} {fs : List (Board φ)}

/-- Is a board synthesizing, with nothing lent? -/
structure Rested (schema : Schema) (rows : RowSpan) (b : Board φ) : Prop
    extends Even schema rows b where
  lent : b.fixed.lent = []
  synthesizing : b.phase = .synthesizing

namespace Rested

/-- A rested board lends no selectors. -/
theorem lent_selectors (h : b.Rested schema rows) : b.selectors.lent = [] := h.lent_eq.trans h.lent

/-- A fork that nothing was written to mirrors the board as it is. -/
theorem mirrors_forkOver (h : b.Rested schema rows) (hrange : b.window.Covers range) :
    b.Mirrors range (b.forkOver range) b where
  phase := h.synthesizing.symm
  usable := rfl
  window := rfl
  unrooted := rfl
  fixed := Store.isPart_part h.fixed h.lent (h.covers.trans hrange)
  selectors := Store.isPart_part h.selectors h.lent_selectors (h.covers.trans hrange)
  whole := by
    have hfixed := Store.absorb_part h.fixed (h.covers.trans hrange)
    have hselectors := Store.absorb_part h.selectors (h.covers.trans hrange)
    refine ⟨b, takes_nil.2 rfl, ?_⟩
    simp only [forkOver, hfixed, hselectors]

/-- A board that mirrors its fork is rested. -/
theorem of_mirrors (h : b.Rested schema rows) (hmirrors : b.Mirrors range f c) :
    c.Rested schema rows := by
  have hfixed := h.fixed.absorb (hmirrors.fixed.part.width_eq.trans h.fixed.width_eq)
  have hselectors :=
    h.selectors.absorb (hmirrors.selectors.part.width_eq.trans h.selectors.width_eq)
  rw [hmirrors.eq]
  exact { h with
    fixed := hfixed
    selectors := hselectors }

/-- Rows behind a fork are forked as if there were no such fork. -/
theorem forkOver_eq (h : b.Rested schema rows) (hmirrors : b.Mirrors range f c) {later : RowSpan}
    (hlater : b.window.Covers later) (hbehind : range.stop ≤ later.start) :
    c.forkOver later = b.forkOver later := by
  have hcovers := h.covers.trans hlater
  have hfixed := Store.part_absorb hmirrors.fixed (h.fixed.window_eq ▸ hcovers) hbehind
  have hselectors := Store.part_absorb hmirrors.selectors (h.selectors.window_eq ▸ hcovers) hbehind
  rw [hmirrors.eq]
  simp only [forkOver, hfixed, hselectors]

/-- A rested board grants ranges that follow in its window. -/
theorem ends_grant (h : b.Rested schema rows)
    (hranges : Store.checkRanges b.window b.window.start ranges = .ok ()) :
    (grant ranges).Ends b () b := (Board.ends_grant ranges ()).2 ⟨h.synthesizing, hranges, rfl⟩

/-- Ranges that are granted are carved out of the stores. -/
theorem checkRanges_rows (h : b.Rested schema rows)
    (hranges : Store.checkRanges b.window b.window.start ranges = .ok ()) :
    Store.checkRanges rows rows.start ranges = .ok () := by
  obtain ⟨hfollow, hordered⟩ := Store.follow_of_checkRanges hranges (Nat.le_refl _)
  exact Store.checkRanges_of_follow (hfollow.within h.covers h.covers.1) hordered

end Rested

/-! ### Merges -/

/-- Forks that mirror one change after another, taken together: the board takes their copies, and
their cells. -/
theorem of_gathers (h : Gathers Mirrors b ranges fs c) :
    ∃ d, b.Takes (kept fs) d ∧ c = { d with
      fixed := (fs.map (·.fixed)).foldl Store.absorb b.fixed
      selectors := (fs.map (·.selectors)).foldl Store.absorb b.selectors } := by
  induction h with
  | nil b => exact ⟨b, takes_nil.2 rfl, rfl⟩
  | @cons b q c f range ranges fs hfirst _ ih =>
    obtain ⟨e, hcopies, hq⟩ := hfirst.whole
    obtain ⟨d, hmore, rfl⟩ := ih
    -- the copies of the later forks do not ask what the cells are
    have hrest := hmore.restock e.fixed e.selectors
    rw [hq] at hrest
    refine ⟨_, hcopies.append hrest, ?_⟩
    simp only [hfirst.fixed_eq, hfirst.selectors_eq, List.map_cons, List.foldl_cons]

/-- The stores of such forks lie over the ranges, and are as wide as those of the board. -/
theorem windows_of_gathers (h : Gathers Mirrors b ranges fs c) :
    List.Forall₂ (fun (r : RowSpan) (p : Store φ) => p.window = r ∧ p.width = b.fixed.width) ranges
        (fs.map (·.fixed)) ∧
      List.Forall₂ (fun (r : RowSpan) (p : Store Bool) => p.window = r ∧ p.width = b.selectors.width)
        ranges (fs.map (·.selectors)) := by
  induction h with
  | nil b => exact ⟨.nil, .nil⟩
  | @cons b q c f range ranges fs hfirst _ ih =>
    have hfixed := (hfirst.fixed.whole.absorb hfirst.fixed.part.width_eq).width_eq
    have hselectors := (hfirst.selectors.whole.absorb hfirst.selectors.part.width_eq).width_eq
    rw [hfirst.fixed_eq, hfirst.selectors_eq, hfixed, hselectors] at ih
    exact ⟨.cons ⟨hfirst.fixed.part.window_eq, hfirst.fixed.part.width_eq⟩ ih.1,
      .cons ⟨hfirst.selectors.part.window_eq, hfirst.selectors.part.width_eq⟩ ih.2⟩

/-- When the copies of such forks are replayed and their cells are taken back, what is left is what
the last of them mirrors. -/
theorem Rested.ends_gathered (h : b.Rested schema rows) (hgathers : Gathers Mirrors b ranges fs c) :
    ∃ d, (∃ results, (Run.each replay fs).Ends (b.lend ranges) results d) ∧
      (rejoin fs).Ends d () c := by
  obtain ⟨d, htakes, rfl⟩ := of_gathers hgathers
  obtain ⟨hfixed, hselectors⟩ := windows_of_gathers hgathers
  refine ⟨_, ends_replays_iff.2 (htakes.restock { b.fixed with lent := ranges }
    { b.selectors with lent := ranges }), (ends_rejoin fs ()).2 ?_⟩
  exact ⟨_, _, Store.rejoin_lent h.lent hfixed, Store.rejoin_lent h.lent_selectors hselectors, rfl⟩

end Board

/-! ## Key builders -/

namespace KeyBuilder

variable {α : Type} {schema : Schema} {rows range : RowSpan} {base k l f : KeyBuilder}
  {ranges : List RowSpan} {fs : List KeyBuilder}

/-- Is a key builder synthesizing, with nothing lent? -/
def Rested (schema : Schema) (rows : RowSpan) (k : KeyBuilder) : Prop := k.board.Rested schema rows

/-- Does a fork over a range mirror what a key builder has become? -/
def Mirrors (range : RowSpan) (base f k : KeyBuilder) : Prop :=
  base.board.Mirrors range f.board k.board

/-- What is mirrored on boards is so on key builders. -/
theorem mirrored_onBoard {m : Run (Board Fraction) α} (h : Board.Mirrored range base.board m) :
    Refines Anywhere (fun k f => Mirrors range base f k) (fun k f => Mirrors range base f k) Eq
      (onBoard m) (onBoard m) := h.zoom (fun _ _ => rfl) fun _ _ => rfl

/-- A fixed cell of a row of the range may be read on the fork instead. -/
theorem mirrored_queryFixed (column : Nat) {row : Nat} (hrow : row ∈ range) :
    Refines Anywhere (fun k f => Mirrors range base f k) (fun k f => Mirrors range base f k) Eq
      (queryFixed column row) (queryFixed column row) := by
  intro k f x k' hmirrors hends _
  obtain ⟨⟨husable, -⟩, value, hget, rfl, rfl⟩ := (ends_queryFixed column row x).1 hends
  rw [hmirrors.usable_eq] at husable
  rw [hmirrors.fixed_eq] at hget
  have hwindow : row ∈ f.board.window := by
    rw [hmirrors.window]
    exact hrow
  exact ⟨_, f, (ends_queryFixed column row _).2
    ⟨⟨husable, hwindow⟩, value, hmirrors.fixed.of_get hrow hget, rfl, rfl⟩, rfl, hmirrors⟩

/-- The row of an input is checked alike on the fork. -/
theorem mirrored_queryInput (row : Nat) :
    Refines Anywhere (fun k f => Mirrors range base f k) (fun k f => Mirrors range base f k) Eq
      (queryInput row) (queryInput row) := by
  intro k f x k' hmirrors hends _
  obtain ⟨husable, rfl, rfl⟩ := (ends_queryInput row x).1 hends
  rw [hmirrors.usable_eq] at husable
  exact ⟨_, f, (ends_queryInput row _).2 ⟨husable, rfl, rfl⟩, rfl, hmirrors⟩

/-- A region that keeps to its rows cannot tell a key builder from a fork of it. -/
theorem rowSimulation (range : RowSpan) (base : KeyBuilder) :
    RowSimulation range fun _ k f => Mirrors range base f k where
  enterRegion _ := Refines.pure trivial
  exitRegion := Refines.pure trivial
  nameColumn _ _ := Refines.pure rfl
  enableSelector _ selector _ hrow := mirrored_onBoard (Board.mirrored_enableSelector selector hrow)
  queryAdvice _ _ _ := Refines.pure rfl
  queryFixed column _ hrow := mirrored_queryFixed column hrow
  queryInput _ row := mirrored_queryInput row
  assignAdvice _ _ _ _ _ := Refines.pure rfl
  assignFixed label column _ value hrow :=
    (mirrored_onBoard (Board.mirrored_assignFixed id label column value hrow)).map
      fun _ _ h => congrArg some h
  copy left right := mirrored_onBoard (Board.mirrored_copy left right)

/-- Key builders are forked and merged. -/
theorem Rested.split (h : k.Rested schema rows)
    (hranges : Store.checkRanges k.board.window k.board.window.start ranges = .ok ()) :
    ∃ lent, (fork ranges).Ends k (ranges.map k.sliver) lent ∧
      ∀ fs l, Gathers Mirrors k ranges fs l → (merge (fs.map .fork)).Ends lent () l := by
  have hcarve := h.toEven.ends_carve h.lent (h.checkRanges_rows hranges)
  refine ⟨⟨k.board.lend ranges⟩, (ends_fork ranges _).2 ⟨_, _, h.ends_grant hranges, hcarve, ?_⟩, ?_⟩
  · rw [List.map_map]
    rfl
  · intro fs l hgathers
    have hboards : Gathers Board.Mirrors k.board ranges (fs.map (·.board)) l.board :=
      hgathers.map (g := KeyBuilder.board) fun _ _ _ _ hmirrors => hmirrors
    obtain ⟨d, ⟨results, hreplays⟩, hrejoin⟩ := Board.Rested.ends_gathered h hboards
    exact (ends_merge _ ()).2
      ⟨h.synthesizing, fs, ⟨d⟩, ends_mergeOnes.2 ⟨rfl, results, hreplays⟩, hrejoin⟩

/-- Batches may be written on forks of key builders. -/
def splitting (schema : Schema) (rows : RowSpan) : Splitting KeyBuilder where
  Rested := Rested schema rows
  window k := k.board.window
  Mirrors _ := Mirrors
  sliver := sliver
  reports := reports
  canFork _ := rfl
  simulation := rowSimulation
  mirrors_sliver h hrange := Board.Rested.mirrors_forkOver h hrange
  rested h hmirrors := Board.Rested.of_mirrors h hmirrors
  window_eq hmirrors := Board.Mirrors.window_eq hmirrors
  sliver_eq h hmirrors hlater hbehind :=
    congrArg KeyBuilder.mk (Board.Rested.forkOver_eq h hmirrors hlater hbehind)
  split h hranges := h.split hranges
  granted hends := (Even.of_ends_fork hends).1

end KeyBuilder

/-! ## Provers -/

namespace Prover

variable {α : Type} {schema : Schema} {rows range : RowSpan} {opened : Bool} {base p q f : Prover}
  {ranges : List RowSpan} {fs : List Prover}

/-- Is a prover synthesizing, with nothing lent? -/
structure Rested (schema : Schema) (rows : RowSpan) (p : Prover) : Prop extends Even schema rows p where
  lent : p.board.fixed.lent = []
  synthesizing : p.board.phase = .synthesizing

/-- Does a fork over a range mirror what a prover has become? A region may be open on it. -/
structure Mirrors (opened : Bool) (range : RowSpan) (base f q : Prover) : Prop where
  board : base.board.Mirrors range f.board q.board
  advice : base.advice.IsPart range f.advice
  inputs_eq : f.inputs = base.inputs
  opened_eq : f.current.isSome = opened
  closed : opened = true → base.current = none
  whole : q = { base with
    board := q.board
    advice := base.advice.absorb f.advice
    records := base.records ++ f.records
    current := f.current.or base.current }

namespace Mirrors

/-- The advice cells are those of the prover with those of the fork on its rows. -/
theorem advice_eq (h : Mirrors opened range base f q) : q.advice = base.advice.absorb f.advice := by
  rw [h.whole]

/-- The inputs are those of the fork. -/
theorem inputs_eq' (h : Mirrors opened range base f q) : q.inputs = f.inputs := by
  rw [h.whole, h.inputs_eq]

/-- A fork and what it mirrors may be given other boards that mirror each other. -/
theorem putBoard (h : Mirrors opened range base f q) {b c : Board Content}
    (hboard : base.board.Mirrors range b c) :
    Mirrors opened range base { f with board := b } { q with board := c } :=
  { h with
    board := hboard
    whole := congrArg (fun p : Prover => { p with board := c }) h.whole }

/-- The region that is open on the fork is the one that would be open. -/
theorem current_eq (h : Mirrors true range base f q) : q.current = f.current := by
  rw [h.whole, h.closed rfl, Option.or_none]

end Mirrors

/-- A run on what a fork mirrors, matched by the same run on the fork. -/
abbrev Mirrored (range : RowSpan) (base : Prover) (m : Run Prover α) : Prop :=
  Refines Anywhere (fun q f => Mirrors true range base f q) (fun q f => Mirrors true range base f q) Eq
    m m

/-- What is mirrored on boards is so on provers. -/
theorem mirrored_onBoard {m : Run (Board Content) α} (h : Board.Mirrored range base.board m) :
    Mirrored range base (onBoard m) :=
  h.zoom_of (fun _ _ => rfl) Mirrors.board fun hmirrors hboard => hmirrors.putBoard hboard

/-- A note may be made in the record of the fork instead. -/
theorem mirrored_record (change : RegionRecord → RegionRecord) :
    Mirrored range base (record change) := by
  intro q f a q' hmirrors hends _
  obtain rfl := (ends_record change a).1 hends
  have hwhole := congrArg (fun p : Prover => { p with current := f.current.map change })
    hmirrors.whole
  refine ⟨(), _, (ends_record change ()).2 rfl, rfl, { hmirrors with opened_eq := ?_, whole := ?_ }⟩
  · rw [Option.isSome_map]
    exact hmirrors.opened_eq
  · rw [hmirrors.closed rfl, Option.or_none, hmirrors.current_eq]
    exact hwhole

/-- A region may be opened on the fork instead. -/
theorem mirrored_enterRegion (name : String) :
    Refines Anywhere (fun q f => Mirrors false range base f q)
      (fun q f => Mirrors true range base f q) (fun _ _ => True) (enterRegion name)
      (enterRegion name) := by
  intro q f a q' hmirrors hends _
  obtain ⟨hnone, rfl⟩ := (ends_enterRegion name a).1 hends
  have hcurrent : f.current.or base.current = none := by
    rw [hmirrors.whole] at hnone
    exact hnone
  obtain ⟨hf, hbase⟩ := Option.or_eq_none_iff.1 hcurrent
  have hwhole := congrArg (fun p : Prover => { p with current := some (.blank name) })
    hmirrors.whole
  exact ⟨(), _, (ends_enterRegion name ()).2 ⟨hf, rfl⟩, trivial,
    { hmirrors with opened_eq := rfl, closed := fun _ => hbase, whole := hwhole }⟩

/-- A region may be closed on the fork instead. -/
theorem mirrored_exitRegion :
    Refines Anywhere (fun q f => Mirrors true range base f q)
      (fun q f => Mirrors false range base f q) (fun _ _ => True) exitRegion exitRegion := by
  intro q f a q' hmirrors hends _
  obtain ⟨region, hregion, rfl⟩ := (ends_exitRegion a).1 hends
  -- the records of the fork come behind those of the prover
  have hrecords : q.records = base.records ++ f.records := by
    rw [hmirrors.whole]
  have hwhole := congrArg
    (fun p : Prover => { p with records := q.records.push region, current := none }) hmirrors.whole
  refine ⟨(), _, (ends_exitRegion ()).2 ⟨region, hmirrors.current_eq ▸ hregion, rfl⟩, trivial,
    { hmirrors with
      opened_eq := rfl
      closed := fun hfalse => absurd hfalse Bool.false_ne_true
      whole := ?_ }⟩
  rw [hmirrors.closed rfl, Array.append_push, ← hrecords]
  exact hwhole

/-- An advice cell of a row of the range may be assigned on the fork instead. -/
theorem mirrored_assignAdvice (label : String) (column : Nat) {row : Nat} (value : Producer)
    (hrow : row ∈ range) : Mirrored range base (assignAdvice label column row value) := by
  intro q f v q' hmirrors hends _
  obtain ⟨⟨hwritable, hvalue⟩, advice, hset, rfl⟩ := (ends_assignAdvice ..).1 hends
  rw [hmirrors.advice_eq] at hset
  -- on a row of the range, the cell is written in the part alone
  obtain ⟨part, hpart, rfl, hadvice⟩ := hmirrors.advice.of_set hrow hset
  have hwhole := congrArg (fun p : Prover => { p with
    advice := base.advice.absorb part
    current := f.current.map fun (r : RegionRecord) => r.touch (.advice column) row }) hmirrors.whole
  refine ⟨v, _, (ends_assignAdvice ..).2
    ⟨⟨hmirrors.board.writable hrow hwritable, hvalue⟩, part, hpart, rfl⟩, rfl,
    { hmirrors with advice := hadvice, opened_eq := ?_, whole := ?_ }⟩
  · rw [Option.isSome_map]
    exact hmirrors.opened_eq
  · rw [hmirrors.closed rfl, Option.or_none, hmirrors.current_eq]
    exact hwhole

/-- An advice cell of a row of the range may be read on the fork instead. -/
theorem mirrored_queryAdvice (column : Nat) {row : Nat} (hrow : row ∈ range) :
    Mirrored range base (queryAdvice column row) := by
  refine refines_lookUp (·.advice) (ends_queryAdvice column row) ?_
  intro q f content hmirrors husable hget
  rw [hmirrors.board.usable_eq] at husable
  rw [hmirrors.advice_eq] at hget
  exact ⟨husable, hmirrors.advice.of_get hrow hget⟩

/-- A fixed cell of a row of the range may be read on the fork instead. -/
theorem mirrored_queryFixed (column : Nat) {row : Nat} (hrow : row ∈ range) :
    Mirrored range base (queryFixed column row) := by
  refine refines_lookUp (·.board.fixed) (ends_queryFixed column row) ?_
  intro q f content hmirrors husable hget
  rw [hmirrors.board.usable_eq] at husable
  rw [hmirrors.board.fixed_eq] at hget
  exact ⟨husable, hmirrors.board.fixed.of_get hrow hget⟩

/-- An input may be read on the fork instead. -/
theorem mirrored_queryInput (column row : Nat) : Mirrored range base (queryInput column row) := by
  intro q f x q' hmirrors hends _
  obtain ⟨husable, cells, hcells, rfl, rfl⟩ := (ends_queryInput column row x).1 hends
  rw [hmirrors.board.usable_eq] at husable
  rw [hmirrors.inputs_eq'] at hcells
  exact ⟨_, f, (ends_queryInput column row _).2 ⟨husable, cells, hcells, rfl, rfl⟩, rfl, hmirrors⟩

/-- A region that keeps to its rows cannot tell a prover from a fork of it. -/
theorem rowSimulation (range : RowSpan) (base : Prover) :
    RowSimulation range fun opened q f => Mirrors opened range base f q where
  enterRegion name := mirrored_enterRegion name
  exitRegion := mirrored_exitRegion
  -- calls with a row ask that it lies in the range
  nameColumn _ _ := mirrored_record _
  enableSelector _ selector _ hrow :=
    (mirrored_onBoard (Board.mirrored_enableSelector selector hrow)).andThen
      fun _ _ _ => mirrored_record _
  queryAdvice column _ hrow := mirrored_queryAdvice column hrow
  queryFixed column _ hrow := mirrored_queryFixed column hrow
  queryInput column row := mirrored_queryInput column row
  assignAdvice label column _ value hrow :=
    (mirrored_assignAdvice label column value hrow).map fun _ _ h => congrArg some h
  assignFixed label column row value hrow := by
    -- the cell is written on the board, then noted in the record
    have hassign : Mirrored range base (assignFixed label column row value) := by
      refine (mirrored_onBoard (Board.mirrored_assignFixed _ label column value hrow)).andThen
        fun v _ hv => ?_
      subst hv
      exact (mirrored_record _).andThen fun _ _ _ => Refines.pure rfl
    exact hassign.map fun _ _ h => congrArg some h
  copy left right := mirrored_onBoard (Board.mirrored_copy left right)

namespace Rested

/-- The board of a rested prover is rested. -/
theorem rested_board (h : p.Rested schema rows) : p.board.Rested schema rows :=
  { h.board with lent := h.lent, synthesizing := h.synthesizing }

/-- A rested prover lends no advice. -/
theorem lent_advice (h : p.Rested schema rows) : p.advice.lent = [] := h.lent_eq.trans h.lent

/-- A fork that nothing was written to mirrors the prover as it is. -/
theorem mirrors_sliver (h : p.Rested schema rows) (hrange : p.board.window.Covers range) :
    Mirrors false range p (p.sliver range) p where
  board := h.rested_board.mirrors_forkOver hrange
  advice := Store.isPart_part h.advice h.lent_advice (h.board.covers.trans hrange)
  inputs_eq := rfl
  opened_eq := rfl
  closed hfalse := absurd hfalse Bool.false_ne_true
  whole := by
    have hadvice := Store.absorb_part h.advice (h.board.covers.trans hrange)
    simp only [sliver, hadvice, Array.append_empty, Option.none_or]

/-- A prover that mirrors its fork is rested. -/
theorem of_mirrors (h : p.Rested schema rows) (hmirrors : Mirrors false range p f q) :
    q.Rested schema rows := by
  have hboard := h.rested_board.of_mirrors hmirrors.board
  have hadvice := h.advice.absorb (hmirrors.advice.part.width_eq.trans h.advice.width_eq)
  rw [← hmirrors.advice_eq] at hadvice
  refine ⟨⟨hboard.toEven, hadvice, ?_⟩, hboard.lent, hboard.synthesizing⟩
  rw [hboard.lent, hmirrors.advice_eq]
  exact h.lent_advice

/-- Rows behind a fork are forked as if there were no such fork. -/
theorem sliver_eq (h : p.Rested schema rows) (hmirrors : Mirrors false range p f q)
    {later : RowSpan} (hlater : p.board.window.Covers later) (hbehind : range.stop ≤ later.start) :
    q.sliver later = p.sliver later := by
  have hboard := h.rested_board.forkOver_eq hmirrors.board hlater hbehind
  have hadvice := Store.part_absorb hmirrors.advice
    (h.advice.window_eq ▸ h.board.covers.trans hlater) hbehind
  rw [← hmirrors.advice_eq] at hadvice
  have hschema : q.schema = p.schema ∧ q.inputs = p.inputs ∧ q.challenges = p.challenges := by
    rw [hmirrors.whole]
    exact ⟨rfl, rfl, rfl⟩
  simp only [sliver, hboard, hadvice, hschema]

end Rested

/-- Forks that mirror one change after another, taken together: the cells and the records of all of
them. -/
theorem of_gathers (h : Gathers (Mirrors false) p ranges fs q) :
    List.Forall₂ (fun (r : RowSpan) (a : Store Content) => a.window = r ∧ a.width = p.advice.width)
        ranges (fs.map (·.advice)) ∧
      q = { p with
        board := q.board
        advice := (fs.map (·.advice)).foldl Store.absorb p.advice
        records := fs.foldl (fun all f => all ++ f.records) p.records } := by
  induction h with
  | nil p => exact ⟨.nil, rfl⟩
  | @cons p t q f range ranges fs hfirst _ ih =>
    obtain ⟨hwindows, hq⟩ := ih
    -- a fork closes its region before the next one is written
    have hclosed : f.current = none :=
      Option.isNone_iff_eq_none.1 (Option.isSome_eq_false_iff.1 hfirst.opened_eq)
    have hwidth := (hfirst.advice.whole.absorb hfirst.advice.part.width_eq).width_eq
    have hwhole := hfirst.whole
    rw [hclosed, Option.none_or] at hwhole
    rw [hfirst.advice_eq, hwidth] at hwindows
    refine ⟨.cons ⟨hfirst.advice.part.window_eq, hfirst.advice.part.width_eq⟩ hwindows, ?_⟩
    rw [hwhole] at hq
    exact hq

/-- Provers are forked and merged. -/
theorem Rested.split (h : p.Rested schema rows)
    (hranges : Store.checkRanges p.board.window p.board.window.start ranges = .ok ()) :
    ∃ lent, (fork ranges).Ends p (ranges.map p.sliver) lent ∧
      ∀ fs q, Gathers (Mirrors false) p ranges fs q → (merge (fs.map .fork)).Ends lent () q := by
  have hrows := h.rested_board.checkRanges_rows hranges
  have hcarve := h.board.ends_carve h.lent hrows
  -- the three stores have one window, so one check settles all splits
  have hsplit : p.advice.split ranges =
      .ok (ranges.map p.advice.part, { p.advice with lent := ranges }) := by
    refine Store.split_eq_ok_iff.2 ⟨h.lent_advice, ?_, rfl, rfl⟩
    rw [h.advice.window_eq]
    exact hrows
  refine ⟨{ p with board := p.board.lend ranges, advice := { p.advice with lent := ranges } },
    (ends_fork ranges _).2 ⟨_, _, _, _, _, h.rested_board.ends_grant hranges, hsplit, hcarve,
      (Even.zip_carved p ranges).symm, rfl⟩, ?_⟩
  intro fs q hgathers
  -- merging replays what the forks did one after the other
  obtain ⟨hwindows, hwhole⟩ := of_gathers hgathers
  have hboards : Gathers Board.Mirrors p.board ranges (fs.map (·.board)) q.board :=
    hgathers.map (g := Prover.board) fun _ _ _ _ hmirrors => hmirrors.board
  obtain ⟨d, ⟨results, hreplays⟩, hrejoin⟩ := h.rested_board.ends_gathered hboards
  refine (ends_merge _ ()).2 ⟨h.synthesizing, fs, _, _, _, ends_mergeOnes.2 ⟨rfl, results, d, hreplays,
    rfl⟩, Store.rejoin_lent h.lent_advice hwindows, hrejoin, ?_⟩
  exact hwhole

/-- Batches may be written on forks of provers. -/
def splitting (schema : Schema) (rows : RowSpan) : Splitting Prover where
  Rested := Rested schema rows
  window p := p.board.window
  Mirrors := Mirrors
  sliver := sliver
  reports := reports
  canFork _ := rfl
  simulation := rowSimulation
  mirrors_sliver h hrange := h.mirrors_sliver hrange
  rested h hmirrors := h.of_mirrors hmirrors
  window_eq hmirrors := hmirrors.board.window_eq
  sliver_eq h hmirrors hlater hbehind := h.sliver_eq hmirrors hlater hbehind
  split h hranges := h.split hranges
  granted hends := (Even.of_ends_fork hends).1

end Prover

end CircuitLayout
