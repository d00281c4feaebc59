import CircuitLayout.Proofs.Board.Spares
import CircuitLayout.Proofs.Forks.FailedMerges
import CircuitLayout.Proofs.Prover.Atomic

namespace CircuitLayout

/-! # Reserved rows

Whatever is asked of a new prover or of a new key builder, the rows at the end of the grid that are
reserved stay as they were, and these are the rows that a proving key does not mark as usable. Main
statement: `reserved_rows`.
-/

open Run (Keeps)

/-! ## Boards -/

namespace Board

variable {φ : Type} {logRows : Nat} {schema : Schema} {rows : RowSpan} {blank : φ} {b c : Board φ}
  {fs : List (Board φ)}

/-- Taking copies leaves a board even. -/
theorem Even.takes {l : List (Position × Position)} (h : b.Even schema rows) (htakes : b.Takes l c) :
    c.Even schema rows := by
  rw [htakes.eq]
  exact { h with }

namespace Spares

/-- The usable rows hold the ranges that are granted. -/
theorem covers_of_granted (h : b.Spares logRows schema blank) (heven : b.Even schema rows)
    {ranges : List RowSpan} (hranges : Store.checkRanges b.window b.window.start ranges = .ok ()) :
    ∀ range ∈ ranges, (usableRows logRows schema).Covers range ∧ rows.Covers range := by
  intro range hrange
  have hwindow := Even.covers_of_checkRanges hranges range hrange
  rw [← h.usable_eq]
  exact ⟨heven.usable.trans hwindow, heven.covers.trans hwindow⟩

/-- Ranges that are granted are of usable rows. -/
theorem lend_granted (h : b.Spares logRows schema blank) (heven : b.Even schema rows)
    {ranges : List RowSpan} (hranges : Store.checkRanges b.window b.window.start ranges = .ok ()) :
    (b.lend ranges).Spares logRows schema blank := by
  have hcovers := h.covers_of_granted heven hranges
  refine h.lend (fun range hrange => ?_) (fun range hrange => ?_) fun range hrange =>
    (hcovers range hrange).1
  · rw [heven.fixed.window_eq]
    exact (hcovers range hrange).2
  · rw [heven.selectors.window_eq]
    exact (hcovers range hrange).2

/-- Rejoining parts over usable rows brings nothing to the others. -/
theorem rejoin (h : b.Spares logRows schema blank) (heven : b.Even schema rows)
    (hfs : ∀ f ∈ fs, ∃ range, f.Even schema range) (hends : (Board.rejoin fs).Ends b () c) :
    c.Spares logRows schema blank := by
  obtain ⟨fixed, selectors, hfixed, hselectors, rfl⟩ := (ends_rejoin fs ()).1 hends
  refine { h with
    fixed := h.fixed.rejoin heven.fixed (fun p hp => ?_) hfixed
    selectors := h.selectors.rejoin heven.selectors (fun p hp => ?_) hselectors }
  · obtain ⟨f, hf, rfl⟩ := List.mem_map.1 hp
    -- each part has the shape that its range asks for
    obtain ⟨range, hrange⟩ := hfs f hf
    rw [hrange.fixed.window_eq, hrange.fixed.width_eq]
    exact hrange.fixed
  · obtain ⟨f, hf, rfl⟩ := List.mem_map.1 hp
    obtain ⟨range, hrange⟩ := hfs f hf
    rw [hrange.selectors.window_eq, hrange.selectors.width_eq]
    exact hrange.selectors

end Spares

/-- Are the reserved rows of the grid as they are on the board of a new root? Their fixed cells are
blank, their selectors are off, and every copy leaves them out. -/
structure Untouched [Inhabited φ] (logRows : Nat) (schema : Schema) (blank : φ) (b : Board φ) :
    Prop where
  fixed : ∀ column row, column < schema.fixedCount →
    Nat.pow 2 logRows - schema.blindingFactors - 1 ≤ row → row < Nat.pow 2 logRows →
      b.fixed.get column row = .ok blank
  selectors : ∀ index row, index < schema.selectorCount →
    Nat.pow 2 logRows - schema.blindingFactors - 1 ≤ row → row < Nat.pow 2 logRows →
      b.selectors.get index row = .ok false
  permutation : ∃ p, b.permutation = some p ∧ p.columns = schema.equality ∧
    p.rows = Nat.pow 2 logRows ∧
      ∀ index row, index < p.columns.length →
        Nat.pow 2 logRows - schema.blindingFactors - 1 ≤ row → row < Nat.pow 2 logRows →
          p.nextSlot (index * p.rows + row) = index * p.rows + row

/-- The rows that are not usable are the reserved ones. -/
theorem not_mem_usableRows {row : Nat} :
    row ∉ usableRows logRows schema ↔ Nat.pow 2 logRows - schema.blindingFactors - 1 ≤ row := by
  simp only [usableRows, RowSpan.mem_iff, Schema.reservedRows]
  omega

/-- At a root nothing behind the usable rows was touched. -/
theorem Spares.untouched [Inhabited φ] (h : b.Spares logRows schema blank)
    (hroot : b.IsRoot logRows schema) : b.Untouched logRows schema blank where
  fixed column row hcolumn hreserved hrow :=
    h.fixed.get hroot.fixed hcolumn ⟨Nat.zero_le _, hrow⟩ (not_mem_usableRows.2 hreserved)
  selectors index row hindex hreserved hrow :=
    h.selectors.get hroot.selectors hindex ⟨Nat.zero_le _, hrow⟩ (not_mem_usableRows.2 hreserved)
  permutation := by
    obtain ⟨p, hp⟩ := Option.isSome_iff_exists.1 hroot.permutation
    have hspares := h.permutation p hp
    refine ⟨p, hp, hspares.columns_eq, hspares.rows_eq, fun index row _ hreserved hrow => ?_⟩
    rw [hspares.rows_eq]
    exact hspares.next_eq index row hrow (not_mem_usableRows.2 hreserved)

end Board

/-! ## Provers -/

namespace Prover

variable {logRows : Nat} {schema : Schema} {rows : RowSpan} {inputs : Array (Array Content)}
  {p q : Prover} {fs : List Prover} {ranges : List RowSpan}

/-- Are the reserved rows as they are in a new prover with some public inputs? -/
structure Spares (logRows : Nat) (schema : Schema) (inputs : Array (Array Content)) (p : Prover) :
    Prop where
  board : p.board.Spares logRows schema .blank
  advice : p.advice.Spares (Board.usableRows logRows schema) .poison
  inputs_eq : p.inputs = inputs

namespace Spares

/-- On a new prover the rows behind the usable ones are new. -/
theorem unused (logRows : Nat) (schema : Schema) (inputs : List (List Goldilocks)) :
    (Prover.unused logRows schema inputs).Spares logRows schema
      (Prover.unused logRows schema inputs).inputs where
  board := .root ..
  advice :=
    { lent := by simp [Prover.unused]
      cell := fun column row hcolumn hrow hout => by
        have hcolumn : column < schema.adviceCount := by
          simpa [Prover.unused, Store.width] using hcolumn
        simp only [Prover.unused, RowSpan.mem_iff] at hrow
        simp only [Board.usableRows, RowSpan.mem_iff] at hout
        -- a column is blank on its usable rows and poisoned behind them
        simp only [Store.cell?, Prover.unused, Array.getElem?_replicate]
        rw [if_pos hcolumn, Option.bind_some, adviceColumn, Array.getElem?_append_right]
        · rw [Array.getElem?_replicate, if_pos]
          simp only [Array.size_replicate]
          omega
        · simp only [Array.size_replicate]
          omega }
  inputs_eq := rfl

/-- A call that succeeds leaves the reserved rows as they were. -/
theorem of_call (h : p.Spares logRows schema inputs) (heven : p.Even schema rows)
    {c : AssignmentCall} {reply : c.Reply} (hends : (c.perform : Run Prover c.Reply).Ends p reply q) :
    q.Spares logRows schema inputs := by
  -- calls that write ask first whether the row is usable
  cases c with
  | start | close =>
    obtain ⟨b, hb, rfl⟩ := (ends_onBoard ..).1 hends
    exact { h with board := h.board.advance hb }
  | enterRegion name =>
    obtain ⟨-, rfl⟩ := (ends_enterRegion ..).1 hends
    exact { h with }
  | exitRegion =>
    obtain ⟨region, -, rfl⟩ := (ends_exitRegion ..).1 hends
    exact { h with }
  | nameColumn label column =>
    obtain rfl := (ends_record ..).1 hends
    exact { h with }
  | enableSelector label selector row =>
    obtain ⟨hwritable, selectors, hset, rfl⟩ := (ends_enableSelector ..).1 hends
    exact { h with
      board := h.board.enableSelector heven.board.selectors
        ((Board.ends_enableSelector ..).2 ⟨hwritable, selectors, hset, rfl⟩) }
  | queryAdvice column row =>
    obtain ⟨-, _, -, -, rfl⟩ := (ends_queryAdvice ..).1 hends
    exact h
  | queryFixed column row =>
    obtain ⟨-, _, -, -, rfl⟩ := (ends_queryFixed ..).1 hends
    exact h
  | queryInput column row =>
    obtain ⟨-, _, -, -, rfl⟩ := (ends_queryInput ..).1 hends
    exact h
  | assignAdvice label column row value =>
    obtain ⟨v, hassign, -⟩ := (Run.ends_map ..).1 hends
    obtain ⟨⟨⟨-, husable, -⟩, -⟩, advice, hset, rfl⟩ := (ends_assignAdvice ..).1 hassign
    -- the row is usable, so it is none of the reserved ones
    exact { h with advice := h.advice.set heven.advice (h.board.usable_eq ▸ husable) hset }
  | assignFixed label column row value =>
    obtain ⟨v, hassign, -⟩ := (Run.ends_map ..).1 hends
    obtain ⟨hwritable, fixed, hset, rfl⟩ := (ends_assignFixed ..).1 hassign
    exact { h with
      board := h.board.assignFixed heven.board.fixed
        ((Board.ends_assignFixed _ label ..).2 ⟨hwritable, fixed, hset, rfl⟩) }
  | copy left right =>
    obtain ⟨b, hb, rfl⟩ := (ends_onBoard ..).1 hends
    exact { h with board := h.board.copy hb }
  | fillFrom column row value =>
    obtain ⟨b, hb, rfl⟩ := (ends_onBoard ..).1 hends
    exact { h with board := h.board.fillFrom heven.board.fixed hb }
  | challenge index =>
    obtain ⟨-, rfl⟩ := (ends_challenge ..).1 hends
    exact h
  | pushScope name | popScope name =>
    obtain rfl := (Run.ends_modify ..).1 hends
    exact { h with }

/-! ### Forks -/

/-- A prover that cannot be forked stays as it is. -/
theorem state_of_fork_error (heven : p.Even schema rows) {fault : Fault}
    (h : (fork ranges p).result = .error fault) : (fork ranges p).state = p := by
  rcases Run.of_bind_error h with ⟨-, hstate⟩ | ⟨_, q, hgrant, hrest, hstate⟩
  · exact hstate.trans (keeps_check (fun _ => Board.keeps_grant ranges) p p rfl)
  · obtain ⟨b, hb, rfl⟩ := (ends_onBoard ..).1 hgrant
    obtain ⟨-, hranges, rfl⟩ := (Board.ends_grant ranges ()).1 hb
    refine hstate.trans ?_
    -- once ranges are granted, only the split of the advice can fail
    cases hsplit : p.advice.split ranges with
    | error fault' => simp only [Run.bind_apply, Run.get, Run.ofExcept, Run.raise, hsplit]
    | ok x =>
      -- where the advice is split, the board is carved
      obtain ⟨parts, advice⟩ := x
      obtain ⟨hlent, hrows, -, rfl⟩ := Store.split_eq_ok_iff.1 hsplit
      rw [heven.advice.window_eq] at hrows
      have hcarve := heven.board.ends_carve (heven.lent_eq ▸ hlent) hrows
      have hok : (fork ranges).Ends p _ _ := (ends_fork ranges _).2
        ⟨_, _, _, _, _, hb, hsplit, hcarve, rfl, rfl⟩
      rw [hok.1] at h
      cases h

/-- Forking touches no reserved row. -/
theorem of_fork (h : p.Spares logRows schema inputs) (heven : p.Even schema rows)
    (hends : (fork ranges).Ends p fs q) : q.Spares logRows schema inputs := by
  obtain ⟨b, parts, advice, boards, c, hgrant, hsplit, hcarve, -, rfl⟩ := (ends_fork ranges fs).1 hends
  obtain ⟨-, hranges, rfl⟩ := (Board.ends_grant ranges ()).1 hgrant
  obtain ⟨-, -, -, rfl⟩ := Store.split_eq_ok_iff.1 hsplit
  obtain ⟨-, -, -, -, rfl⟩ := (Board.ends_carve ranges boards).1 hcarve
  have hcovers := h.board.covers_of_granted heven.board hranges
  refine { h with
    board := h.board.lend_granted heven.board hranges
    advice := h.advice.lend fun range hrange => ?_ }
  rw [heven.advice.window_eq]
  exact ⟨(hcovers range hrange).2, (hcovers range hrange).1⟩

/-- A fork over usable rows has no reserved row. -/
theorem sliver (h : p.Spares logRows schema inputs) {range : RowSpan}
    (hrange : (Board.usableRows logRows schema).Covers range) :
    (p.sliver range).Spares logRows schema inputs where
  board := h.board.forkOver hrange
  advice := .part _ _ hrange
  inputs_eq := h.inputs_eq

/-! ### Merges -/

/-- Merging touches no reserved row, whether or not it succeeds. -/
theorem of_merge (h : p.Spares logRows schema inputs) (heven : p.Even schema rows)
    (hfs : ∀ f ∈ fs, ∃ range, f.Even schema range ∧ f.Spares logRows schema inputs) :
    (merge (fs.map .fork) p).state.Spares logRows schema inputs := by
  have hboards : ∀ b ∈ fs.map (·.board), b.Spares logRows schema .blank := by
    intro b hb
    obtain ⟨f, hf, rfl⟩ := List.mem_map.1 hb
    obtain ⟨range, -, hspares⟩ := hfs f hf
    exact hspares.board
  -- the copies that the forks keep join usable rows
  have hkept := Board.Spares.within_of_mem_kept hboards
  have hevens : ∀ f ∈ fs, ∃ range, f.Even schema range := fun f hf =>
    (hfs f hf).imp fun _ hf => hf.1
  cases hresult : (merge (fs.map .fork) p).result with
  | error fault =>
    -- some copies were taken over, and no cell
    obtain ⟨n, c, hstops, hstate⟩ := heven.of_merge_error hevens hresult
    obtain ⟨taken, hbegin, htakes⟩ := hstops.takes
    rw [hstate]
    exact { h with board := h.board.takes (fun x hx => hkept x (hbegin.subset hx)) htakes }
  | ok a =>
    obtain ⟨-, forks, q, advice, b, heach, hadvice, hrejoin, hstate⟩ :=
      (ends_merge _ a).1 ⟨hresult, rfl⟩
    obtain ⟨rfl, results, d, hreplays, rfl⟩ := ends_mergeOnes.1 heach
    have htakes := Board.ends_replays_iff.1 ⟨results, hreplays⟩
    rw [hstate]
    refine { h with board := ?_, advice := ?_ }
    · -- first the copies, then the cells of parts over usable rows
      refine (h.board.takes hkept htakes).rejoin (heven.board.takes htakes) (fun b hb => ?_) hrejoin
      obtain ⟨f, hf, rfl⟩ := List.mem_map.1 hb
      exact (hevens f hf).imp fun _ hf => hf.board
    · refine h.advice.rejoin heven.advice (fun a ha => ?_) hadvice
      obtain ⟨f, hf, rfl⟩ := List.mem_map.1 ha
      obtain ⟨range, hrange⟩ := hevens f hf
      rw [hrange.advice.window_eq, hrange.advice.width_eq]
      exact hrange.advice

/-- The members of a family of provers leave the reserved rows as they were. -/
theorem familyKeeps :
    FamilyKeeps fun rows (p : Prover) => p.Even schema rows ∧ p.Spares logRows schema inputs where
  call rows c := by
    refine (atomic_perform c).keeps fun p reply q hends hp => ?_
    exact ⟨hends.of_keeps (Prover.familyKeeps.call rows c) hp.1, hp.2.of_call hp.1 hends⟩
  -- a fork that is refused leaves the prover as it was
  fork rows ranges p hp := by
    refine ⟨Prover.familyKeeps.fork rows ranges p hp.1, ?_⟩
    cases hresult : (fork ranges p).result with
    | error fault => exact (state_of_fork_error hp.1 hresult).symm ▸ hp.2
    | ok fs => exact hp.2.of_fork hp.1 ⟨hresult, rfl⟩
  forked {rows ranges p q fs} hp hends f hf := by
    obtain ⟨hranges, rfl⟩ := Even.of_ends_fork hends
    obtain ⟨range, hrange, rfl⟩ := List.mem_map.1 hf
    exact ⟨range, hp.1.sliver (Board.Even.covers_of_checkRanges hranges range hrange),
      -- a fork is over usable rows, as its range lies in the window
      hp.2.sliver (hp.2.board.covers_of_granted hp.1.board hranges range hrange).1⟩
  merge {rows p fs} hp hfs :=
    ⟨Prover.familyKeeps.merge hp.1 fun f hf => (hfs f hf).imp fun _ hf => hf.1,
      hp.2.of_merge hp.1 hfs⟩

end Spares

/-- Are the reserved rows of the grid as they are in a new prover? On its board they are, and their
advice cells and public inputs are poison. -/
structure Untouched (logRows : Nat) (schema : Schema) (p : Prover) : Prop where
  board : p.board.Untouched logRows schema .blank
  advice : ∀ column row, column < schema.adviceCount →
    Nat.pow 2 logRows - schema.blindingFactors - 1 ≤ row → row < Nat.pow 2 logRows →
      p.advice.get column row = .ok .poison
  inputs : ∀ column row, column < schema.inputCount →
    Nat.pow 2 logRows - schema.blindingFactors - 1 ≤ row → row < Nat.pow 2 logRows →
      p.inputs[column]?.bind (·[row]?) = some .poison

/-- Public inputs that fit end before the reserved rows, which are poison. -/
theorem poison_of_inputColumn {usable height row : Nat} {values : List Goldilocks}
    (hvalues : values.length ≤ usable) (hreserved : usable ≤ row) (hrow : row < height) :
    (inputColumn usable height values)[row]? = some .poison := by
  have hlength : (values.map Content.held ++
      List.replicate (usable - values.length) (Content.held 0)).length = usable := by
    simp only [List.length_append, List.length_map, List.length_replicate]
    omega
  rw [inputColumn, List.getElem?_toArray, List.getElem?_append_right (by omega), hlength,
    List.getElem?_replicate, if_pos (by omega)]

/-- At a root nothing behind the usable rows was touched. -/
theorem Spares.untouched {values : List (List Goldilocks)}
    (h : p.Spares logRows schema (Prover.unused logRows schema values).inputs)
    (hroot : p.IsRoot logRows schema) (hcount : values.length = schema.inputCount)
    (hfit : ∀ column ∈ values, column.length ≤ Nat.pow 2 logRows - schema.reservedRows) :
    p.Untouched logRows schema where
  board := h.board.untouched hroot.board
  advice column row hcolumn hreserved hrow :=
    h.advice.get hroot.advice hcolumn ⟨Nat.zero_le _, hrow⟩
      (Board.not_mem_usableRows.2 hreserved)
  inputs column row hcolumn hreserved hrow := by
    have hcolumn : column < values.length := hcount ▸ hcolumn
    have hreserved : Nat.pow 2 logRows - schema.reservedRows ≤ row := hreserved
    simp only [h.inputs_eq, Prover.unused, List.getElem?_toArray, List.getElem?_map,
      List.getElem?_eq_getElem hcolumn, Option.map_some, Option.bind_some]
    exact poison_of_inputColumn (hfit _ (List.getElem_mem hcolumn)) hreserved hrow

end Prover

/-! ## Key builders -/

namespace KeyBuilder

variable {logRows : Nat} {schema : Schema} {rows : RowSpan} {k l : KeyBuilder}
  {fs : List KeyBuilder} {ranges : List RowSpan}

/-- Are the reserved rows as they are in a new key builder? -/
def Spares (logRows : Nat) (schema : Schema) (k : KeyBuilder) : Prop :=
  k.board.Spares logRows schema .zero

namespace Spares

/-- A call that succeeds leaves the reserved rows as they were. -/
theorem of_call (h : k.Spares logRows schema) (heven : k.Even schema rows) {c : AssignmentCall}
    {reply : c.Reply} (hends : (c.perform : Run KeyBuilder c.Reply).Ends k reply l) :
    l.Spares logRows schema := by
  -- calls that write ask first whether the row is usable
  cases c with
  | start | close => exact Board.Spares.advance h ((ends_onBoard ..).1 hends)
  | enterRegion | exitRegion | nameColumn | queryAdvice | assignAdvice | challenge | pushScope
  | popScope =>
    obtain ⟨-, rfl⟩ := (Run.ends_pure ..).1 hends
    exact h
  | enableSelector label selector row =>
    exact Board.Spares.enableSelector h heven.selectors ((ends_onBoard ..).1 hends)
  | queryFixed column row =>
    obtain ⟨-, _, -, -, rfl⟩ := (ends_queryFixed ..).1 hends
    exact h
  | queryInput column row =>
    obtain ⟨-, -, rfl⟩ := (ends_queryInput ..).1 hends
    exact h
  | assignFixed label column row value =>
    obtain ⟨v, hassign, -⟩ := (Run.ends_map ..).1 hends
    exact Board.Spares.assignFixed h heven.fixed ((ends_onBoard ..).1 hassign)
  | copy left right => exact Board.Spares.copy h ((ends_onBoard ..).1 hends)
  | fillFrom column row value =>
    exact Board.Spares.fillFrom h heven.fixed ((ends_onBoard ..).1 hends)

/-- A key builder that cannot be forked stays as it is. -/
theorem state_of_fork_error (heven : k.Even schema rows) {fault : Fault}
    (h : (fork ranges k).result = .error fault) : (fork ranges k).state = k := by
  have hcheck : Keeps (· = k) (onBoard (Board.grant ranges)) :=
    keeps_onBoard (P := fun b => (⟨b⟩ : KeyBuilder) = k) (Board.keeps_grant ranges)
  rcases Run.of_bind_error h with ⟨-, hstate⟩ | ⟨_, l, hgrant, hrest, hstate⟩
  · exact hstate.trans (hcheck k rfl)
  · have hb := (ends_onBoard ..).1 hgrant
    obtain ⟨-, hranges, hl⟩ := (Board.ends_grant ranges ()).1 hb
    obtain ⟨b⟩ := l
    obtain rfl : b = k.board := hl
    refine hstate.trans ?_
    -- once ranges are granted, only the split can fail
    cases hsplit : k.board.fixed.split ranges with
    | error fault' =>
      simp only [onBoard, Run.zoom, Board.carve, Run.bind_apply, Run.get, Run.ofExcept, Run.raise,
        hsplit]
    | ok x =>
      obtain ⟨hlent, hrows, -, -⟩ := Store.split_eq_ok_iff.1 hsplit
      rw [heven.fixed.window_eq] at hrows
      have hok : (fork ranges).Ends k _ ⟨_⟩ :=
        (ends_fork ranges _).2 ⟨_, _, hb, Board.Even.ends_carve heven hlent hrows, rfl⟩
      rw [hok.1] at h
      cases h

/-- Forking a key builder touches no reserved row. -/
theorem of_fork (h : k.Spares logRows schema) (heven : k.Even schema rows)
    (hends : (fork ranges).Ends k fs l) : l.Spares logRows schema := by
  obtain ⟨b, boards, hgrant, hcarve, -⟩ := (ends_fork ranges fs).1 hends
  obtain ⟨-, hranges, rfl⟩ := (Board.ends_grant ranges ()).1 hgrant
  obtain ⟨-, -, -, -, hl⟩ := (Board.ends_carve ranges boards).1 hcarve
  have hspares := Board.Spares.lend_granted h heven hranges
  rwa [Board.lend, ← hl] at hspares

/-- Merging into a key builder touches no reserved row. -/
theorem of_merge (h : k.Spares logRows schema) (heven : k.Even schema rows)
    (hfs : ∀ f ∈ fs, ∃ range, f.Even schema range ∧ f.Spares logRows schema) :
    (merge (fs.map .fork) k).state.Spares logRows schema := by
  have hboards : ∀ b ∈ fs.map (·.board), b.Spares logRows schema .zero := by
    intro b hb
    obtain ⟨f, hf, rfl⟩ := List.mem_map.1 hb
    obtain ⟨range, -, hspares⟩ := hfs f hf
    exact hspares
  -- the copies that the forks keep join usable rows
  have hkept := Board.Spares.within_of_mem_kept hboards
  have hevens : ∀ f ∈ fs, ∃ range, f.Even schema range := fun f hf =>
    (hfs f hf).imp fun _ hf => hf.1
  cases hresult : (merge (fs.map .fork) k).result with
  | error fault =>
    -- some copies were taken over, and no cell
    obtain ⟨n, c, hstops, hstate⟩ := Even.of_merge_error heven hevens hresult
    obtain ⟨taken, hbegin, htakes⟩ := hstops.takes
    rw [hstate]
    exact Board.Spares.takes h (fun x hx => hkept x (hbegin.subset hx)) htakes
  | ok a =>
    obtain ⟨-, forks, l, heach, hrejoin⟩ := (ends_merge _ a).1 ⟨hresult, rfl⟩
    obtain ⟨rfl, results, hreplays⟩ := ends_mergeOnes.1 heach
    have htakes := Board.ends_replays_iff.1 ⟨results, hreplays⟩
    -- first the copies, then the cells of parts over usable rows
    refine (Board.Spares.takes h hkept htakes).rejoin (Board.Even.takes heven htakes) (fun b hb => ?_)
      hrejoin
    obtain ⟨f, hf, rfl⟩ := List.mem_map.1 hb
    exact hevens f hf

/-- The members of a family of key builders leave the reserved rows as they were. -/
theorem familyKeeps :
    FamilyKeeps fun rows (k : KeyBuilder) => k.Even schema rows ∧ k.Spares logRows schema where
  call rows c := by
    refine (atomic_perform c).keeps fun k reply l hends hk => ?_
    exact ⟨hends.of_keeps (KeyBuilder.familyKeeps.call rows c) hk.1, hk.2.of_call hk.1 hends⟩
  -- a fork that is refused leaves the key builder as it was
  fork rows ranges k hk := by
    refine ⟨KeyBuilder.familyKeeps.fork rows ranges k hk.1, ?_⟩
    cases hresult : (fork ranges k).result with
    | error fault => exact (state_of_fork_error hk.1 hresult).symm ▸ hk.2
    | ok fs => exact hk.2.of_fork hk.1 ⟨hresult, rfl⟩
  forked {rows ranges k l fs} hk hends f hf := by
    obtain ⟨hranges, rfl⟩ := Even.of_ends_fork hends
    obtain ⟨range, hrange, rfl⟩ := List.mem_map.1 hf
    exact ⟨range, Board.Even.forkOver hk.1 (Board.Even.covers_of_checkRanges hranges range hrange),
      Board.Spares.forkOver hk.2
        (Board.Spares.covers_of_granted hk.2 hk.1 hranges range hrange).1⟩
  merge {rows k fs} hk hfs :=
    ⟨KeyBuilder.familyKeeps.merge hk.1 fun f hf => (hfs f hf).imp fun _ hf => hf.1,
      hk.2.of_merge hk.1 hfs⟩

end Spares

end KeyBuilder

/-! ## Proving keys -/

namespace ProvingKey

/-- Does a proving key tell the usable rows of a grid, the row behind them, and the blinding rows
behind that one? -/
structure Marks (rows usable : Nat) (pk : ProvingKey) : Prop where
  active : pk.active = indicator rows fun row => decide (row < usable)
  last : pk.last = indicator rows fun row => decide (row = usable)
  blind : pk.blind = indicator rows fun row => decide (usable < row)
  sum : ∀ row < rows, ∃ active last blind, pk.active[row]? = some active ∧
    pk.last[row]? = some last ∧ pk.blind[row]? = some blind ∧ active + last + blind = 1

/-- An indicator is one on its rows and zero on the others. -/
theorem getElem?_indicator {rows row : Nat} (p : Nat → Bool) (hrow : row < rows) :
    (indicator rows p)[row]? = some (if p row then 1 else 0) := by
  rw [indicator, List.getElem?_map, List.getElem?_range hrow, Option.map_some]

/-- A row is usable if it is neither the last one nor one for blinding. -/
theorem active_eq (usable row : Nat) :
    (1 : Goldilocks) - ((if row = usable then 1 else 0) + if usable < row then 1 else 0) =
      if row < usable then 1 else 0 := by
  rcases lt_trichotomy row usable with hrow | rfl | hrow
  · rw [if_neg (by omega), if_neg (by omega), if_pos hrow]
    decide
  · rw [if_pos rfl, if_neg (by omega)]
    decide
  · rw [if_neg (by omega), if_pos hrow, if_neg (by omega)]
    decide

/-- Each row is active, the last, or blinding, and only one of them. -/
theorem sum_eq_one (usable row : Nat) :
    (if row < usable then 1 else 0) + (if row = usable then 1 else 0) +
      (if usable < row then 1 else 0) = (1 : Goldilocks) := by
  rcases lt_trichotomy row usable with hrow | rfl | hrow
  · rw [if_pos hrow, if_neg (by omega), if_neg (by omega)]
    decide
  · rw [if_pos rfl, if_neg (by omega)]
    decide
  · rw [if_neg (by omega), if_neg (by omega), if_pos hrow]
    decide

/-- Columns that indicate the three kinds of rows mark them. -/
theorem Marks.of_indicators {pk : ProvingKey} {rows usable : Nat}
    (hactive : pk.active = indicator rows fun row => decide (row < usable))
    (hlast : pk.last = indicator rows fun row => decide (row = usable))
    (hblind : pk.blind = indicator rows fun row => decide (usable < row)) :
    pk.Marks rows usable where
  active := hactive
  last := hlast
  blind := hblind
  sum row hrow := by
    rw [hactive, hlast, hblind, getElem?_indicator _ hrow, getElem?_indicator _ hrow,
      getElem?_indicator _ hrow]
    refine ⟨_, _, _, rfl, rfl, rfl, ?_⟩
    simpa using sum_eq_one usable row

/-- A verifying key for a grid that is high enough has a proving key. -/
theorem exists_ofVerifying {vk : VerifyingKey} (h : vk.schema.minimumRows ≤ vk.rows) :
    ∃ pk, ofVerifying vk = .ok pk ∧
      pk.Marks vk.rows (vk.rows - vk.schema.blindingFactors - 1) := by
  -- the blinding rows are those behind the last
  have hblind : indicator vk.rows (fun row => decide (vk.rows - vk.schema.blindingFactors ≤ row)) =
      indicator vk.rows fun row => decide (vk.rows - vk.schema.blindingFactors - 1 < row) := by
    simp only [Schema.minimumRows, Schema.reservedRows] at h
    congr 1
    funext row
    exact decide_eq_decide.2 (by omega)
  -- a row is active iff it is neither the last nor a blinding one
  have hactive : ((indicator vk.rows fun row =>
        decide (row = vk.rows - vk.schema.blindingFactors - 1)).zip
        (indicator vk.rows fun row => decide (vk.rows - vk.schema.blindingFactors ≤ row))).map
          (fun x => 1 - (x.1 + x.2)) =
      indicator vk.rows fun row => decide (row < vk.rows - vk.schema.blindingFactors - 1) := by
    rw [hblind, indicator, indicator, List.zip_map', List.map_map]
    refine List.map_congr_left fun row _ => ?_
    simpa using active_eq (vk.rows - vk.schema.blindingFactors - 1) row
  exact ⟨_, if_neg (Nat.not_lt.2 h), .of_indicators hactive rfl hblind⟩

end ProvingKey

/-! ## Provers, key builders and keys -/

/-- Whatever is asked of a new prover or of a new key builder, forks and merges of its own forks
included, and whether it succeeds or fails, the rows of the grid behind the usable ones are as they
were. They are the rows that the proving key of any circuit does not mark as usable. -/
theorem reserved_rows (logRows : Nat) :
    (∀ {schema : Schema} {inputs : List (List Goldilocks)} {new p : Prover},
      Prover.create logRows schema inputs = .ok new → Reached new p →
        p.Untouched logRows schema) ∧
    (∀ {schema : Schema} {new k : KeyBuilder},
      KeyBuilder.create logRows schema = .ok new → Reached new k →
        k.board.Untouched logRows schema .zero) ∧
    ∀ {τ ρ : Type} {circuit : Circuit ρ} {settings : Settings} {s s' : τ} {vk : VerifyingKey},
      (circuit.verifyingKey logRows settings).Ends s vk s' →
        ∃ pk, ProvingKey.ofVerifying vk = .ok pk ∧
          pk.Marks (Nat.pow 2 logRows)
            (Nat.pow 2 logRows - circuit.schema.blindingFactors - 1) := by
  refine ⟨?_, ?_, ?_⟩
  · intro schema inputs new p hnew hp
    obtain ⟨⟨hgrid, -⟩, ⟨hcount, hfit⟩, rfl⟩ := Prover.create_eq_ok_iff.1 hnew
    -- the invariant of descendants holds of a new prover
    have hspares := (hp.of_familyKeeps Prover.Spares.familyKeeps
      ⟨.unused hgrid schema inputs, .unused logRows schema inputs⟩).2
    exact hspares.untouched (hp.of_keeps Prover.layoutKeeps (Prover.isRoot_unused inputs)) hcount hfit
  · intro schema new k hnew hk
    obtain ⟨⟨hgrid, -⟩, rfl⟩ := KeyBuilder.create_eq_ok_iff.1 hnew
    have hspares := (hk.of_familyKeeps KeyBuilder.Spares.familyKeeps
      ⟨.unused hgrid schema, .root ..⟩).2
    have hroot : k.IsRoot logRows schema :=
      hk.of_keeps KeyBuilder.layoutKeeps KeyBuilder.isRoot_unused
    exact Board.Spares.untouched hspares hroot
  · intro τ ρ circuit settings s s' vk hends
    obtain ⟨desk, hbuild, hvk⟩ := (circuit.ends_verifyingKey ..).1 hends
    -- the grid is large enough for the reserved rows, so the proving key can be made
    obtain ⟨⟨-, hrows⟩, -⟩ := (circuit.ends_buildKeys ..).1 hbuild
    obtain ⟨-, permutation, fixed, selectors, -, -, -, rfl⟩ :=
      VerifyingKey.ofBuilder_eq_ok_iff.1 hvk
    exact ProvingKey.exists_ofVerifying hrows

/-- A prover whose first rows are lent out and whose merge failed, a key builder that was asked for
a selector on the first reserved row, and the keys of a circuit whose grid is as low as can be. -/
theorem reserved_rows_refused :
    (Prover.merge ([Prover.borrower].map .fork) Prover.lent).state.Untouched 4 Prover.oneSided ∧
      (AssignmentCall.performAll [.start, .enableSelector "late" ⟨0, true⟩ 3]
        (KeyBuilder.unused 3 Circuit.fives.schema)).board.Untouched 3 Circuit.fives.schema .zero ∧
      ∃ vk pk, (Circuit.fives.verifyingKey 3 ⟨true, 0, 10⟩ ()).result = .ok vk ∧
        ProvingKey.ofVerifying vk = .ok pk ∧ pk.Marks 8 3 := by
  have hprover : Prover.create 4 Prover.oneSided [] = .ok (Prover.unused 4 Prover.oneSided []) :=
    Prover.create_eq_ok_iff.2 ⟨by decide, by decide, rfl⟩
  have hbuilder :
      KeyBuilder.create 3 Circuit.fives.schema = .ok (KeyBuilder.unused 3 Circuit.fives.schema) :=
    KeyBuilder.create_eq_ok_iff.2 ⟨by decide, rfl⟩
  have hlender : Reached (Prover.unused 4 Prover.oneSided []) Prover.lender :=
    (Reached.refl _).performAll _
  -- the merge is refused, so only copies could have been taken
  have hforks : ∀ f ∈ [Prover.borrower], Forked (Prover.unused 4 Prover.oneSided []) f := by
    intro f hf
    obtain rfl := List.mem_singleton.1 hf
    exact Prover.forked_borrower.of_reached hlender
  obtain ⟨vk, hends⟩ := Run.exists_ends_unit (m := Circuit.fives.verifyingKey 3 ⟨true, 0, 10⟩)
    (by decide +kernel)
  -- the general theorem at each of the three
  obtain ⟨pk, hpk, hmarks⟩ := (reserved_rows 3).2.2 hends
  exact ⟨(reserved_rows 4).1 hprover (.merge (hlender.trans Prover.reached_lent) hforks),
    (reserved_rows 3).2.1 hbuilder ((Reached.refl _).performAll _), vk, pk, hends.1, hpk, hmarks⟩

end CircuitLayout
