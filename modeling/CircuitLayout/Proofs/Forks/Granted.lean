import CircuitLayout.Proofs.Forks.FailedMerges

namespace CircuitLayout

/-! # Which forks are granted

An assignment checks the ranges of a fork against the rows that it may write, and then each of its
stores checks them again and lends them out. Since the stores of every assignment keep step, they all
agree, and a request is granted as a whole or refused as a whole. Main statement: `forks_granted`, for
provers and key builders, roots and forks, whatever was called, forked and merged before.
-/

/-! ## Ranges -/

/-- Does a window allow to fork over ranges: none is inverted, each lies in the window, and each stops
where the later ones start, or before? -/
structure RowSpan.Allows (window : RowSpan) (ranges : List RowSpan) : Prop where
  ordered : ∀ r ∈ ranges, r.start ≤ r.stop
  covered : ∀ r ∈ ranges, window.Covers r
  apart : ranges.Pairwise fun r s => r.stop ≤ s.start

namespace Store

/-- The check passes if no range is inverted, none starts before the cursor or stops behind the window,
and each stops where the later ones start, or before. -/
theorem checkRanges_cursor_iff {window : RowSpan} {cursor : Nat} {ranges : List RowSpan} :
    checkRanges window cursor ranges = .ok () ↔
      (∀ r ∈ ranges, cursor ≤ r.start ∧ r.start ≤ r.stop ∧ r.stop ≤ window.stop) ∧
        ranges.Pairwise fun r s => r.stop ≤ s.start := by
  induction ranges generalizing cursor with
  | nil => simp [checkRanges]
  | cons r ranges ih =>
    rw [checkRanges, List.forall_mem_cons, List.pairwise_cons]
    -- the cursor is the end of the range before
    split
    · next hmisses =>
      simp only [reduceCtorEq, false_iff, not_and]
      rintro ⟨hfits, -⟩
      omega
    · next hfits =>
      rw [ih]
      constructor
      · -- a later range lies behind this one, hence behind the cursor
        rintro ⟨hlater, hapart⟩
        refine ⟨⟨by omega, fun s hs => ?_⟩, fun s hs => (hlater s hs).1, hapart⟩
        have := hlater s hs
        omega
      · rintro ⟨⟨-, hlater⟩, hfirst, hapart⟩
        exact ⟨fun s hs => ⟨hfirst s hs, (hlater s hs).2⟩, hapart⟩

/-- The check passes for the ranges that a window allows. -/
theorem checkRanges_iff_allows {window : RowSpan} {ranges : List RowSpan} :
    checkRanges window window.start ranges = .ok () ↔ window.Allows ranges := by
  rw [checkRanges_cursor_iff]
  constructor
  · rintro ⟨hranges, hapart⟩
    exact ⟨fun r hr => (hranges r hr).2.1, fun r hr => ⟨(hranges r hr).1, (hranges r hr).2.2⟩, hapart⟩
  · rintro ⟨hordered, hcovered, hapart⟩
    exact ⟨fun r hr => ⟨(hcovered r hr).1, hordered r hr, (hcovered r hr).2⟩, hapart⟩

end Store

/-- What a window allows, a larger one allows. -/
theorem RowSpan.Allows.within {window rows : RowSpan} {ranges : List RowSpan}
    (h : window.Allows ranges) (hrows : rows.Covers window) : rows.Allows ranges :=
  { h with covered := fun r hr => hrows.trans (h.covered r hr) }

instance (window : RowSpan) (ranges : List RowSpan) : Decidable (window.Allows ranges) :=
  decidable_of_iff _ Store.checkRanges_iff_allows

/-! ## Faults -/

namespace Run

variable {σ τ α β : Type} {K : Fault → Prop}

/-- Does a run fail only with faults that have a property? -/
def Faults (K : Fault → Prop) (m : Run σ α) : Prop :=
  ∀ s fault, (m s).result = .error fault → K fault

theorem Faults.get : Faults K (get : Run σ σ) := by
  intro s fault hfault
  cases hfault

/-- What cannot fail has no faults. -/
theorem Faults.pure (a : α) : Faults K (Pure.pure a : Run σ α) := by
  intro s fault hfault
  cases hfault

theorem Faults.emit (e : Event) : Faults K (emit e : Run σ Unit) := by
  intro s fault hfault
  cases hfault

/-- A check fails with the one fault it names. -/
theorem Faults.refuse (condition : Prop) [Decidable condition] {fault : Fault} (h : K fault) :
    Faults K (refuse condition fault : Run σ Unit) := by
  intro s fault' hfault
  unfold Run.refuse at hfault
  split at hfault
  · obtain rfl : fault = fault' := Except.error.inj hfault
    exact h
  · cases hfault

/-- The faults of two runs are those of the first and those of the second. -/
theorem Faults.bind {m : Run σ α} {f : α → Run σ β} (hm : Faults K m) (hf : ∀ a, Faults K (f a)) :
    Faults K (m >>= f) := by
  intro s fault hfault
  rcases of_bind_error hfault with ⟨hfirst, -⟩ | ⟨a, t, -, hrest, -⟩
  · exact hm s fault hfirst
  · exact hf a t fault hrest

/-- The faults of a loop are those of its rounds. -/
theorem Faults.each {f : β → Run σ α} {xs : List β} (hf : ∀ x, Faults K (f x)) :
    Faults K (each f xs) := by
  intro s fault hfault
  obtain ⟨before, x, after, results, u, -, -, hx, -⟩ := of_each_error hfault
  exact hf x u fault hx

end Run

/-! ## Stores -/

namespace Store

variable {α : Type} [Inhabited α] {s : Store α} {window range : RowSpan} {width : Nat}

/-- Does a part show exactly the cells of a store that lie on some rows? Nothing of the part is lent,
and all its cells can be read. -/
structure Shows (range : RowSpan) (s part : Store α) : Prop where
  window_eq : part.window = range
  lent_eq : part.lent = []
  get_iff : ∀ column row value,
    part.get column row = .ok value ↔ row ∈ range ∧ s.get column row = .ok value
  readable : ∀ column < s.width, ∀ row ∈ range, ∃ value, part.get column row = .ok value

/-- A store that lends rows is not split. -/
theorem split_of_lent {α : Type} {s : Store α} {ranges : List RowSpan} (hlent : s.lent ≠ []) :
    s.split ranges = .error (.alreadyLent s.window) := by
  have hlends : s.isLent = true := by simpa [isLent] using hlent
  simp only [split, hlends, if_true]
  rfl

/-- A part of a store shows its rows. -/
theorem HasShape.shows_part (h : s.HasShape window width) (hlent : s.lent = [])
    (hrange : window.Covers range) : s.Shows range (s.part range) := by
  have hpart := h.part hrange
  constructor
  case window_eq => rfl
  case lent_eq => rfl
  -- a read sees the cell of the store iff its row is one of the range
  case get_iff =>
    intro column row value
    rw [hpart.get_eq_ok_iff rfl, h.get_eq_ok_iff hlent]
    constructor
    · rintro ⟨⟨hcolumn, hrow⟩, hcell⟩
      rw [h.cell?_part hrange hcolumn hrow] at hcell
      exact ⟨hrow, ⟨hcolumn, hrange.mem hrow⟩, hcell⟩
    · rintro ⟨hrow, ⟨hcolumn, -⟩, hcell⟩
      rw [← h.cell?_part hrange hcolumn hrow] at hcell
      exact ⟨⟨hcolumn, hrow⟩, hcell⟩
  -- a part lends nothing, so all its rows are open
  case readable =>
    intro column hcolumn row hrow
    obtain ⟨_, value, -, -, hget⟩ := hpart.get_eq_ok rfl (h.width_eq ▸ hcolumn) hrow
    exact ⟨value, hget⟩

end Store

/-! ## Boards -/

namespace Board

variable {φ : Type} {b : Board φ} {schema : Schema} {rows : RowSpan} {ranges : List RowSpan}

/-- Ranges are refused as faults of the synthesis. -/
theorem faults_grant (ranges : List RowSpan) :
    Run.Faults (·.kind = .synthesis) (grant ranges : Run (Board φ) Unit) := by
  have hrange : ∀ window index cursor range,
      Run.Faults (·.kind = .synthesis) (grantRange window index cursor range : Run (Board φ) Unit) := by
    intro window index cursor range
    refine .bind (.refuse _ rfl) fun _ => .bind (.refuse _ rfl) fun _ => ?_
    exact .bind (.refuse _ rfl) fun _ => .emit _
  refine .bind (.bind .get fun _ => .refuse _ rfl) fun _ => ?_
  refine Run.Faults.get.bind fun b => ?_
  exact (Run.Faults.each fun x => hrange _ _ _ _).bind fun _ => Run.Faults.pure _

/-- Ranges are granted in the synthesis if the window allows them; else the board stays as it is. -/
theorem grant_cases (b : Board φ) (ranges : List RowSpan) :
    ((b.phase = .synthesizing ∧ b.window.Allows ranges) ∧ (grant ranges).Ends b () b) ∨
      ¬ (b.phase = .synthesizing ∧ b.window.Allows ranges) ∧
        (grant ranges b).state = b ∧
          ∃ fault, fault.kind = .synthesis ∧ (grant ranges b).result = .error fault := by
  have hiff : (grant ranges).Ends b () b ↔ b.phase = .synthesizing ∧ b.window.Allows ranges := by
    rw [ends_grant, Store.checkRanges_iff_allows]
    simp
  have hsame : (grant ranges b).state = b := keeps_grant (P := (· = b)) ranges b rfl
  -- granting leaves the board, so only its answer is in question
  cases hresult : (grant ranges b).result with
  | ok =>
    have hends : (grant ranges).Ends b () b := ⟨hresult, hsame⟩
    exact .inl ⟨hiff.1 hends, hends⟩
  | error fault =>
    refine .inr ⟨fun hboth => ?_, hsame, fault, faults_grant ranges b fault hresult, rfl⟩
    rw [(hiff.2 hboth).1] at hresult
    cases hresult

/-- May a board be forked over ranges? -/
def Grantable (b : Board φ) (ranges : List RowSpan) : Prop :=
  b.phase = .synthesizing ∧ b.fixed.lent = [] ∧ b.window.Allows ranges

instance (b : Board φ) (ranges : List RowSpan) : Decidable (b.Grantable ranges) :=
  inferInstanceAs (Decidable (b.phase = .synthesizing ∧ b.fixed.lent = [] ∧ b.window.Allows ranges))

/-- Does a fork show exactly the fixed cells and selectors of a board that lie on some rows? -/
structure Shows [Inhabited φ] (range : RowSpan) (b f : Board φ) : Prop where
  window_eq : f.window = range
  fixed : b.fixed.Shows range f.fixed
  selectors : b.selectors.Shows range f.selectors

/-- The fork of a board shows its cells over the range. -/
theorem Even.shows_forkOver [Inhabited φ] (h : b.Even schema rows) (hlent : b.fixed.lent = [])
    {range : RowSpan} (hrange : b.window.Covers range) : b.Shows range (b.forkOver range) where
  window_eq := rfl
  fixed := h.fixed.shows_part hlent (h.covers.trans hrange)
  selectors := h.selectors.shows_part (h.lent_eq.trans hlent) (h.covers.trans hrange)

/-- A board that lends rows is not carved. -/
theorem carve_of_lent (hlent : b.fixed.lent ≠ []) :
    carve ranges b =
      ⟨.error (.alreadyLent b.fixed.window), b, [.raised (.alreadyLent b.fixed.window)]⟩ := by
  simp only [carve, Run.bind_apply, Run.get, Run.ofExcept, Run.raise, Store.split_of_lent hlent]
  rfl

/-- What is granted is carved out of the stores of a board that keep step. -/
theorem Even.ends_carve_of_grantable (h : b.Even schema rows) (hgrant : b.Grantable ranges) :
    (carve ranges).Ends b (ranges.map b.forkOver) (b.lend ranges) :=
  h.ends_carve hgrant.2.1 (Store.checkRanges_iff_allows.2 (hgrant.2.2.within h.covers))

end Board

/-- Does an assignment grant forks over ranges exactly in the synthesis, when nothing of it is lent and
its window allows the ranges? Each fork then shows the cells of its range and no others. A request that
is refused has no effect. -/
structure Grants {σ φ : Type} [Assignment σ] (board : σ → Board φ) (lend : List RowSpan → σ → σ)
    (Shows : RowSpan → σ → σ → Prop) (ranges : List RowSpan) (s : σ) : Prop where
  granted_iff : (∃ forks t, (Assignment.fork ranges).Ends s forks t) ↔ (board s).Grantable ranges
  granted : ∀ forks t, (Assignment.fork ranges).Ends s forks t →
    List.Forall₂ (fun range f => Shows range s f) ranges forks ∧ t = lend ranges s
  refused : ∀ fault, (Assignment.fork ranges s : Outcome σ (List σ)).result = .error fault →
    fault.kind = .synthesis ∧ (Assignment.fork ranges s : Outcome σ (List σ)).state = s

/-- A request is granted or refused, in one of two ways. -/
theorem Grants.of_cases {σ φ : Type} [Assignment σ] {board : σ → Board φ}
    {lend : List RowSpan → σ → σ} {Shows : RowSpan → σ → σ → Prop} {ranges : List RowSpan} {s : σ}
    {sliver : RowSpan → σ}
    (hshows : (board s).Grantable ranges → ∀ range ∈ ranges, Shows range s (sliver range))
    (hcases : ((board s).Grantable ranges ∧
        (Assignment.fork ranges).Ends s (ranges.map sliver) (lend ranges s)) ∨
      ¬ (board s).Grantable ranges ∧ ∃ fault, fault.kind = .synthesis ∧
        (Assignment.fork ranges s : Outcome σ (List σ)).result = .error fault ∧
        (Assignment.fork ranges s : Outcome σ (List σ)).state = s) :
    Grants board lend Shows ranges s := by
  rcases hcases with ⟨hgrant, hends⟩ | ⟨hnot, fault, hkind, hresult, hstate⟩
  · refine ⟨⟨fun _ => hgrant, fun _ => ⟨_, _, hends⟩⟩, ?_, ?_⟩
    · -- a fork that is granted ends in one way only
      intro forks t hends'
      obtain ⟨rfl, rfl⟩ := hends'.unique hends
      refine ⟨List.forall₂_map_right_iff.2 (List.forall₂_same.2 ?_), rfl⟩
      exact hshows hgrant
    · intro fault hresult
      rw [hends.1] at hresult
      cases hresult
  · -- a fork that is refused has no end
    have hnone : ∀ forks t, ¬ (Assignment.fork ranges).Ends s forks t := by
      intro forks t hends
      rw [hends.1] at hresult
      cases hresult
    refine ⟨⟨?_, fun hgrant => absurd hgrant hnot⟩, ?_, ?_⟩
    · rintro ⟨forks, t, hends⟩
      exact absurd hends (hnone forks t)
    · intro forks t hends
      exact absurd hends (hnone forks t)
    · intro fault' hresult'
      obtain rfl : fault = fault' := Except.error.inj (hresult.symm.trans hresult')
      exact ⟨hkind, hstate⟩

/-! ## Provers -/

namespace Prover

variable {schema : Schema} {rows : RowSpan} {p : Prover} {ranges : List RowSpan}

/-- A prover of which rows are lent. -/
def lend (ranges : List RowSpan) (p : Prover) : Prover :=
  { p with board := p.board.lend ranges, advice := { p.advice with lent := ranges } }

/-- Does a fork show exactly the cells of a prover that lie on some rows? -/
structure Shows (range : RowSpan) (p f : Prover) : Prop where
  board : p.board.Shows range f.board
  advice : p.advice.Shows range f.advice

/-- The fork of a prover shows its cells over the range. -/
theorem Even.shows_sliver (h : p.Even schema rows) (hlent : p.board.fixed.lent = [])
    {range : RowSpan} (hrange : p.board.window.Covers range) : p.Shows range (p.sliver range) where
  board := h.board.shows_forkOver hlent hrange
  advice := h.advice.shows_part (h.lent_eq.trans hlent) (h.board.covers.trans hrange)

/-- A prover grants the forks, or refuses them and stays as it is. -/
theorem Even.fork_cases (h : p.Even schema rows) (ranges : List RowSpan) :
    (p.board.Grantable ranges ∧ (fork ranges).Ends p (ranges.map p.sliver) (p.lend ranges)) ∨
      ¬ p.board.Grantable ranges ∧ ∃ fault, fault.kind = .synthesis ∧
        (fork ranges p).result = .error fault ∧ (fork ranges p).state = p := by
  rcases Board.grant_cases p.board ranges with ⟨⟨hphase, hallows⟩, hgrant⟩ |
    ⟨hnot, hsame, fault, hkind, hresult⟩
  · by_cases hlent : p.board.fixed.lent = []
    · have hgrantable : p.board.Grantable ranges := ⟨hphase, hlent, hallows⟩
      have hsplit : p.advice.split ranges =
          .ok (ranges.map p.advice.part, { p.advice with lent := ranges }) := by
        refine Store.split_eq_ok_iff.2 ⟨h.lent_eq.trans hlent, ?_, rfl, rfl⟩
        rw [h.advice.window_eq]
        exact Store.checkRanges_iff_allows.2 (hallows.within h.board.covers)
      -- the three stores lend alike, so that all of them may be split
      refine .inl ⟨hgrantable, (ends_fork ..).2 ⟨_, _, _, _, _, hgrant, hsplit,
        h.board.ends_carve_of_grantable hgrantable, (zip_carved p ranges).symm, rfl⟩⟩
    · -- the ranges are granted, but the advice is lent already
      have hgranted : (onBoard (Board.grant ranges)).Ends p () p :=
        (ends_onBoard ..).2 ⟨p.board, hgrant, rfl⟩
      have hsplit : p.advice.split ranges = .error (.alreadyLent p.advice.window) :=
        Store.split_of_lent (h.lent_eq.symm ▸ hlent)
      refine .inr ⟨fun hgrantable => hlent hgrantable.2.1, .alreadyLent p.advice.window, rfl, ?_, ?_⟩
      · rw [fork, (hgranted.bind_eq _).1, Run.get_bind_apply, hsplit]
        rfl
      · rw [fork, (hgranted.bind_eq _).2, Run.get_bind_apply, hsplit]
        rfl
  · -- the ranges were refused, and the prover is as it was
    have hfails : (onBoard (Board.grant ranges) p).result = .error fault := hresult
    refine .inr ⟨fun hgrantable => hnot ⟨hgrantable.1, hgrantable.2.2⟩, fault, hkind, ?_, ?_⟩
    · rw [fork, (Run.bind_eq_of_error hfails _).1]
    · rw [fork, (Run.bind_eq_of_error hfails _).2]
      exact congrArg (fun b => ({ p with board := b } : Prover)) hsame

end Prover

/-! ## Key builders -/

namespace KeyBuilder

variable {schema : Schema} {rows : RowSpan} {k : KeyBuilder} {ranges : List RowSpan}

/-- A key builder of which rows are lent. -/
def lend (ranges : List RowSpan) (k : KeyBuilder) : KeyBuilder := ⟨k.board.lend ranges⟩

/-- Does a fork show exactly the cells of a key builder that lie on some rows? -/
def Shows (range : RowSpan) (k f : KeyBuilder) : Prop := k.board.Shows range f.board

/-- A key builder grants the forks, or refuses them and stays as it is. -/
theorem Even.fork_cases (h : k.Even schema rows) (ranges : List RowSpan) :
    (k.board.Grantable ranges ∧ (fork ranges).Ends k (ranges.map k.sliver) (k.lend ranges)) ∨
      ¬ k.board.Grantable ranges ∧ ∃ fault, fault.kind = .synthesis ∧
        (fork ranges k).result = .error fault ∧ (fork ranges k).state = k := by
  rcases Board.grant_cases k.board ranges with ⟨⟨hphase, hallows⟩, hgrant⟩ |
    ⟨hnot, hsame, fault, hkind, hresult⟩
  · by_cases hlent : k.board.fixed.lent = []
    · have hgrantable : k.board.Grantable ranges := ⟨hphase, hlent, hallows⟩
      refine .inl ⟨hgrantable, (ends_fork ..).2
        ⟨_, _, hgrant, Board.Even.ends_carve_of_grantable h hgrantable, ?_⟩⟩
      exact List.map_map.symm
    · -- the ranges are granted, but the board is lent already
      have hgranted : (onBoard (Board.grant ranges)).Ends k () k :=
        (ends_onBoard ..).2 hgrant
      have hfails : (onBoard (Board.carve ranges) k).result =
          .error (.alreadyLent k.board.fixed.window) := by
        show (Board.carve ranges k.board).result = _
        rw [Board.carve_of_lent hlent]
      have hsame : (onBoard (Board.carve ranges) k).state = k := by
        show KeyBuilder.mk (Board.carve ranges k.board).state = k
        rw [Board.carve_of_lent hlent]
      refine .inr ⟨fun hgrantable => hlent hgrantable.2.1, .alreadyLent k.board.fixed.window, rfl,
        ?_, ?_⟩
      · rw [fork, (hgranted.bind_eq _).1, (Run.bind_eq_of_error hfails _).1]
      · rw [fork, (hgranted.bind_eq _).2, (Run.bind_eq_of_error hfails _).2, hsame]
  · -- the ranges were refused, and the key builder is as it was
    have hfails : (onBoard (Board.grant ranges) k).result = .error fault := hresult
    refine .inr ⟨fun hgrantable => hnot ⟨hgrantable.1, hgrantable.2.2⟩, fault, hkind, ?_, ?_⟩
    · rw [fork, (Run.bind_eq_of_error hfails _).1]
    · rw [fork, (Run.bind_eq_of_error hfails _).2]
      exact congrArg KeyBuilder.mk hsame

end KeyBuilder

/-! ## Families -/

/-- In all that comes of a new prover or key builder and of its forks, the stores lend the same rows.
Forks over ranges are granted exactly in the synthesis, when no rows are lent and the ranges follow
each other in the window, none of them inverted. Each fork then shows the cells of its range and no
others; a request that is refused fails as a fault of the synthesis and has no effect. -/
theorem forks_granted (logRows : Nat) (schema : Schema) (ranges : List RowSpan) :
    (∀ {inputs : List (List Goldilocks)} {new p : Prover},
      Prover.create logRows schema inputs = .ok new → Descends new p →
      (p.advice.lent = p.board.fixed.lent ∧ p.board.selectors.lent = p.board.fixed.lent) ∧
        Grants Prover.board Prover.lend Prover.Shows ranges p) ∧
    ∀ {new k : KeyBuilder},
      KeyBuilder.create logRows schema = .ok new → Descends new k →
      k.board.selectors.lent = k.board.fixed.lent ∧
        Grants KeyBuilder.board KeyBuilder.lend KeyBuilder.Shows ranges k := by
  constructor
  · intro inputs new p hnew hp
    obtain ⟨⟨hgrid, -⟩, -, rfl⟩ := Prover.create_eq_ok_iff.1 hnew
    obtain ⟨rows, heven⟩ := hp.of_familyKeeps Prover.familyKeeps (.unused hgrid schema inputs)
    -- a descendant lends of all its stores alike
    refine ⟨⟨heven.lent_eq, heven.board.lent_eq⟩, .of_cases ?_ (heven.fork_cases ranges)⟩
    intro hgrantable range hrange
    exact heven.shows_sliver hgrantable.2.1 (hgrantable.2.2.covered range hrange)
  · intro new k hnew hk
    obtain ⟨⟨hgrid, -⟩, rfl⟩ := KeyBuilder.create_eq_ok_iff.1 hnew
    obtain ⟨rows, heven⟩ := hk.of_familyKeeps KeyBuilder.familyKeeps (.unused hgrid schema)
    refine ⟨Board.Even.lent_eq heven, .of_cases ?_ (KeyBuilder.Even.fork_cases heven ranges)⟩
    intro hgrantable range hrange
    exact Board.Even.shows_forkOver heven hgrantable.2.1 (hgrantable.2.2.covered range hrange)

/-! ### Ranges that touch, and a fork after a merge that failed -/

/-- Ranges that touch each other and the end of the rows that may be used; one of them is empty. -/
def adjacent : List RowSpan := [⟨0, 4⟩, ⟨4, 4⟩, ⟨4, 11⟩]

/-- What is left of a prover that lends rows when it fails to take them back. -/
def Prover.unmerged : Prover := (merge ([borrower].map .fork) lent).state

/-- A key builder whose synthesis has begun. -/
def KeyBuilder.begun : KeyBuilder := AssignmentCall.performAll [.start] (unused 4 Prover.oneSided)

/-- Such ranges are granted to a prover and to a key builder. After the merge that failed the prover
still lends rows, so that the same ranges are refused to it. -/
theorem forks_granted_adjacent :
    ((∃ forks, (Assignment.fork adjacent).Ends Prover.lender forks (Prover.lender.lend adjacent)) ∧
      ∃ fault, fault.kind = .synthesis ∧
        (Assignment.fork adjacent Prover.unmerged : Outcome Prover (List Prover)).result =
          .error fault) ∧
    ∃ forks, (Assignment.fork adjacent).Ends KeyBuilder.begun forks
      (KeyBuilder.begun.lend adjacent) := by
  have hnew : Prover.create 4 Prover.oneSided [] = .ok (.unused 4 Prover.oneSided []) :=
    Prover.create_eq_ok_iff.2 ⟨by decide, by decide, rfl⟩
  have hlender : Reached (Prover.unused 4 Prover.oneSided []) Prover.lender :=
    (Reached.refl _).performAll _
  have hunmerged : Reached (Prover.unused 4 Prover.oneSided []) Prover.unmerged := by
    refine hlender.trans (.merge Prover.reached_lent fun f hf => ?_)
    obtain rfl := List.mem_singleton.1 hf
    exact Prover.forked_borrower
  refine ⟨⟨?_, ?_⟩, ?_⟩
  · obtain ⟨-, hgrants⟩ := (forks_granted 4 Prover.oneSided adjacent).1 hnew (.reached hlender)
    obtain ⟨forks, t, hends⟩ := hgrants.granted_iff.2 (by decide +kernel)
    obtain ⟨-, rfl⟩ := hgrants.granted forks t hends
    exact ⟨forks, hends⟩
  · obtain ⟨-, hgrants⟩ := (forks_granted 4 Prover.oneSided adjacent).1 hnew (.reached hunmerged)
    -- rows are still lent here, so that nothing can be granted
    cases hresult : (Assignment.fork adjacent Prover.unmerged : Outcome Prover (List Prover)).result with
    | ok forks =>
      have hgrantable := hgrants.granted_iff.1 ⟨forks, _, hresult, rfl⟩
      exact absurd hgrantable (by decide +kernel)
    | error fault => exact ⟨fault, (hgrants.refused fault hresult).1, rfl⟩
  · obtain ⟨-, hgrants⟩ := (forks_granted 4 Prover.oneSided adjacent).2
      (KeyBuilder.create_eq_ok_iff.2 ⟨by decide, rfl⟩) (.reached ((Reached.refl _).performAll [.start]))
    obtain ⟨forks, t, hends⟩ := hgrants.granted_iff.2 (by decide +kernel)
    obtain ⟨-, rfl⟩ := hgrants.granted forks t hends
    exact ⟨forks, hends⟩

end CircuitLayout
