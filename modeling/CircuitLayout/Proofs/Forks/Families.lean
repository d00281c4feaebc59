import CircuitLayout.Proofs.Circuit.Specs
import CircuitLayout.Proofs.Forks.KeyBuilders
import CircuitLayout.Proofs.Forks.Provers
import CircuitLayout.Proofs.Simulation.Reached

namespace CircuitLayout

/-! # Families of forks

The stores of an assignment keep step, in a root as in its forks and their forks: they lie over the
same rows and the same rows of them are lent out. So one of them takes parts back exactly if the
others do. Main statements: `Prover.familyKeeps` and `KeyBuilder.familyKeeps`.
-/

/-- What a run keeps, what follows it need only keep where the run ended well. -/
theorem Run.Keeps.bind_of_ends {σ α β : Type} {P : σ → Prop} {m : Run σ α} {f : α → Run σ β}
    (hm : Run.Keeps P m) (hf : ∀ s a t, m.Ends s a t → P t → P (f a t).state) :
    Run.Keeps P (m >>= f) := by
  intro s hs
  have hmid := hm s hs
  rw [bind_apply]
  cases h : m s with
  | mk result t es =>
    rw [h] at hmid
    cases result with
    | error fault => exact hmid
    | ok a => exact hf s a t ⟨by rw [h], by rw [h]⟩ hmid

/-- What holds where a run ends well holds of what it leaves. -/
theorem Run.state_of_ends {σ α : Type} {P : σ → Prop} {m : Run σ α} {s t : σ}
    (h : ∃ a, m.Ends s a t) (ht : P t) : P (m s).state := by
  obtain ⟨a, ha⟩ := h
  rw [ha.2]
  exact ht

/-! ## Stores -/

namespace Store

variable {α : Type} {s : Store α}

/-- Parts of the right width are taken back exactly if they lie over the rows that are lent. -/
theorem exists_rejoin_iff {parts : List (Store α)} (hparts : ∀ p ∈ parts, p.width = s.width) :
    (∃ s', s.rejoin parts = .ok s') ↔ parts.map (·.window) = s.lent := by
  -- with the widths settled, the parts fit iff their windows are the lent ranges
  have hwindows : ∀ (parts : List (Store α)) (lent : List RowSpan),
      (∀ p ∈ parts, p.width = s.width) →
        (List.Forall₂ (fun (r : RowSpan) (p : Store α) => p.window = r ∧ p.width = s.width) lent
          parts ↔ parts.map (·.window) = lent) := by
    intro parts
    induction parts with
    | nil =>
      intro lent _
      cases lent <;> simp
    | cons p parts ih =>
      intro lent hall
      have hp := hall p (List.mem_cons_self ..)
      cases lent with
      | nil => simp
      | cons r lent =>
        rw [List.forall₂_cons, ih lent fun q hq => hall q (List.mem_cons_of_mem _ hq)]
        simp [hp]
  simp only [rejoin_eq_ok_iff, exists_and_left, exists_eq, and_true]
  constructor
  · rintro ⟨hlength, hcheck⟩
    exact (hwindows _ _ hparts).1 ((checkParts_eq_ok_iff hlength).1 hcheck)
  · intro h
    have hlength : parts.length = s.lent.length := by
      rw [← h, List.length_map]
    exact ⟨hlength, (checkParts_eq_ok_iff hlength).2 ((hwindows _ _ hparts).2 h)⟩

end Store

/-! ## Boards -/

namespace Board

variable {φ : Type} {logRows : Nat} {schema : Schema} {rows range : RowSpan} {b : Board φ}
  {fs : List (Board φ)}

/-- Do the stores of a board lie over the same rows, with the same rows lent out? The rows that may
be written are among them and may be used, and the rows that may be used are words. -/
structure Even (schema : Schema) (rows : RowSpan) (b : Board φ) : Prop where
  fixed : b.fixed.HasShape rows schema.fixedCount
  selectors : b.selectors.HasShape rows schema.selectorCount
  lent_eq : b.selectors.lent = b.fixed.lent
  covers : rows.Covers b.window
  usable : b.usable.Covers b.window
  words : b.usable.stop < Word.size

/-- No step lends fixed cells or takes them back. -/
theorem Step.lent_fixed {b c : Board φ} (h : Step b c) : c.fixed.lent = b.fixed.lent := by
  cases h with
  | cell h => exact Store.lent_of_set h
  | filled h => exact Store.lent_of_fill h
  | phase | selector | joined | kept => rfl

namespace Even

/-- No step makes a board uneven. -/
theorem stable : Stable (Even schema rows : Board φ → Prop) := by
  intro b c hstep hb
  -- what is written changes neither the shape nor what is lent
  cases hstep with
  | selector h =>
    exact { hb with
      selectors := hb.selectors.set h
      lent_eq := (Store.lent_of_set h).trans hb.lent_eq }
  | cell h =>
    exact { hb with
      fixed := hb.fixed.set h
      lent_eq := hb.lent_eq.trans (Store.lent_of_set h).symm }
  | filled h =>
    exact { hb with
      fixed := hb.fixed.fill h
      lent_eq := hb.lent_eq.trans (Store.lent_of_fill h).symm }
  | phase | joined | kept => exact { hb with }

/-- A new board is even over the grid. -/
theorem root (party : Party) (hgrid : logRows ≤ maxLogRows) (schema : Schema) (blank : φ) :
    (Board.root party logRows (Nat.pow 2 logRows) schema.reservedRows schema.fixedCount
      schema.selectorCount blank schema.equality).Even schema (grid logRows) where
  fixed := .replicate ..
  selectors := .replicate ..
  lent_eq := rfl
  covers := ⟨Nat.zero_le _, Nat.sub_le ..⟩
  usable := ⟨Nat.le_refl _, Nat.le_refl _⟩
  words := by
    have hrows := pow_lt_word hgrid
    show Nat.pow 2 logRows - schema.reservedRows < Word.size
    omega

/-! ### Forks -/

/-- A board that lends rows lends them of both stores. -/
theorem lend (h : b.Even schema rows) (ranges : List RowSpan) : (b.lend ranges).Even schema rows :=
  { h with
    fixed := h.fixed.lend ranges
    selectors := h.selectors.lend ranges
    lent_eq := rfl }

/-- A board is carved if nothing of it is lent and its rows can be split. -/
theorem ends_carve (h : b.Even schema rows) (hlent : b.fixed.lent = []) {ranges : List RowSpan}
    (hranges : Store.checkRanges rows rows.start ranges = .ok ()) :
    (carve ranges).Ends b (ranges.map b.forkOver) (b.lend ranges) := by
  refine (Board.ends_carve ranges _).2 ⟨⟨hlent, h.lent_eq.trans hlent⟩, ?_, ?_, rfl, rfl⟩
  · rw [h.fixed.window_eq]
    exact hranges
  · rw [h.selectors.window_eq]
    exact hranges

/-- A board that is not carved stays as it is. -/
theorem keeps_carve (ranges : List RowSpan) :
    Run.Keeps (Even schema rows : Board φ → Prop) (carve ranges) := by
  intro b hb
  cases hsplit : b.fixed.split ranges with
  | error fault =>
    simp only [carve, Run.bind_apply, Run.get, Run.ofExcept, Run.raise, hsplit]
    exact hb
  | ok x =>
    -- where the fixed cells are split, the selectors are
    obtain ⟨hlent, hranges, -, -⟩ := Store.split_eq_ok_iff.1 hsplit
    rw [hb.fixed.window_eq] at hranges
    rw [(hb.ends_carve hlent hranges).2]
    exact hb.lend ranges

/-- The forks over ranges of the rows that may be written. -/
theorem forkOver (h : b.Even schema rows) (hrange : b.window.Covers range) :
    (b.forkOver range).Even schema range where
  fixed := h.fixed.part (h.covers.trans hrange)
  selectors := h.selectors.part (h.covers.trans hrange)
  lent_eq := rfl
  covers := ⟨Nat.le_refl _, Nat.le_refl _⟩
  usable := h.usable.trans hrange
  words := h.words

/-- The ranges that are granted lie in the window. -/
theorem covers_of_checkRanges {window : RowSpan} {ranges : List RowSpan}
    (h : Store.checkRanges window window.start ranges = .ok ()) : ∀ r ∈ ranges, window.Covers r := by
  obtain ⟨hfollow, hordered⟩ := Store.follow_of_checkRanges h (Nat.le_refl _)
  intro r hr
  exact (hfollow.mem hordered r hr).1

/-! ### Merges -/

/-- Boards that are even take parts back in all their stores, or in none. -/
theorem exists_rejoin_iff (h : b.Even schema rows)
    (hfs : ∀ f ∈ fs, ∃ range, Even schema range f) :
    ((∃ fixed, b.fixed.rejoin (fs.map (·.fixed)) = .ok fixed) ↔
      fs.map (·.fixed.window) = b.fixed.lent) ∧
    ((∃ selectors, b.selectors.rejoin (fs.map (·.selectors)) = .ok selectors) ↔
      fs.map (·.fixed.window) = b.fixed.lent) := by
  -- the forks of a family are as wide as their root
  have hfixed : ∀ p ∈ fs.map (·.fixed), p.width = b.fixed.width := by
    intro p hp
    obtain ⟨f, hf, rfl⟩ := List.mem_map.1 hp
    obtain ⟨range, hrange⟩ := hfs f hf
    exact hrange.fixed.width_eq.trans h.fixed.width_eq.symm
  have hselectors : ∀ p ∈ fs.map (·.selectors), p.width = b.selectors.width := by
    intro p hp
    obtain ⟨f, hf, rfl⟩ := List.mem_map.1 hp
    obtain ⟨range, hrange⟩ := hfs f hf
    exact hrange.selectors.width_eq.trans h.selectors.width_eq.symm
  -- the two stores of a fork have one window
  have hwindows : (fs.map (·.selectors)).map (·.window) = fs.map (·.fixed.window) := by
    rw [List.map_map]
    refine List.map_congr_left fun f hf => ?_
    obtain ⟨range, hrange⟩ := hfs f hf
    exact hrange.selectors.window_eq.trans hrange.fixed.window_eq.symm
  rw [Store.exists_rejoin_iff hfixed, Store.exists_rejoin_iff hselectors, hwindows, h.lent_eq,
    List.map_map]
  exact ⟨Iff.rfl, Iff.rfl⟩

/-- If the forks lie over the rows that are lent, they are taken back. -/
theorem ends_rejoin (h : b.Even schema rows) (hfs : ∀ f ∈ fs, ∃ range, Even schema range f)
    (hwindows : fs.map (·.fixed.window) = b.fixed.lent) :
    ∃ c, (rejoin fs).Ends b () c ∧ c.Even schema rows := by
  obtain ⟨fixed, hfixed⟩ := (h.exists_rejoin_iff hfs).1.2 hwindows
  obtain ⟨selectors, hselectors⟩ := (h.exists_rejoin_iff hfs).2.2 hwindows
  refine ⟨_, (Board.ends_rejoin fs ()).2 ⟨fixed, selectors, hfixed, hselectors, rfl⟩, ?_⟩
  refine { h with
    fixed := h.fixed.rejoin hfixed
    selectors := h.selectors.rejoin hselectors
    lent_eq := ?_ }
  obtain ⟨-, -, rfl⟩ := Store.rejoin_eq_ok_iff.1 hfixed
  obtain ⟨-, -, rfl⟩ := Store.rejoin_eq_ok_iff.1 hselectors
  rfl

/-- If they do not, the board stays as it is. -/
theorem state_of_rejoin_error (h : b.Even schema rows) (hfs : ∀ f ∈ fs, ∃ range, Even schema range f)
    {fault : Fault} (herror : (rejoin fs b).result = .error fault) :
    (rejoin fs b).state = b ∧ fs.map (·.fixed.window) ≠ b.fixed.lent := by
  have hwindows : fs.map (·.fixed.window) ≠ b.fixed.lent := by
    intro hwindows
    obtain ⟨c, hends, -⟩ := h.ends_rejoin hfs hwindows
    rw [hends.1] at herror
    cases herror
  refine ⟨?_, hwindows⟩
  cases hfixed : b.fixed.rejoin (fs.map (·.fixed)) with
  | ok fixed => exact absurd ((h.exists_rejoin_iff hfs).1.1 ⟨fixed, hfixed⟩) hwindows
  | error fault' => simp [rejoin, Run.bind_apply, Run.get, Run.ofExcept, Run.raise, hfixed]

/-- Rejoining leaves a board even, whether or not it succeeds. -/
theorem rejoin_state (h : b.Even schema rows) (hfs : ∀ f ∈ fs, ∃ range, Even schema range f) :
    (rejoin fs b).state.Even schema rows := by
  cases hresult : (rejoin fs b).result with
  | error fault =>
    rw [(h.state_of_rejoin_error hfs hresult).1]
    exact h
  | ok a =>
    obtain ⟨fixed, selectors, hfixed, -, -⟩ := (Board.ends_rejoin fs a).1 ⟨hresult, rfl⟩
    obtain ⟨c, hends, heven⟩ := h.ends_rejoin hfs ((h.exists_rejoin_iff hfs).1.1 ⟨fixed, hfixed⟩)
    rw [hends.2]
    exact heven

end Even

end Board

/-! ## Provers -/

namespace Prover

variable {logRows : Nat} {schema : Schema} {rows : RowSpan} {p : Prover} {fs : List Prover}

/-- The end of a merge: the cells of forks are taken back. -/
def rejoin (forks : List Prover) : Run Prover Unit := do
  let p ← Run.get
  let advice ← Run.ofExcept (p.advice.rejoin (forks.map (·.advice)))
  Run.set { p with advice := advice }
  onBoard (Board.rejoin (forks.map (·.board)))

/-- A merge takes copies and records over, one fork after another, and then the cells back. -/
theorem merge_eq (offers : List (Offer Prover)) :
    merge offers = (do
      onBoard (Board.requireSynthesizing "merge")
      let forks ← Run.each (fun (offer, i) => mergeOne i offer) offers.zipIdx
      rejoin forks) := rfl

/-- Do all stores of a prover lie over the same rows, with the same rows lent out? -/
structure Even (schema : Schema) (rows : RowSpan) (p : Prover) : Prop where
  board : p.board.Even schema rows
  advice : p.advice.HasShape rows schema.adviceCount
  lent_eq : p.advice.lent = p.board.fixed.lent

namespace Even

/-- No step makes a prover uneven. -/
theorem stable : Stable (Even schema rows) := by
  intro p q hstep hp
  cases hstep with
  | board h =>
    exact { hp with
      board := Board.Even.stable h hp.board
      lent_eq := hp.lent_eq.trans h.lent_fixed.symm }
  | cell h =>
    exact { hp with
      advice := hp.advice.set h
      lent_eq := (Store.lent_of_set h).trans hp.lent_eq }
  | record | scopes => exact { hp with }

/-- A new prover is even over the grid. -/
theorem unused (hgrid : logRows ≤ maxLogRows) (schema : Schema) (inputs : List (List Goldilocks)) :
    (Prover.unused logRows schema inputs).Even schema (Board.grid logRows) where
  board := .root _ hgrid ..
  advice := (isRoot_unused inputs).advice
  lent_eq := rfl

/-- The parts of the advice and the boards of the forks, put together. -/
theorem zip_carved (p : Prover) (ranges : List RowSpan) :
    ((ranges.map p.advice.part).zip (ranges.map p.board.forkOver)).map (fun x =>
      { p with board := x.2, advice := x.1, records := #[], current := none, scopes := [] }) =
      ranges.map p.sliver := by
  rw [List.zip_map', List.map_map]
  rfl

/-- Forking leaves a prover even, whether or not it succeeds. -/
theorem keeps_fork (ranges : List RowSpan) : Run.Keeps (Even schema rows) (fork ranges) := by
  refine (stable.keeps_onBoard fun _ _ => Board.keeps_grant ranges).bind fun _ => ?_
  intro p hp
  cases hsplit : p.advice.split ranges with
  | error fault =>
    simp only [Run.bind_apply, Run.get, Run.ofExcept, Run.raise, hsplit]
    exact hp
  | ok x =>
    obtain ⟨parts, advice⟩ := x
    obtain ⟨hlent, hranges, -, rfl⟩ := Store.split_eq_ok_iff.1 hsplit
    rw [hp.advice.window_eq] at hranges
    -- where the advice is split, the board is carved
    have hcarve := hp.board.ends_carve (hp.lent_eq ▸ hlent) hranges
    have heven : ({ p with board := p.board.lend ranges, advice := { p.advice with lent := ranges } } :
        Prover).Even schema rows := ⟨hp.board.lend ranges, hp.advice.lend ranges, rfl⟩
    -- the fork then ends, with all three stores lent
    refine Run.state_of_ends ?_ heven
    simp only [Run.ends_get_bind, Run.ends_ofExcept_bind, Run.ends_set_bind]
    exact ⟨_, _, hsplit, (ends_onBoard_bind ..).2 ⟨_, _, hcarve, (Run.ends_pure ..).2 ⟨rfl, rfl⟩⟩⟩

/-- What a fork gives and what it leaves. -/
theorem of_ends_fork {q : Prover} {ranges : List RowSpan} (hends : (fork ranges).Ends p fs q) :
    Store.checkRanges p.board.window p.board.window.start ranges = .ok () ∧
      fs = ranges.map p.sliver := by
  obtain ⟨b, parts, advice, boards, c, hgrant, hsplit, hcarve, rfl, -⟩ := (ends_fork ranges fs).1 hends
  obtain ⟨-, hranges, rfl⟩ := (Board.ends_grant ranges ()).1 hgrant
  obtain ⟨-, -, rfl, -⟩ := Store.split_eq_ok_iff.1 hsplit
  obtain ⟨-, -, -, rfl, -⟩ := (Board.ends_carve ranges boards).1 hcarve
  exact ⟨hranges, zip_carved p ranges⟩

/-- The fork of an even prover is even over its range. -/
theorem sliver (h : p.Even schema rows) {range : RowSpan} (hrange : p.board.window.Covers range) :
    (p.sliver range).Even schema range :=
  ⟨h.board.forkOver hrange, h.advice.part (h.board.covers.trans hrange), rfl⟩

/-! ### Merges -/

/-- The advice of forks is taken back exactly if they lie over the rows that are lent. -/
theorem exists_rejoin_iff (h : p.Even schema rows) (hfs : ∀ f ∈ fs, ∃ range, f.Even schema range) :
    (∃ advice, p.advice.rejoin (fs.map (·.advice)) = .ok advice) ↔
      fs.map (·.board.fixed.window) = p.board.fixed.lent := by
  have hadvice : ∀ a ∈ fs.map (·.advice), a.width = p.advice.width := by
    intro a ha
    obtain ⟨f, hf, rfl⟩ := List.mem_map.1 ha
    obtain ⟨range, hrange⟩ := hfs f hf
    exact hrange.advice.width_eq.trans h.advice.width_eq.symm
  rw [Store.exists_rejoin_iff hadvice, List.map_map, h.lent_eq]
  -- the advice of a fork has the window of its board
  have hwindows : fs.map ((·.window) ∘ fun f : Prover => f.advice) =
      fs.map (·.board.fixed.window) := by
    refine List.map_congr_left fun f hf => ?_
    obtain ⟨range, hrange⟩ := hfs f hf
    exact hrange.advice.window_eq.trans hrange.board.fixed.window_eq.symm
  rw [hwindows]

/-- The cells of all stores are taken back, or of none. -/
theorem rejoin_cases (h : p.Even schema rows) (hfs : ∀ f ∈ fs, ∃ range, f.Even schema range) :
    ((∃ q, (rejoin fs).Ends p () q ∧ q.Even schema rows) ∧
      fs.map (·.board.fixed.window) = p.board.fixed.lent) ∨
    ((rejoin fs p).state = p ∧ (∃ fault, (rejoin fs p).result = .error fault)) ∧
      fs.map (·.board.fixed.window) ≠ p.board.fixed.lent := by
  have hboards : ∀ b ∈ fs.map (·.board), ∃ range, b.Even schema range := by
    intro b hb
    obtain ⟨f, hf, rfl⟩ := List.mem_map.1 hb
    obtain ⟨range, hrange⟩ := hfs f hf
    exact ⟨range, hrange.board⟩
  -- the advice is rejoined first, and decides for the board as well
  cases hrejoin : p.advice.rejoin (fs.map (·.advice)) with
  | error fault =>
    refine .inr ⟨⟨?_, fault, ?_⟩, fun hwindows => ?_⟩
    · simp only [rejoin, Run.bind_apply, Run.get, Run.ofExcept, Run.raise, hrejoin]
    · simp only [rejoin, Run.bind_apply, Run.get, Run.ofExcept, Run.raise, hrejoin]
    · obtain ⟨advice, hok⟩ := (h.exists_rejoin_iff hfs).2 hwindows
      rw [hok] at hrejoin
      cases hrejoin
  | ok advice =>
    -- the windows are the lent ranges, so the board takes its parts back too
    have hwindows := (h.exists_rejoin_iff hfs).1 ⟨advice, hrejoin⟩
    obtain ⟨b, hends, heven⟩ := h.board.ends_rejoin hboards (by rw [List.map_map]; exact hwindows)
    have hlent : advice.lent = b.fixed.lent := by
      obtain ⟨-, -, hadvice⟩ := Store.rejoin_eq_ok_iff.1 hrejoin
      obtain ⟨fixed, selectors, hfixed, -, hb⟩ := (Board.ends_rejoin _ ()).1 hends
      obtain ⟨-, -, hfixed⟩ := Store.rejoin_eq_ok_iff.1 hfixed
      rw [hadvice, hb, hfixed]
    refine .inl ⟨⟨{ p with board := b, advice := advice }, ?_, heven, h.advice.rejoin hrejoin, hlent⟩,
      hwindows⟩
    simp only [rejoin, Run.ends_get_bind, Run.ends_ofExcept_bind, Run.ends_set_bind, ends_onBoard]
    exact ⟨_, hrejoin, _, hends, rfl⟩

/-- Merging leaves a prover even, whether or not it succeeds. -/
theorem keeps_merge (hfs : ∀ f ∈ fs, ∃ range, f.Even schema range) :
    Run.Keeps (Even schema rows) (merge (fs.map .fork)) := by
  rw [merge_eq]
  refine (stable.keeps_onBoard fun _ _ => Board.keeps_requireSynthesizing _).bind fun _ => ?_
  refine (stable.keeps_mergeOnes (fun _ _ hp => { hp with }) fs).bind_of_ends fun s forks t hends ht => ?_
  obtain ⟨rfl, -⟩ := ends_mergeOnes.1 hends
  rcases ht.rejoin_cases hfs with ⟨⟨q, hq, heven⟩, -⟩ | ⟨⟨hstate, -⟩, -⟩
  · exact Run.state_of_ends ⟨(), hq⟩ heven
  · rw [hstate]
    exact ht

end Even

/-- The stores of a prover, of its forks, and of their forks keep step. -/
theorem familyKeeps : FamilyKeeps (Even schema) where
  call _ c := c.keeps_perform (Even.stable.regionKeeps fun _ _ _ hp => { hp with })
    Even.stable.callKeeps
  fork _ := Even.keeps_fork
  forked {rows ranges p q fs} hp hends f hf := by
    obtain ⟨hranges, rfl⟩ := Even.of_ends_fork hends
    obtain ⟨range, hrange, rfl⟩ := List.mem_map.1 hf
    exact ⟨range, hp.sliver (Board.Even.covers_of_checkRanges hranges range hrange)⟩
  merge hp hfs := Even.keeps_merge hfs _ hp

end Prover

/-! ## Key builders -/

namespace KeyBuilder

variable {logRows : Nat} {schema : Schema} {rows : RowSpan} {k : KeyBuilder} {fs : List KeyBuilder}

/-- Do both stores of a key builder lie over the same rows, with the same rows lent out? -/
def Even (schema : Schema) (rows : RowSpan) (k : KeyBuilder) : Prop := k.board.Even schema rows

namespace Even

/-- A new key builder is even over the grid. -/
theorem unused (hgrid : logRows ≤ maxLogRows) (schema : Schema) :
    (KeyBuilder.unused logRows schema).Even schema (Board.grid logRows) := .root _ hgrid ..

/-- What a fork gives and what it leaves. -/
theorem of_ends_fork {l : KeyBuilder} {ranges : List RowSpan} (hends : (fork ranges).Ends k fs l) :
    Store.checkRanges k.board.window k.board.window.start ranges = .ok () ∧
      fs = ranges.map fun range => ⟨k.board.forkOver range⟩ := by
  obtain ⟨b, boards, hgrant, hcarve, rfl⟩ := (ends_fork ranges fs).1 hends
  obtain ⟨-, hranges, rfl⟩ := (Board.ends_grant ranges ()).1 hgrant
  obtain ⟨-, -, -, rfl, -⟩ := (Board.ends_carve ranges boards).1 hcarve
  exact ⟨hranges, List.map_map⟩

/-- Merging leaves a key builder even, whether or not it succeeds. -/
theorem keeps_merge (hfs : ∀ f ∈ fs, ∃ range, f.Even schema range) :
    Run.Keeps (Even schema rows) (merge (fs.map .fork)) := by
  refine (keeps_onBoard (Board.keeps_requireSynthesizing _)).bind fun _ => ?_
  refine (keeps_mergeOnes Board.Even.stable fs).bind_of_ends fun s forks t hends ht => ?_
  obtain ⟨rfl, -⟩ := ends_mergeOnes.1 hends
  refine ht.rejoin_state fun b hb => ?_
  obtain ⟨f, hf, rfl⟩ := List.mem_map.1 hb
  exact hfs f hf

end Even

/-- The stores of a key builder, of its forks, and of their forks keep step. -/
theorem familyKeeps : FamilyKeeps (Even schema) where
  call _ c := c.keeps_perform (regionKeeps Board.Even.stable) (callKeeps Board.Even.stable)
  fork _ ranges :=
    (keeps_onBoard (Board.keeps_grant ranges)).bind fun _ =>
      (keeps_onBoard (Board.Even.keeps_carve ranges)).bind fun _ => Run.Keeps.pure _
  forked {rows ranges k l fs} hk hends f hf := by
    obtain ⟨hranges, rfl⟩ := Even.of_ends_fork hends
    obtain ⟨range, hrange, rfl⟩ := List.mem_map.1 hf
    exact ⟨range, hk.forkOver (Board.Even.covers_of_checkRanges hranges range hrange)⟩
  merge hk hfs := Even.keeps_merge hfs _ hk

end KeyBuilder

end CircuitLayout
