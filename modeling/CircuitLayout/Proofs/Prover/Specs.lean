import CircuitLayout.KeyBuilder
import CircuitLayout.Prover
import CircuitLayout.Proofs.Board.Specs
import CircuitLayout.Proofs.Run.Refines

namespace CircuitLayout

/-! # When operations on provers and key builders succeed

One statement for each operation: when it succeeds, with what result, and what it leaves.
-/

namespace Prover

variable {α β : Type} {p p' : Prover}

/-- A run on the board of a prover leaves everything else. -/
@[simp] theorem ends_onBoard (m : Run (Board Content) α) (a : α) :
    (onBoard m).Ends p a p' ↔ ∃ b, m.Ends p.board a b ∧ p' = { p with board := b } := by
  simp [onBoard]

/-- A run on the board, then the rest. -/
theorem ends_onBoard_bind (m : Run (Board Content) α) (f : α → Run Prover β) (c : β) :
    (onBoard m >>= f).Ends p c p' ↔
      ∃ a b, m.Ends p.board a b ∧ (f a).Ends { p with board := b } c p' := by
  rw [Run.ends_bind]
  constructor
  · rintro ⟨a, q, hm, hf⟩
    rcases (ends_onBoard m a).1 hm with ⟨b, hb, rfl⟩
    exact ⟨a, b, hb, hf⟩
  · rintro ⟨a, b, hb, hf⟩
    exact ⟨a, _, (ends_onBoard m a).2 ⟨b, hb, rfl⟩, hf⟩

@[simp high] theorem ends_requireSynthesizing_bind (operation : String) (f : Unit → Run Prover β)
    (c : β) :
    (onBoard (Board.requireSynthesizing operation) >>= f).Ends p c p' ↔
      p.board.phase = .synthesizing ∧ (f ()).Ends p c p' :=
  Run.ends_zoom_check_bind (fun _ => rfl) (fun _ _ => Board.ends_requireSynthesizing operation ()) ..

@[simp high] theorem ends_requireUsable_bind (row : Nat) (f : Unit → Run Prover β) (c : β) :
    (onBoard (Board.requireUsable row) >>= f).Ends p c p' ↔
      row ∈ p.board.usable ∧ (f ()).Ends p c p' :=
  Run.ends_zoom_check_bind (fun _ => rfl) (fun _ _ => Board.ends_requireUsable row ()) ..

@[simp high] theorem ends_requireWritable_bind (operation : String) (row : Nat)
    (f : Unit → Run Prover β) (c : β) :
    (onBoard (Board.requireWritable operation row) >>= f).Ends p c p' ↔
      (row ∈ p.board.usable ∧ row ∈ p.board.window) ∧ (f ()).Ends p c p' :=
  Run.ends_zoom_check_bind (fun _ => rfl) (fun _ _ => Board.ends_requireWritable operation row ()) ..

/-- A record changes the open region, if there is one. -/
@[simp] theorem ends_record (change : RegionRecord → RegionRecord) (a : Unit) :
    (record change).Ends p a p' ↔ p' = { p with current := p.current.map change } := by
  simp [record]

/-! ## Regions -/

/-- A region is entered if none is open. -/
@[simp] theorem ends_enterRegion (name : String) (a : Unit) :
    (enterRegion name).Ends p a p' ↔
      p.current = none ∧ p' = { p with current := some (.blank name) } := by
  cases h : p.current <;> simp [enterRegion, h]

/-- A region that is left is added to the records. -/
@[simp] theorem ends_exitRegion (a : Unit) :
    exitRegion.Ends p a p' ↔
      ∃ region, p.current = some region ∧
        p' = { p with records := p.records.push region, current := none } := by
  cases h : p.current <;> simp [exitRegion, h]

/-! ## Cells -/

/-- A selector is enabled on a row that may be written. -/
@[simp] theorem ends_enableSelector (selector : Selector) (row : Nat) (a : Unit) :
    (enableSelector selector row).Ends p a p' ↔
      p.board.Writable row ∧ ∃ selectors,
        p.board.selectors.set selector.index row true = .ok selectors ∧
        p' = { p with
          board := { p.board with selectors := selectors }
          current := p.current.map (·.enable selector.index row) } := by
  simp only [enableSelector, ends_onBoard_bind, Board.ends_enableSelector, ends_record]
  constructor
  · rintro ⟨_, b, ⟨hrow, selectors, hset, rfl⟩, rfl⟩
    exact ⟨hrow, selectors, hset, rfl⟩
  · rintro ⟨hrow, selectors, hset, rfl⟩
    exact ⟨(), _, ⟨hrow, selectors, hset, rfl⟩, rfl⟩

/-- An advice cell is assigned if its row may be written and its producer has a value. -/
@[simp] theorem ends_assignAdvice (label : String) (column row : Nat) (value : Producer)
    (v : Fraction) :
    (assignAdvice label column row value).Ends p v p' ↔
      (p.board.Writable row ∧ value () = .ok (some v)) ∧
        ∃ advice, p.advice.set column row (.keep v) = .ok advice ∧
          p' = { p with
            advice := advice
            current := p.current.map (·.touch (.advice column) row) } := by
  simp only [assignAdvice, ends_requireSynthesizing_bind, ends_requireWritable_bind,
    ends_askProducer_bind, Board.Writable]
  constructor
  · -- without a value the call would have failed
    rintro ⟨hphase, hrow, _ | w, hvalue, h⟩
    · simp at h
    · simp only [Run.ends_get_bind, Run.ends_ofExcept_bind, Run.ends_set_bind,
        Run.ends_emit_bind] at h
      rcases h with ⟨advice, hset, h⟩
      simp only [Run.ends_bind, ends_record, Run.ends_pure] at h
      rcases h with ⟨_, _, rfl, rfl, rfl⟩
      exact ⟨⟨⟨hphase, hrow⟩, hvalue⟩, advice, hset, rfl⟩
  · rintro ⟨⟨⟨hphase, hrow⟩, hvalue⟩, advice, hset, rfl⟩
    exact ⟨hphase, hrow, some v, hvalue, by simp [hset]⟩

/-- A fixed cell is assigned under the same conditions. -/
@[simp] theorem ends_assignFixed (label : String) (column row : Nat) (value : Producer)
    (v : Fraction) :
    (assignFixed label column row value).Ends p v p' ↔
      (p.board.Writable row ∧ value () = .ok (some v)) ∧
        ∃ fixed, p.board.fixed.set column row (.keep v) = .ok fixed ∧
          p' = { p with
            board := { p.board with fixed := fixed }
            current := p.current.map (·.touch (.fixed column) row) } := by
  simp only [assignFixed, ends_onBoard_bind, Board.ends_assignFixed]
  constructor
  · rintro ⟨w, b, ⟨hrow, fixed, hset, rfl⟩, h⟩
    simp only [Run.ends_bind, ends_record, Run.ends_pure] at h
    rcases h with ⟨_, _, rfl, rfl, rfl⟩
    exact ⟨hrow, fixed, hset, rfl⟩
  · rintro ⟨hrow, fixed, hset, rfl⟩
    exact ⟨v, _, ⟨hrow, fixed, hset, rfl⟩, by simp⟩

/-- Any usable row of an advice column may be queried. -/
@[simp] theorem ends_queryAdvice (column row : Nat) (x : Goldilocks) :
    (queryAdvice column row).Ends p x p' ↔
      row ∈ p.board.usable ∧ ∃ content, p.advice.get column row = .ok content ∧
        x = content.queried ∧ p' = p := by
  simp [queryAdvice]

/-- So may any usable row of a fixed column. -/
@[simp] theorem ends_queryFixed (column row : Nat) (x : Goldilocks) :
    (queryFixed column row).Ends p x p' ↔
      row ∈ p.board.usable ∧ ∃ content, p.board.fixed.get column row = .ok content ∧
        x = content.queried ∧ p' = p := by
  simp [queryFixed]

/-- Who looks up a usable row of a store is answered alike by provers whose stores hold the same
there. -/
theorem refines_lookUp {F : Prover → Prop} {S : Prover → Prover → Prop} {column row : Nat}
    {m : Run Prover Goldilocks} (store : Prover → Store Content)
    (hends : ∀ {p p' : Prover} (x : Goldilocks), m.Ends p x p' ↔
      row ∈ p.board.usable ∧ ∃ content, (store p).get column row = .ok content ∧
        x = content.queried ∧ p' = p)
    (hsame : ∀ {p q : Prover} {content : Content}, S p q → row ∈ p.board.usable →
      (store p).get column row = .ok content →
        row ∈ q.board.usable ∧ (store q).get column row = .ok content) :
    Run.Refines F S S Eq m m := by
  intro p q x p' hpq hm _
  obtain ⟨hrow, content, hget, rfl, rfl⟩ := (hends x).1 hm
  obtain ⟨hrow', hget'⟩ := hsame hpq hrow hget
  exact ⟨_, q, (hends _).2 ⟨hrow', content, hget', rfl, rfl⟩, rfl, hpq⟩

/-- A public input that was not given is zero on a usable row. -/
@[simp] theorem ends_queryInput (column row : Nat) (x : Option Goldilocks) :
    (queryInput column row).Ends p x p' ↔
      row ∈ p.board.usable ∧ ∃ cells, p.inputs[column]? = some cells ∧
        x = some (cells.getD row .blank).queried ∧ p' = p := by
  cases h : p.inputs[column]? <;> simp [queryInput, h]

/-- A challenge that was declared has a value. -/
@[simp] theorem ends_challenge (index : Nat) (x : Option Goldilocks) :
    (challenge index).Ends p x p' ↔ (∃ value, p.challenges[index]? = some value ∧ x = some value) ∧
      p' = p := by
  cases h : p.challenges[index]? <;> simp [challenge, h]

/-! ## Forks -/

/-- A prover is forked if the board grants the ranges: one store after another is split over
them. -/
theorem ends_fork (ranges : List RowSpan) (forks : List Prover) :
    (fork ranges).Ends p forks p' ↔
      ∃ b adviceParts advice boards b', (Board.grant ranges).Ends p.board () b ∧
        p.advice.split ranges = .ok (adviceParts, advice) ∧
        (Board.carve ranges).Ends b boards b' ∧
        forks = (adviceParts.zip boards).map (fun (advice, board) =>
          { p with board := board, advice := advice, records := #[], current := none, scopes := [] }) ∧
        p' = { p with board := b', advice := advice } := by
  rw [fork, ends_onBoard_bind]
  constructor
  · rintro ⟨_, b, hgrant, h⟩
    -- first the advice columns are split, then the stores of the board
    simp only [Run.ends_get_bind, Run.ends_ofExcept_bind, Run.ends_set_bind] at h
    rcases h with ⟨⟨adviceParts, advice⟩, hsplit, h⟩
    rcases (ends_onBoard_bind ..).1 h with ⟨boards, b', hcarve, h⟩
    rcases (Run.ends_pure ..).1 h with ⟨rfl, rfl⟩
    exact ⟨b, adviceParts, advice, boards, b', hgrant, hsplit, hcarve, rfl, rfl⟩
  · rintro ⟨b, adviceParts, advice, boards, b', hgrant, hsplit, hcarve, rfl, rfl⟩
    refine ⟨(), b, hgrant, ?_⟩
    simp only [Run.ends_get_bind, Run.ends_ofExcept_bind, Run.ends_set_bind]
    exact ⟨(adviceParts, advice), hsplit, (ends_onBoard_bind ..).2 ⟨boards, b', hcarve, by simp⟩⟩

/-- A fork is merged if its copies can be made, and its records are appended. -/
theorem ends_mergeOne_fork (index : Nat) (f g : Prover) :
    (mergeOne index (.fork f)).Ends p g p' ↔
      g = f ∧ ∃ b, (Board.replay f.board).Ends p.board () b ∧
        p' = { p with board := b, records := p.records ++ f.records } := by
  simp only [mergeOne, takeOver, Run.ends_bind, ends_onBoard, Run.ends_modify, Run.ends_pure,
    Board.reportMerge, Run.ends_get, Run.ends_emit]
  constructor
  · rintro ⟨_, _, ⟨_, _, ⟨b, hreplay, rfl⟩, rfl⟩, _, _, ⟨_, ⟨_, _, ⟨-, rfl⟩, rfl⟩, rfl⟩, rfl, rfl⟩
    exact ⟨rfl, _, hreplay, rfl⟩
  · rintro ⟨rfl, b, hreplay, rfl⟩
    exact ⟨(), _, ⟨(), _, ⟨b, hreplay, rfl⟩, rfl⟩, (), _, ⟨b, ⟨_, _, ⟨rfl, rfl⟩, rfl⟩, rfl⟩, rfl, rfl⟩

/-- What merging one fork after another leaves, and the cells that are then to be taken back. -/
theorem ends_merge (offers : List (Offer Prover)) (a : Unit) :
    (merge offers).Ends p a p' ↔
      p.board.phase = .synthesizing ∧ ∃ forks q advice b,
        (Run.each (fun x : Offer Prover × Nat => mergeOne x.2 x.1) offers.zipIdx).Ends p forks q ∧
        q.advice.rejoin (forks.map (·.advice)) = .ok advice ∧
        (Board.rejoin (forks.map (·.board))).Ends q.board () b ∧
        p' = { q with advice := advice, board := b } := by
  rw [merge, ends_requireSynthesizing_bind, Run.ends_bind]
  refine and_congr_right fun _ => ?_
  constructor
  · rintro ⟨forks, q, heach, h⟩
    -- first the advice columns are rejoined, then the stores of the board
    simp only [Run.ends_get_bind, Run.ends_ofExcept_bind, Run.ends_set_bind, ends_onBoard] at h
    rcases h with ⟨advice, hadvice, b, hboard, rfl⟩
    exact ⟨forks, q, advice, b, heach, hadvice, hboard, rfl⟩
  · rintro ⟨forks, q, advice, b, heach, hadvice, hboard, rfl⟩
    refine ⟨forks, q, heach, ?_⟩
    simp only [Run.ends_get_bind, Run.ends_ofExcept_bind, Run.ends_set_bind, ends_onBoard]
    exact ⟨advice, hadvice, b, hboard, rfl⟩

/-! ## New columns -/

/-- A usable row of a column of public inputs holds the given value, or zero. -/
theorem getElem?_inputColumn {usable rows row : Nat} (values : List Goldilocks) (hrow : row < usable) :
    (inputColumn usable rows values)[row]? = some (.held (values.getD row 0)) := by
  unfold inputColumn
  rw [List.getElem?_toArray, List.getElem?_append_left (by simp; omega)]
  by_cases hgiven : row < values.length
  · rw [List.getElem?_append_left (by simpa using hgiven)]
    simp [hgiven]
  · rw [List.getElem?_append_right (by simpa using hgiven), List.getElem?_replicate,
      if_pos (by rw [List.length_map]; omega)]
    simp [Nat.le_of_not_lt hgiven]

/-- A usable row of a new advice column is blank. -/
theorem getElem?_adviceColumn {usable rows row : Nat} (hrow : row < usable) :
    (adviceColumn usable rows)[row]? = some .blank := by
  unfold adviceColumn
  rw [Array.getElem?_append_left (by simpa using hrow)]
  simp [hrow]

end Prover

namespace KeyBuilder

variable {α β : Type} {k k' : KeyBuilder}

/-- A key builder is its board. -/
@[simp] theorem ends_onBoard (m : Run (Board Fraction) α) (a : α) :
    (onBoard m).Ends k a k' ↔ m.Ends k.board a k'.board := by
  simp only [onBoard, Run.ends_zoom]
  constructor
  · rintro ⟨b, hm, rfl⟩
    exact hm
  · intro hm
    exact ⟨k'.board, hm, rfl⟩

/-- Key builders let only rows of their window be queried. -/
@[simp] theorem ends_queryFixed (column row : Nat) (x : Goldilocks) :
    (queryFixed column row).Ends k x k' ↔
      (row ∈ k.board.usable ∧ row ∈ k.board.window) ∧ ∃ value,
        k.board.fixed.get column row = .ok value ∧ x = value.evaluate ∧ k' = k := by
  rw [queryFixed, onBoard, Run.ends_zoom_check_bind (fun _ => rfl)
    fun _ _ => Board.ends_requireWritable "query_fixed" row ()]
  simp

/-- Key builders know no public inputs. -/
@[simp] theorem ends_queryInput (row : Nat) (x : Option Goldilocks) :
    (queryInput row).Ends k x k' ↔ row ∈ k.board.usable ∧ x = none ∧ k' = k := by
  rw [queryInput, onBoard, Run.ends_zoom_check_bind (fun _ => rfl)
    fun _ _ => Board.ends_requireUsable row ()]
  simp

/-- A key builder is forked as its board is. -/
theorem ends_fork (ranges : List RowSpan) (forks : List KeyBuilder) :
    (fork ranges).Ends k forks k' ↔
      ∃ c boards, (Board.grant ranges).Ends k.board () c ∧ (Board.carve ranges).Ends c boards k'.board ∧
        forks = boards.map KeyBuilder.mk := by
  simp only [fork, Run.ends_bind, ends_onBoard, Run.ends_pure]
  constructor
  · rintro ⟨_, l, hgrant, boards, _, hcarve, rfl, rfl⟩
    exact ⟨l.board, boards, hgrant, hcarve, rfl⟩
  · rintro ⟨c, boards, hgrant, hcarve, rfl⟩
    exact ⟨(), ⟨c⟩, hgrant, boards, k', hcarve, rfl, rfl⟩

/-- Forks are merged during the synthesis: their copies one after another, and then their cells. -/
theorem ends_merge (offers : List (Offer KeyBuilder)) (a : Unit) :
    (merge offers).Ends k a k' ↔
      k.board.phase = .synthesizing ∧ ∃ forks l,
        (Run.each (fun x : Offer KeyBuilder × Nat => mergeOne x.2 x.1) offers.zipIdx).Ends k forks l ∧
        (Board.rejoin (forks.map (·.board))).Ends l.board () k'.board := by
  rw [merge, onBoard, Run.ends_zoom_check_bind (fun _ => rfl)
    fun _ _ => Board.ends_requireSynthesizing "merge" (), Run.ends_bind]
  refine and_congr_right fun _ => ?_
  constructor
  · rintro ⟨forks, l, heach, h⟩
    exact ⟨forks, l, heach, (ends_onBoard ..).1 h⟩
  · rintro ⟨forks, l, heach, h⟩
    exact ⟨forks, l, heach, (ends_onBoard ..).2 h⟩

end KeyBuilder

end CircuitLayout
