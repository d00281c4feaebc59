import CircuitLayout.Proofs.Board.Specs
import CircuitLayout.Proofs.Permutation.Copies

namespace CircuitLayout

/-! # Copies that are taken over

A board takes copies one after another: a root connects them, a fork keeps them. Main statements:
`Takes.eq` and `Takes.restock`, the cells have no part in it, and `ends_replays_iff`, the copies of
several forks are replayed if all of them are taken.
-/

/-! ## Taking copies -/

namespace Board

variable {φ : Type} {b c d f : Board φ} {l m : List (Position × Position)}

/-- Is a board what another one becomes when it takes some copies, all of which it accepts? -/
def Takes (b : Board φ) (copies : List (Position × Position)) (c : Board φ) : Prop :=
  ∃ results, (Run.each (fun x : Position × Position => connect x.1 x.2) copies).Ends b results c

/-- Without copies the board stays. -/
@[simp] theorem takes_nil : b.Takes [] c ↔ c = b := by
  simp [Takes]

/-- Copies are taken one after the other. -/
theorem takes_cons {x : Position × Position} :
    b.Takes (x :: l) d ↔ ∃ c, (connect x.1 x.2).Ends b () c ∧ c.Takes l d := by
  simp only [Takes, Run.ends_each_cons]
  constructor
  · rintro ⟨_, _, c, more, hx, hmore, -⟩
    exact ⟨c, hx, more, hmore⟩
  · rintro ⟨c, hx, more, hmore⟩
    exact ⟨_, (), c, more, hx, hmore, rfl⟩

/-- The later copies are taken by what the earlier ones leave. -/
theorem takes_append : b.Takes (l ++ m) d ↔ ∃ c, b.Takes l c ∧ c.Takes m d := by
  induction l generalizing b with
  | nil => simp
  | cons x l ih =>
    simp only [List.cons_append, takes_cons, ih]
    constructor
    · rintro ⟨e, hx, c, hl, hm⟩
      exact ⟨c, ⟨e, hx, hl⟩, hm⟩
    · rintro ⟨c, ⟨e, hx, hl⟩, hm⟩
      exact ⟨e, hx, c, hl, hm⟩

/-- Copies that are taken in two steps are taken in one. -/
theorem Takes.append (hl : b.Takes l c) (hm : c.Takes m d) : b.Takes (l ++ m) d :=
  takes_append.2 ⟨c, hl, hm⟩

/-- What a board becomes is settled by the copies it takes. -/
theorem Takes.unique (hc : b.Takes l c) (hd : b.Takes l d) : c = d := by
  obtain ⟨results, hc⟩ := hc
  obtain ⟨results', hd⟩ := hd
  exact (hc.unique hd).2

/-- One more copy is taken if it is accepted after the others. -/
theorem Takes.push (hl : b.Takes l c) {left right : Position}
    (h : (connect left right).Ends c () d) : b.Takes (l ++ [(left, right)]) d := by
  refine hl.append (takes_cons.2 ⟨d, h, ?_⟩)
  exact takes_nil.2 rfl

/-- Taking copies changes what is known of copies, and nothing else. -/
theorem Takes.eq (h : b.Takes l c) :
    c = { b with permutation := c.permutation, pending := c.pending } := by
  induction l generalizing b with
  | nil =>
    obtain rfl := takes_nil.1 h
    rfl
  | cons x l ih =>
    obtain ⟨d, hx, hrest⟩ := takes_cons.1 h
    have hd := ih hrest
    -- a copy goes to the permutation, or to the pending ones
    rcases (ends_connect x.1 x.2 ()).1 hx with ⟨-, rfl⟩ | ⟨p, q, -, -, rfl⟩
    · exact hd
    · exact hd

/-- A board may be given other cells before the copies are taken, or afterwards. -/
theorem Takes.restock (h : b.Takes l c) (fixed : Store φ) (selectors : Store Bool) :
    ({ b with fixed := fixed, selectors := selectors } : Board φ).Takes l
      { c with fixed := fixed, selectors := selectors } := by
  induction l generalizing b with
  | nil =>
    obtain rfl := takes_nil.1 h
    exact takes_nil.2 rfl
  | cons x l ih =>
    obtain ⟨d, hx, hrest⟩ := takes_cons.1 h
    refine takes_cons.2 ⟨_, ?_, ih hrest⟩
    -- whether a copy is taken does not depend on the cells
    rcases (ends_connect x.1 x.2 ()).1 hx with ⟨hnone, rfl⟩ | ⟨p, q, hp, hq, rfl⟩
    · exact (ends_connect x.1 x.2 ()).2 (.inl ⟨hnone, rfl⟩)
    · exact (ends_connect x.1 x.2 ()).2 (.inr ⟨p, q, hp, hq, rfl⟩)

/-- The copies that are taken come after those that were there. -/
theorem Takes.copies (h : b.Takes l c) : c.copies.toList = b.copies.toList ++ l := by
  induction l generalizing b with
  | nil =>
    obtain rfl := takes_nil.1 h
    simp
  | cons x l ih =>
    obtain ⟨d, hx, hrest⟩ := takes_cons.1 h
    -- each copy that is taken is listed last
    have hd : d.copies.toList = b.copies.toList ++ [x] := by
      rcases (ends_connect x.1 x.2 ()).1 hx with ⟨hnone, rfl⟩ | ⟨p, q, hp, hq, rfl⟩
      · simp [Board.copies, hnone]
      · simp [Board.copies, hp, Permutation.copies_copy hq]
    rw [ih hrest, hd, List.append_assoc, List.singleton_append]

/-- One more copy. -/
theorem copies_of_copy {left right : Position} (hends : (copy left right).Ends b () c) :
    c.copies = b.copies.push (left, right) := by
  obtain ⟨-, hconnect⟩ := (ends_copy left right ()).1 hends
  rcases (ends_connect left right ()).1 hconnect with ⟨hnone, rfl⟩ | ⟨p, q, hp, hq, rfl⟩
  · simp only [Board.copies, hnone]
  · simp only [Board.copies, hp, Permutation.copies_copy hq]

/-- Do two boards have the same cells? -/
def SameCells (b c : Board φ) : Prop := c.fixed = b.fixed ∧ c.selectors = b.selectors

/-- A copy that is made changes no cell. -/
theorem sameCells_of_copy {left right : Position} (hends : (copy left right).Ends b () c) :
    b.SameCells c := by
  obtain ⟨-, hconnect⟩ := (ends_copy ..).1 hends
  rcases (ends_connect ..).1 hconnect with ⟨-, rfl⟩ | ⟨_, _, -, -, rfl⟩
  · exact ⟨rfl, rfl⟩
  · exact ⟨rfl, rfl⟩

/-- The copies of a fork are replayed if all of them are accepted. -/
theorem ends_replay_iff : (replay f).Ends b () c ↔ b.Takes f.pending.toList c := by
  rw [replay, Run.ends_bind]
  constructor
  · rintro ⟨results, d, hends, hpure⟩
    obtain ⟨-, rfl⟩ := (Run.ends_pure ..).1 hpure
    exact ⟨results, hends⟩
  · rintro ⟨results, hends⟩
    exact ⟨results, c, hends, (Run.ends_pure ..).2 ⟨rfl, rfl⟩⟩

/-- The copies that forks keep, in order. -/
def kept (fs : List (Board φ)) : List (Position × Position) := fs.flatMap (·.pending.toList)

/-- The copies of several forks are replayed if all of them are accepted. -/
theorem ends_replays_iff {fs : List (Board φ)} :
    (∃ results, (Run.each replay fs).Ends b results c) ↔ b.Takes (kept fs) c := by
  induction fs generalizing b with
  | nil => simp [kept]
  | cons f fs ih =>
    have hkept : kept (f :: fs) = f.pending.toList ++ kept fs := List.flatMap_cons
    rw [hkept, takes_append]
    simp only [Run.ends_each_cons, ← ends_replay_iff, ← ih]
    constructor
    · rintro ⟨_, _, d, more, hf, hmore, -⟩
      exact ⟨d, hf, more, hmore⟩
    · rintro ⟨d, hf, more, hmore⟩
      exact ⟨_, (), d, more, hf, hmore, rfl⟩

end Board

end CircuitLayout
