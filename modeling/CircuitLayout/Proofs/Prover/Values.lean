import CircuitLayout.Proofs.Forks.Provers
import CircuitLayout.Proofs.Prover.Verified

namespace CircuitLayout

/-! # What provers hold

What a call on a prover does to the values that the prover holds, and to its copies. Assigning a cell
changes the value there and no other, a copy changes none, and a filled column leaves all others as
they are.
-/

/-! ## Stores -/

namespace Store

variable {α : Type} [Inhabited α] {s s' : Store α} {column row column' row' : Nat} {value : α}

/-- What is written to a cell is read there, and nowhere else. -/
theorem HasShape.get_of_set {window : RowSpan} {columns : Nat} (h : s.HasShape window columns)
    (hlent : s.lent = []) (hset : s.set column row value = .ok s') {x : α} :
    s'.get column' row' = .ok x ↔
      if column' = column ∧ row' = row then x = value else s.get column' row' = .ok x := by
  obtain ⟨⟨hcolumn, hrow⟩, rfl⟩ := (h.set_eq_ok_iff hlent).1 hset
  rw [(h.write column row value).get_eq_ok_iff hlent, h.get_eq_ok_iff hlent]
  -- the cell that is written, and any other one
  by_cases hsame : column' = column ∧ row' = row
  · obtain ⟨rfl, rfl⟩ := hsame
    rw [h.cell?_write hcolumn hrow hrow, if_pos ⟨rfl, rfl⟩, if_pos ⟨rfl, rfl⟩]
    simp [hcolumn, hrow, eq_comm]
  · rw [if_neg hsame]
    refine and_congr_right fun hcell => ?_
    rw [h.cell?_write hcolumn hrow hcell.2, if_neg hsame]

end Store

namespace Prover

variable {p q : Prover} {logRows : Nat} {schema : Schema}

/-! ## Values and copies -/

/-- Do two provers hold the same values, and have the same copies? -/
structure SameValues (p q : Prover) : Prop where
  values : q.valueAt? = p.valueAt?
  copies : q.board.copies = p.board.copies

/-- Is what a prover holds what another one held, but for one position? -/
structure Sets (a : Position) (v : Goldilocks) (p q : Prover) : Prop where
  values : q.valueAt? = Function.update p.valueAt? a (some v)
  copies : q.board.copies = p.board.copies

/-- The value of a position is that of what it holds. -/
theorem valueAt?_of_contentAt {a : Position} {content : Content} (h : p.contentAt a = .ok content) :
    p.valueAt? a = content.value? := by
  rw [valueAt?, h]

/-- A position with a value can be read. -/
theorem exists_contentAt {a : Position} {v : Goldilocks} (h : p.valueAt? a = some v) :
    ∃ content, p.contentAt a = .ok content := by
  unfold valueAt? at h
  split at h
  · next hcontent => exact ⟨_, hcontent⟩
  · cases h

/-- Do both ends of every copy hold the same value? -/
def CopiesHold (p : Prover) : Prop :=
  ∀ c ∈ p.board.copies, ∃ v, p.valueAt? c.1 = some v ∧ p.valueAt? c.2 = some v

/-- Where every copy holds, the check finds nothing. -/
theorem CopiesHold.verify (h : p.CopiesHold) : p.verify = .ok [] := by
  have hread : ∀ c ∈ p.board.copies.toList,
      (∃ left, p.contentAt c.1 = .ok left) ∧ ∃ right, p.contentAt c.2 = .ok right := by
    intro c hc
    obtain ⟨v, hleft, hright⟩ := h c (Array.mem_toList_iff.1 hc)
    exact ⟨exists_contentAt hleft, exists_contentAt hright⟩
  have hnone : ∀ c ∈ p.board.copies.toList, p.mismatch? c = none := by
    intro c hc
    obtain ⟨v, hleft, hright⟩ := h c (Array.mem_toList_iff.1 hc)
    exact mismatch?_eq_none_iff.2 ⟨⟨by rw [hleft]; rfl, by rw [hright]; rfl⟩,
      hleft.trans hright.symm⟩
  rw [verify_eq hread, List.filterMap_eq_nil_iff.2 hnone]

/-- Positions that are read alike hold the same value. -/
theorem valueAt?_congr {a : Position}
    (h : ∀ content, q.contentAt a = .ok content ↔ p.contentAt a = .ok content) :
    q.valueAt? a = p.valueAt? a := by
  unfold valueAt?
  cases hp : p.contentAt a with
  | ok content => rw [(h content).2 hp]
  | error fault =>
    cases hq : q.contentAt a with
    | ok content =>
      rw [(h content).1 hq] at hp
      cases hp
    | error fault' => rfl

/-- A prover that is read anew at one position holds there what is read. -/
theorem sets_of_contentAt {a : Position} {value : Fraction}
    (hcopies : q.board.copies = p.board.copies)
    (h : ∀ b content, q.contentAt b = .ok content ↔
      if b = a then content = .keep value else p.contentAt b = .ok content) :
    Sets a value.evaluate p q := by
  refine ⟨funext fun b => ?_, hcopies⟩
  -- the position that is set, and any other one
  by_cases hb : b = a
  · subst hb
    have hread : q.contentAt b = .ok (.keep value) := (h b _).2 (by rw [if_pos rfl])
    rw [valueAt?_of_contentAt hread, Function.update_self]
    rfl
  · rw [Function.update_of_ne hb]
    refine valueAt?_congr fun content => ?_
    rw [h, if_neg hb]

/-- What a prover holds in the columns of one kind is kept in a store. If one cell of this store is
set and nothing else is read anew, the prover holds a new value at its position. -/
theorem sets_of_set {kind : ColumnKind} {store store' : Store Content} {window : RowSpan}
    {columns column row : Nat} {value : Fraction} (hshape : store.HasShape window columns)
    (hlent : store.lent = []) (hset : store.set column row (.keep value) = .ok store')
    (hbefore : ∀ index row, p.contentAt ⟨⟨kind, index⟩, row⟩ = store.get index row)
    (hafter : ∀ index row, q.contentAt ⟨⟨kind, index⟩, row⟩ = store'.get index row)
    (hothers : ∀ b : Position, b.column.kind ≠ kind → q.contentAt b = p.contentAt b)
    (hcopies : q.board.copies = p.board.copies) :
    Sets ⟨⟨kind, column⟩, row⟩ value.evaluate p q := by
  refine sets_of_contentAt hcopies fun b content => ?_
  obtain ⟨⟨kind', index⟩, row'⟩ := b
  -- positions of the store that is written, and of others
  by_cases hkind : kind' = kind
  · subst hkind
    simp only [hbefore, hafter, hshape.get_of_set hlent hset, Position.mk.injEq, Column.mk.injEq,
      true_and]
  · rw [hothers _ hkind, if_neg]
    intro hsame
    exact hkind (congrArg (·.column.kind) hsame)

/-- An assigned advice cell has the value that was produced for it, and no other value changes. -/
theorem sets_of_assignAdvice (hshape : p.advice.HasShape (Board.grid logRows) schema.adviceCount)
    (hlent : p.advice.lent = []) {label : String} {column row : Nat} {value : Producer} {v : Fraction}
    (hends : (assignAdvice label column row value).Ends p v q) :
    Sets ⟨.advice column, row⟩ v.evaluate p q := by
  obtain ⟨-, advice, hset, rfl⟩ := (ends_assignAdvice ..).1 hends
  refine sets_of_set hshape hlent hset (fun _ _ => rfl) (fun _ _ => rfl) ?_ rfl
  rintro ⟨⟨_ | _ | _, index⟩, row'⟩ hkind
  · exact absurd rfl hkind
  · rfl
  · rfl

/-- So has an assigned fixed cell. -/
theorem sets_of_assignFixed (hshape : p.board.fixed.HasShape (Board.grid logRows) schema.fixedCount)
    (hlent : p.board.fixed.lent = []) {label : String} {column row : Nat} {value : Producer}
    {v : Fraction} (hends : (assignFixed label column row value).Ends p v q) :
    Sets ⟨.fixed column, row⟩ v.evaluate p q := by
  obtain ⟨-, fixed, hset, rfl⟩ := (ends_assignFixed ..).1 hends
  refine sets_of_set hshape hlent hset (fun _ _ => rfl) (fun _ _ => rfl) ?_ rfl
  rintro ⟨⟨_ | _ | _, index⟩, row'⟩ hkind
  · rfl
  · exact absurd rfl hkind
  · rfl

/-- A filled column leaves the others as they are. -/
theorem valueAt?_of_fillFrom {column row : Nat} {value : Option Fraction}
    (hends : (onBoard (Board.fillFrom .keep column row value)).Ends p () q) :
    (∀ a : Position, a.column ≠ .fixed column → q.valueAt? a = p.valueAt? a) ∧
      q.board.copies = p.board.copies := by
  obtain ⟨b, hfill, rfl⟩ := (ends_onBoard ..).1 hends
  obtain ⟨-, v, rfl, -, fixed, hset, rfl⟩ := (Board.ends_fillFrom ..).1 hfill
  refine ⟨fun a ha => ?_, rfl⟩
  obtain ⟨⟨kind, index⟩, row'⟩ := a
  cases kind with
  | fixed =>
    have hne : index ≠ column := by
      rintro rfl
      exact ha rfl
    simp only [valueAt?, contentAt, Store.get_of_fill_ne hset hne]
  | advice | input => rfl

/-- A copy is added to the copies, and changes no value. -/
theorem of_ends_copy {left right : Position}
    (hends : (onBoard (Board.copy left right)).Ends p () q) :
    q.valueAt? = p.valueAt? ∧ q.board.copies = p.board.copies.push (left, right) := by
  obtain ⟨b, hcopy, rfl⟩ := (ends_onBoard ..).1 hends
  refine ⟨funext fun a => ?_, Board.copies_of_copy hcopy⟩
  simp only [valueAt?, contentAt, (Board.sameCells_of_copy hcopy).1]

end Prover

end CircuitLayout
