import Mathlib.Data.List.GetD
import Mathlib.Data.Set.Card
import CircuitLayout.Board
import CircuitLayout.Schema
import CircuitLayout.Proofs.Permutation.Joins
import CircuitLayout.Proofs.Run.Ends

namespace CircuitLayout

/-! # What copies generate

A board that is offered copies, some of which it refuses, holds a permutation whose cycles are the
classes of the positions that the accepted copies connect. Main statement:
`Board.offer_generates`, over all columns, heights and lists of copies.
-/

namespace Permutation

open Relation (EqvGen)

variable {p q : Permutation} {a b left right : Position} {i j : Nat}

/-! ## Positions and slots -/

/-- Does a position belong to the permutation? -/
def Holds (p : Permutation) (a : Position) : Prop := a.column ∈ p.columns ∧ a.row < p.rows

instance (p : Permutation) (a : Position) : Decidable (p.Holds a) :=
  inferInstanceAs (Decidable (a.column ∈ p.columns ∧ a.row < p.rows))

/-- The slot of a position. -/
def slotOf (p : Permutation) (a : Position) : Nat := p.columns.idxOf a.column * p.rows + a.row

/-- Slots depend on the columns and the rows alone. -/
theorem slotOf_congr (hcolumns : q.columns = p.columns) (hrows : q.rows = p.rows) (a : Position) :
    q.slotOf a = p.slotOf a := by
  unfold slotOf
  rw [hcolumns, hrows]

/-- Which positions are held is seen from the columns and the rows. -/
theorem holds_congr (hcolumns : q.columns = p.columns) (hrows : q.rows = p.rows) (a : Position) :
    q.Holds a ↔ p.Holds a := by
  unfold Holds
  rw [hcolumns, hrows]

/-- A column has a number iff it is one of the permutation. -/
theorem columnIndex_eq_ok_iff (p : Permutation) (c : Column) (i : Nat) :
    p.columnIndex c = .ok i ↔ c ∈ p.columns ∧ i = p.columns.idxOf c := by
  unfold columnIndex
  by_cases hc : c ∈ p.columns
  · have hlt := List.idxOf_lt_length_of_mem hc
    have hidx : p.columns.idxOf? c = some (p.columns.idxOf c) :=
      List.idxOf?_eq_some_iff.2 ⟨hlt, by simp, fun j hj => by
        simpa using List.not_of_lt_findIdx hj⟩
    simp [hidx, hc, eq_comm]
  · have hidx := List.idxOf?_eq_none_iff.2 hc
    simp [hidx, hc]

/-- Both ends of a copy have slots exactly if both belong to the permutation. -/
theorem slots_eq_ok_iff (p : Permutation) (left right : Position) (i j : Nat) :
    p.slots left right = .ok (i, j) ↔
      (p.Holds left ∧ p.Holds right) ∧ i = p.slotOf left ∧ j = p.slotOf right := by
  unfold slots
  simp only [bind_eq_ok, columnIndex_eq_ok_iff]
  -- the columns are looked up before the rows are compared
  constructor
  · rintro ⟨l, ⟨hl, rfl⟩, r, ⟨hr, rfl⟩, hrows⟩
    split at hrows
    · simp [throw, throwThe, MonadExceptOf.throw, bind, Except.bind] at hrows
    · next hin =>
      simp only [pure, Except.pure, Except.ok.injEq, Prod.mk.injEq] at hrows
      rcases hrows with ⟨rfl, rfl⟩
      exact ⟨⟨⟨hl, by omega⟩, hr, by omega⟩, rfl, rfl⟩
  · rintro ⟨⟨⟨hl, hlrow⟩, hr, hrrow⟩, rfl, rfl⟩
    refine ⟨_, ⟨hl, rfl⟩, _, ⟨hr, rfl⟩, ?_⟩
    have hin : ¬ (p.rows ≤ left.row ∨ p.rows ≤ right.row) := by omega
    rw [if_neg hin]
    rfl

/-- The slot of a held position is one of the permutation. -/
theorem Holds.slotOf_lt (h : p.Holds a) : p.slotOf a < p.size := by
  have hindex : p.columns.idxOf a.column + 1 ≤ p.columns.length := List.idxOf_lt_length_of_mem h.1
  have hrows := Nat.mul_le_mul_right p.rows hindex
  have hrow := h.2
  rw [Nat.succ_mul] at hrows
  unfold slotOf size
  omega

/-- The column and the row of a slot that is numbered column by column. -/
theorem mul_add_div_mod {rows row : Nat} (index : Nat) (hrow : row < rows) :
    (index * rows + row) / rows = index ∧ (index * rows + row) % rows = row := by
  constructor
  · rw [Nat.mul_comm, Nat.mul_add_div (by omega), Nat.div_eq_of_lt hrow, Nat.add_zero]
  · rw [Nat.mul_comm, Nat.mul_add_mod, Nat.mod_eq_of_lt hrow]

/-- The position of the slot of a position is the position. -/
theorem Holds.position_slotOf (h : p.Holds a) : p.position (p.slotOf a) = a := by
  have hslot : p.slotOf a / p.rows = p.columns.idxOf a.column ∧ p.slotOf a % p.rows = a.row :=
    mul_add_div_mod _ h.2
  have hlt := List.idxOf_lt_length_of_mem h.1
  have hcolumn : p.columns.getD (p.columns.idxOf a.column) default = a.column := by
    rw [List.getD_eq_getElem _ _ hlt, List.getElem_idxOf]
  simp only [position, hslot, hcolumn]

/-- Each slot belongs to a held position. -/
theorem holds_position (hi : i < p.size) : p.Holds (p.position i) := by
  have hrows : 0 < p.rows := by
    rcases Nat.eq_zero_or_pos p.rows with h | h
    · simp [size, h] at hi
    · exact h
  have hdiv : i / p.rows < p.columns.length := (Nat.div_lt_iff_lt_mul hrows).2 hi
  refine ⟨?_, Nat.mod_lt _ hrows⟩
  change p.columns.getD (i / p.rows) default ∈ p.columns
  rw [List.getD_eq_getElem _ _ hdiv]
  exact List.getElem_mem hdiv

/-- The slot of the position of a slot is the slot, if no column is listed twice. -/
theorem slotOf_position (hp : p.columns.Nodup) (hi : i < p.size) : p.slotOf (p.position i) = i := by
  have hrows : 0 < p.rows := Nat.lt_of_le_of_lt (Nat.zero_le _) (holds_position hi).2
  have hdiv : i / p.rows < p.columns.length := (Nat.div_lt_iff_lt_mul hrows).2 hi
  have hindex : p.columns.idxOf (p.columns.getD (i / p.rows) default) = i / p.rows := by
    rw [List.getD_eq_getElem _ _ hdiv]
    exact hp.idxOf_getElem _ hdiv
  simp only [slotOf, position, hindex]
  exact Nat.div_add_mod' i p.rows

/-- The slots number the positions of the permutation. -/
theorem bijOn_position (hp : p.columns.Nodup) :
    Set.BijOn p.position (Set.Iio p.size) {a | p.Holds a} := by
  refine ⟨fun i hi => holds_position hi, ?_, ?_⟩
  · intro i hi j hj hij
    -- equal positions have equal slots
    rw [← slotOf_position hp hi, hij, slotOf_position hp hj]
  · intro a ha
    exact ⟨p.slotOf a, Holds.slotOf_lt ha, Holds.position_slotOf ha⟩

/-! ## Connected slots -/

/-- An equivalence generated by some pairs and one more: the classes of the two ends become one. -/
theorem eqvGen_insert {C D : Nat → Nat → Prop} (hD : ∀ x y, D x y ↔ C x y ∨ (x = i ∧ y = j))
    (x y : Nat) :
    EqvGen D x y ↔
      EqvGen C x y ∨ ((EqvGen C i x ∨ EqvGen C j x) ∧ (EqvGen C i y ∨ EqvGen C j y)) := by
  have hmono : ∀ {x y}, EqvGen C x y → EqvGen D x y :=
    fun h => h.mono fun x y hxy => (hD x y).2 (.inl hxy)
  -- the new pair is related, and all that was related still is
  have hij : EqvGen D i j := .rel i j ((hD i j).2 (.inr ⟨rfl, rfl⟩))
  constructor
  · intro h
    induction h with
    | rel x y h =>
      rcases (hD x y).1 h with h | ⟨rfl, rfl⟩
      · exact .inl (.rel x y h)
      · exact .inr ⟨.inl (.refl x), .inr (.refl y)⟩
    | refl x => exact .inl (.refl x)
    | symm x y _ ih => exact ih.imp (.symm x y) And.symm
    | trans x y z _ _ ihxy ihyz =>
      -- either step may go through the new pair; then both ends lie in the joined class
      rcases ihxy with hxy | ⟨hx, hy⟩
      · rcases ihyz with hyz | ⟨hy, hz⟩
        · exact .inl (hxy.trans x y z hyz)
        · -- only the second step does: the first one leads back to where it began
          have hyx := hxy.symm x y
          exact .inr ⟨hy.imp (fun h => h.trans _ _ _ hyx) fun h => h.trans _ _ _ hyx, hz⟩
      · rcases ihyz with hyz | ⟨-, hz⟩
        · exact .inr ⟨hx, hy.imp (fun h => h.trans _ _ _ hyz) fun h => h.trans _ _ _ hyz⟩
        · exact .inr ⟨hx, hz⟩
  · -- the new pair leads from either class to the other
    have hto : ∀ z, EqvGen C i z ∨ EqvGen C j z → EqvGen D i z := by
      rintro z (h | h)
      · exact hmono h
      · exact hij.trans i j z (hmono h)
    rintro (h | ⟨hx, hy⟩)
    · exact hmono h
    · exact ((hto x hx).symm i x).trans x i y (hto y hy)

/-- Are two slots the ends of an accepted copy? -/
def Copied (p : Permutation) (i j : Nat) : Prop :=
  ∃ c ∈ p.copies, i = p.slotOf c.1 ∧ j = p.slotOf c.2

/-- A permutation in agreement whose cycles are what its copies connect. -/
structure Connecting (p : Permutation) : Prop where
  consistent : p.Consistent
  nodup : p.columns.Nodup
  holds : ∀ c ∈ p.copies, p.Holds c.1 ∧ p.Holds c.2
  leads_iff : ∀ x y, Leads p.nextSlot x y ↔ EqvGen p.Copied x y

/-- Without copies every cycle is a single slot. -/
theorem Connecting.identity (rows : Nat) {columns : List Column} (h : columns.Nodup) :
    (identity rows columns).Connecting := by
  refine ⟨.identity rows columns, h, ?_, ?_⟩
  · intro c hc
    simp [Permutation.identity] at hc
  · intro x y
    rw [leads_identity]
    constructor
    · rintro rfl
      exact .refl x
    · -- nothing was copied, so the closure relates each slot to itself alone
      intro hxy
      induction hxy with
      | rel x y h =>
        rcases h with ⟨c, hc, -⟩
        simp [Permutation.identity] at hc
      | refl x => rfl
      | symm x y _ ih => exact ih.symm
      | trans x y z _ _ ihxy ihyz => exact ihxy.trans ihyz

/-- A copy is accepted exactly if both of its ends belong to the permutation. -/
theorem copy_eq_ok_iff (p q : Permutation) (left right : Position) :
    p.copy left right = .ok q ↔
      (p.Holds left ∧ p.Holds right) ∧
        q = { p with copies := p.copies.push (left, right) }.join (p.slotOf left)
          (p.slotOf right) := by
  unfold copy
  simp only [bind_eq_ok, Prod.exists, slots_eq_ok_iff, pure, Except.pure, Except.ok.injEq]
  constructor
  · rintro ⟨i, j, ⟨h, rfl, rfl⟩, rfl⟩
    exact ⟨h, rfl⟩
  · rintro ⟨h, rfl⟩
    exact ⟨_, _, ⟨h, rfl, rfl⟩, rfl⟩

/-- An accepted copy connects what was connected, and its two ends. -/
theorem Connecting.copy (hp : p.Connecting) (h : p.copy left right = .ok q) : q.Connecting := by
  have hcopies := copies_copy h
  rcases (copy_eq_ok_iff p q left right).1 h with ⟨⟨hl, hr⟩, rfl⟩
  -- the arrays do not depend on the list of copies, so they agree before the join
  have hbefore := hp.consistent.with_copies (p.copies.push (left, right))
  set pushed : Permutation := { p with copies := p.copies.push (left, right) } with hpushed
  rcases join_keeps pushed (p.slotOf left) (p.slotOf right) with ⟨hcolumns, hrows, -⟩
  have hslot : ∀ a, (pushed.join (p.slotOf left) (p.slotOf right)).slotOf a = p.slotOf a :=
    slotOf_congr hcolumns hrows
  have hholds : ∀ a, (pushed.join (p.slotOf left) (p.slotOf right)).Holds a ↔ p.Holds a :=
    holds_congr hcolumns hrows
  -- the arrays agree, no column is listed twice, each end is held, and the cycles are as claimed
  refine ⟨hbefore.join hl.slotOf_lt hr.slotOf_lt, ?_, ?_, ?_⟩
  · rw [hcolumns]
    exact hp.nodup
  · intro c hc
    rw [hcopies, Array.mem_push] at hc
    rw [hholds, hholds]
    rcases hc with hc | rfl
    · exact hp.holds c hc
    · exact ⟨hl, hr⟩
  · intro x y
    have hcopied : ∀ x y, (pushed.join (p.slotOf left) (p.slotOf right)).Copied x y ↔
        p.Copied x y ∨ (x = p.slotOf left ∧ y = p.slotOf right) := by
      intro x y
      unfold Copied
      simp only [hcopies, hslot, Array.mem_push]
      constructor
      · rintro ⟨c, hc | rfl, hx, hy⟩
        · exact .inl ⟨c, hc, hx, hy⟩
        · exact .inr ⟨hx, hy⟩
      · rintro (⟨c, hc, hx, hy⟩ | ⟨hx, hy⟩)
        · exact ⟨c, .inl hc, hx, hy⟩
        · exact ⟨_, .inr rfl, hx, hy⟩
    -- the join connects the classes of the two ends, and so does one more pair of the closure
    rw [hbefore.leads_join_iff hl.slotOf_lt hr.slotOf_lt, eqvGen_insert hcopied]
    have hleads : ∀ x y, Leads pushed.nextSlot x y ↔ EqvGen p.Copied x y := hp.leads_iff
    unfold Met
    simp only [hleads]

/-! ## Connected positions -/

/-- Are two positions connected by accepted copies? -/
def Connected (p : Permutation) (a b : Position) : Prop :=
  EqvGen (fun a b => (a, b) ∈ p.copies) a b

/-- Positions are connected exactly if their slots are. -/
theorem Connecting.connected_iff (hp : p.Connecting) (ha : p.Holds a) (hb : p.Holds b) :
    p.Connected a b ↔ EqvGen p.Copied (p.slotOf a) (p.slotOf b) := by
  constructor
  · intro h
    -- a copy of positions is a copy of their slots
    have hslots : ∀ {a b}, p.Connected a b → EqvGen p.Copied (p.slotOf a) (p.slotOf b) := by
      intro a b h
      induction h with
      | rel a b h => exact .rel _ _ ⟨(a, b), h, rfl, rfl⟩
      | refl a => exact .refl _
      | symm a b _ ih => exact ih.symm
      | trans a b c _ _ ihab ihbc => exact ihab.trans _ _ _ ihbc
    exact hslots h
  · intro h
    -- and back again: every copied slot is the slot of a position that the permutation holds
    have hpositions : ∀ {x y}, EqvGen p.Copied x y → p.Connected (p.position x) (p.position y) := by
      intro x y h
      induction h with
      | rel x y h =>
        rcases h with ⟨c, hc, rfl, rfl⟩
        rcases hp.holds c hc with ⟨hleft, hright⟩
        rw [hleft.position_slotOf, hright.position_slotOf]
        exact .rel _ _ hc
      | refl x => exact .refl _
      | symm x y _ ih => exact ih.symm
      | trans x y z _ _ ihxy ihyz => exact ihxy.trans _ _ _ ihyz
    have h := hpositions h
    rwa [ha.position_slotOf, hb.position_slotOf] at h

/-- Is a permutation what its copies generate? -/
structure Generated (p : Permutation) : Prop where
  /-- The slots number the positions of the permutation. -/
  positions : Set.BijOn p.position (Set.Iio p.size) {a | p.Holds a}
  bijection : Set.BijOn p.nextSlot (Set.Iio p.size) (Set.Iio p.size)
  /-- The orbits are the classes of connected positions. -/
  orbit_iff : ∀ i < p.size, ∀ j < p.size,
    (∃ k, p.nextSlot^[k] i = j) ↔ p.Connected (p.position i) (p.position j)
  /-- And so are the slots with one representative. -/
  root_iff : ∀ i < p.size, ∀ j < p.size,
    p.root i = p.root j ↔ p.Connected (p.position i) (p.position j)
  root_lt : ∀ i < p.size, p.root i < p.size
  /-- A representative lies in the class that it stands for. -/
  connected_root : ∀ i < p.size, p.Connected (p.position i) (p.position (p.root i))
  /-- The weight of a representative is the size of its class. -/
  weight : ∀ i < p.size,
    p.weightAt (p.root i) = {a | p.Holds a ∧ p.Connected (p.position i) a}.ncard
  sameCycle : ∀ a b, p.Holds a → p.Holds b →
    ∃ answer, p.sameCycle a b = .ok answer ∧ (answer = true ↔ p.Connected a b)

/-- Slots lie on one cycle iff copies connect their positions. -/
theorem Connecting.leads_iff_connected (hp : p.Connecting) (hi : i < p.size) (hj : j < p.size) :
    Leads p.nextSlot i j ↔ p.Connected (p.position i) (p.position j) := by
  rw [hp.connected_iff (holds_position hi) (holds_position hj), slotOf_position hp.nodup hi,
    slotOf_position hp.nodup hj, hp.leads_iff]

/-- The positions of a class are those of the slots with one representative. -/
theorem Connecting.image_represented (hp : p.Connecting) (hi : i < p.size) :
    p.position '' (p.represented (p.root i) : Set Nat) =
      {a | p.Holds a ∧ p.Connected (p.position i) a} := by
  ext a
  simp only [represented, Set.mem_image, Finset.coe_filter, Finset.mem_range, Set.mem_ofPred_eq]
  constructor
  · rintro ⟨j, ⟨hj, hroot⟩, rfl⟩
    refine ⟨holds_position hj, ?_⟩
    -- one representative, hence one cycle, hence connected
    rw [← hp.leads_iff_connected hi hj, hp.consistent.leads_iff_root, hroot]
  · rintro ⟨ha, hconnected⟩
    have hslot : p.position (p.slotOf a) = a := ha.position_slotOf
    refine ⟨p.slotOf a, ⟨ha.slotOf_lt, ?_⟩, hslot⟩
    rw [← hslot, ← hp.leads_iff_connected hi ha.slotOf_lt, hp.consistent.leads_iff_root]
      at hconnected
    exact hconnected.symm

/-- Held positions are compared by their representatives. -/
theorem sameCycle_of_holds (ha : p.Holds a) (hb : p.Holds b) :
    p.sameCycle a b = .ok (decide (p.root (p.slotOf a) = p.root (p.slotOf b))) := by
  have hla : p.columnIndex a.column = .ok (p.columns.idxOf a.column) :=
    (columnIndex_eq_ok_iff ..).2 ⟨ha.1, rfl⟩
  have hlb : p.columnIndex b.column = .ok (p.columns.idxOf b.column) :=
    (columnIndex_eq_ok_iff ..).2 ⟨hb.1, rfl⟩
  have hin : ¬ (p.rows ≤ a.row ∨ p.rows ≤ b.row) := by
    have := ha.2
    have := hb.2
    omega
  simp only [Permutation.sameCycle, hla, hlb, bind, Except.bind, if_neg hin]
  rfl

/-- What the copies generate is what the arrays say. -/
theorem Connecting.generated (hp : p.Connecting) : p.Generated := by
  have hpositions : Set.BijOn p.position (Set.Iio p.size) {a | p.Holds a} :=
    bijOn_position hp.nodup
  constructor
  case positions => exact hpositions
  case bijection => exact hp.consistent.cyclic.bijOn fun _ => hp.consistent.nextSlot_of_le
  case orbit_iff =>
    intro i hi j hj
    exact hp.leads_iff_connected hi hj
  case root_iff =>
    intro i hi j hj
    rw [← hp.leads_iff_connected hi hj, hp.consistent.leads_iff_root]
  case root_lt =>
    intro i hi
    exact hp.consistent.root_lt hi
  case connected_root =>
    intro i hi
    rw [← hp.leads_iff_connected hi (hp.consistent.root_lt hi)]
    exact hp.consistent.leads_root i
  case weight =>
    intro i hi
    -- slots are counted instead of positions, since they number them
    have hinj : Set.InjOn p.position (p.represented (p.root i) : Set Nat) := by
      refine hpositions.injOn.mono fun x hx => ?_
      simp only [represented, Finset.coe_filter, Finset.mem_range, Set.mem_ofPred_eq] at hx
      exact hx.1
    rw [← hp.image_represented hi, hinj.ncard_image, Set.ncard_coe_finset]
    exact hp.consistent.weightAt_root i hi
  case sameCycle =>
    intro a b ha hb
    refine ⟨_, sameCycle_of_holds ha hb, ?_⟩
    rw [decide_eq_true_iff, hp.connected_iff ha hb, ← hp.leads_iff, hp.consistent.leads_iff_root]

end Permutation

/-! ## Copies on a board -/

namespace Schema

/-- The columns that take part in copies are listed once. -/
theorem nodup_enableEquality {s : Schema} (h : s.equality.Nodup) (c : Column) :
    (s.enableEquality c).equality.Nodup := by
  unfold enableEquality
  split
  · exact h
  · next hc =>
    simp only [List.nodup_append, h, true_and, List.nodup_singleton, List.mem_singleton]
    rintro a ha b rfl rfl
    exact hc ha

/-- Enabling equality never lists a column twice. -/
theorem nodup_foldl_enableEquality (added : List Column) {s : Schema} (h : s.equality.Nodup) :
    (added.foldl enableEquality s).equality.Nodup := by
  induction added generalizing s with
  | nil => exact h
  | cons c added ih => exact ih (nodup_enableEquality h c)

end Schema

namespace Board

variable {φ : Type}

/-- Offers copies to a board one after another; those that it refuses are passed over. -/
def offer (calls : List (Position × Position)) : Run (Board φ) (List (Except Fault Unit)) :=
  Run.each (fun call => (connect call.1 call.2).attempt) calls

/-- A call for an accepted copy changes the permutation and nothing else. -/
theorem connect_of_ok {b : Board φ} {p q : Permutation} (hb : b.permutation = some p)
    {left right : Position} (h : p.copy left right = .ok q) :
    (connect left right).Ends b () { b with permutation := some q } := by
  simp [connect, hb, h]

/-- A call that fails leaves the board as it is. -/
theorem state_of_connect_error {b : Board φ} {left right : Position} {fault : Fault}
    (h : (connect left right b).result = .error fault) : (connect left right b).state = b := by
  cases hb : b.permutation with
  | none => simp [connect, Run.bind_apply, Run.get, Run.set, hb] at h
  | some p =>
    cases hq : p.copy left right with
    | ok q =>
      -- an accepted copy is no failure
      have hok := (connect_of_ok hb hq).1
      rw [h] at hok
      cases hok
    | error fault' =>
      simp [connect, Run.bind_apply, Run.get, Run.ofExcept, Run.raise, hb, hq]

/-- A copy that the permutation refuses is refused by the board. -/
theorem connect_of_error {b : Board φ} {p : Permutation} (hb : b.permutation = some p)
    {left right : Position} {fault : Fault} (h : p.copy left right = .error fault) :
    (connect left right b).result = .error fault := by
  simp [connect, Run.bind_apply, Run.get, Run.ofExcept, Run.raise, hb, h]

/-- Do both ends of a copy belong to a permutation? -/
def Accepts (p : Permutation) (call : Position × Position) : Prop :=
  p.Holds call.1 ∧ p.Holds call.2

instance (p : Permutation) (call : Position × Position) : Decidable (Accepts p call) :=
  inferInstanceAs (Decidable (p.Holds call.1 ∧ p.Holds call.2))

/-- Which copies are accepted is seen from the columns and the rows, which no copy changes. -/
theorem accepts_congr {p q : Permutation} (hcolumns : q.columns = p.columns) (hrows : q.rows = p.rows)
    (call : Position × Position) : Accepts q call ↔ Accepts p call := by
  unfold Accepts
  rw [Permutation.holds_congr hcolumns hrows, Permutation.holds_congr hcolumns hrows]

/-- One call: it succeeds exactly if its ends belong to the permutation, and is then recorded. -/
theorem connecting_connect {b : Board φ} {p : Permutation} (hb : b.permutation = some p)
    (hp : p.Connecting) (call : Position × Position) :
    ∃ result q, (connect call.1 call.2).attempt.Ends b result { b with permutation := some q } ∧
      (q.rows = p.rows ∧ q.columns = p.columns) ∧ (result = .ok () ↔ Accepts p call) ∧
      q.copies.toList = p.copies.toList ++ [call].filter (Accepts p ·) ∧ q.Connecting := by
  cases h : p.copy call.1 call.2 with
  | ok q =>
    have hends := connect_of_ok hb h
    -- an accepted copy joins two cycles and is listed
    have haccepts : Accepts p call := ((Permutation.copy_eq_ok_iff ..).1 h).1
    have hkeeps : q.rows = p.rows ∧ q.columns = p.columns := by
      rcases (Permutation.copy_eq_ok_iff ..).1 h with ⟨-, rfl⟩
      obtain ⟨hcolumns, hrows, -⟩ := Permutation.join_keeps
        { p with copies := p.copies.push call } (p.slotOf call.1) (p.slotOf call.2)
      exact ⟨hrows, hcolumns⟩
    refine ⟨.ok (), q, (Run.ends_attempt ..).2 hends, hkeeps, by simp [haccepts], ?_, hp.copy h⟩
    simp [Permutation.copies_copy h, haccepts]
  | error fault =>
    have hresult := connect_of_error hb h
    -- a rejected one leaves the board as it was
    have hrejects : ¬ Accepts p call := by
      intro haccepts
      have hok := (Permutation.copy_eq_ok_iff p _ _ _).2 ⟨haccepts, rfl⟩
      rw [h] at hok
      cases hok
    have hsame : { b with permutation := some p } = b := by
      rw [← hb]
    refine ⟨.error fault, p, (Run.ends_attempt ..).2 ⟨hresult, ?_⟩, ⟨rfl, rfl⟩, by simp [hrejects],
      by simp [hrejects], hp⟩
    rw [hsame]
    exact state_of_connect_error hresult

/-- A list of calls, from any permutation that is what its copies connect. -/
theorem connecting_offer {b : Board φ} {p : Permutation} (hb : b.permutation = some p)
    (hp : p.Connecting) (calls : List (Position × Position)) :
    ∃ results q, (offer calls).Ends b results { b with permutation := some q } ∧
      (q.rows = p.rows ∧ q.columns = p.columns) ∧
      List.Forall₂ (fun call result => result = .ok () ↔ Accepts p call) calls results ∧
      q.copies.toList = p.copies.toList ++ calls.filter (Accepts p ·) ∧ q.Connecting := by
  induction calls generalizing b p with
  | nil =>
    -- no call, no change
    refine ⟨[], p, ?_, ⟨rfl, rfl⟩, .nil, by simp, hp⟩
    rw [offer, Run.ends_each_nil, ← hb]
    exact ⟨rfl, rfl⟩
  | cons call calls ih =>
    obtain ⟨result, q, hcall, ⟨hrows, hcolumns⟩, hresult, hcopies, hq⟩ :=
      connecting_connect hb hp call
    obtain ⟨results, r, hcalls, ⟨hrows', hcolumns'⟩, hresults, hcopies', hr⟩ :=
      ih (b := { b with permutation := some q }) rfl hq
    -- the later calls were judged by the permutation that the first one left
    simp only [accepts_congr hcolumns hrows] at hresults hcopies'
    refine ⟨result :: results, r, ?_, ⟨hrows'.trans hrows, hcolumns'.trans hcolumns⟩,
      .cons hresult hresults, ?_, hr⟩
    · exact (Run.ends_each_cons ..).2 ⟨result, _, results, hcall, hcalls, rfl⟩
    · rw [hcopies', hcopies, List.append_assoc, ← List.filter_append]
      rfl

/-- The permutation of a board generates, from the columns that were added to it and for any list
of calls, exactly the equivalence of the accepted copies. A call is accepted exactly if both of its
ends belong to the permutation; one that is refused leaves the board as it is. -/
theorem offer_generates (b : Board φ) (rows : Nat) (added : List Column)
    (calls : List (Position × Position)) :
    ∃ results p,
      (offer calls).Ends
        { b with permutation := some (.identity rows (added.foldl Schema.enableEquality ∅).equality) }
        results { b with permutation := some p } ∧
      (p.rows = rows ∧ p.columns = (added.foldl Schema.enableEquality ∅).equality) ∧
      List.Forall₂ (fun call result => result = .ok () ↔ Accepts p call) calls results ∧
      p.copies.toList = calls.filter (Accepts p ·) ∧
      p.Generated ∧
      ∀ left right fault,
        (connect left right { b with permutation := some p }).result = .error fault →
          (connect left right { b with permutation := some p }).state =
            { b with permutation := some p } := by
  have hnodup : (added.foldl Schema.enableEquality ∅).equality.Nodup :=
    Schema.nodup_foldl_enableEquality added List.nodup_nil
  obtain ⟨results, p, hends, ⟨hrows, hcolumns⟩, hresults, hcopies, hp⟩ :=
    connecting_offer (b := { b with permutation := _ }) rfl (.identity rows hnodup) calls
  -- the permutation without copies accepts what the one in the end does
  simp only [← accepts_congr hcolumns hrows] at hresults hcopies
  refine ⟨results, p, hends, ⟨hrows, hcolumns⟩, hresults, ?_, hp.generated, ?_⟩
  · simpa [Permutation.identity] using hcopies
  · intro left right fault h
    exact state_of_connect_error h

end Board

end CircuitLayout
