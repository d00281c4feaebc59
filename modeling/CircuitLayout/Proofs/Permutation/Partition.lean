import Mathlib.Data.List.Lex
import Mathlib.Data.List.Sort
import Mathlib.Data.Prod.Lex
import CircuitLayout.Proofs.Permutation.Copies

namespace CircuitLayout

/-! # The cycles as a partition

The cycles of more than one position are filtered by the successors of the slots, grouped by the
representatives and sorted twice. Main statement: `Board.cycles_offered`, whatever copies a board is
offered, the list that results is the one canonical list of the classes of connected positions, so it
depends on the classes alone.
-/

/-! ## Two orders -/

namespace Position

variable {a b : Position}

/-- What positions are ordered by. -/
def key (a : Position) : Nat ×ₗ Nat ×ₗ Nat :=
  toLex (a.column.kind.rank, toLex (a.column.index, a.row))

/-- A position is known from its key. -/
theorem key_injective : Function.Injective key := by
  rintro ⟨⟨kind, index⟩, row⟩ ⟨⟨kind', index'⟩, row'⟩ h
  simp only [key, toLex_inj, Prod.mk.injEq] at h
  obtain ⟨hkind, rfl, rfl⟩ := h
  cases kind <;> cases kind' <;> first | rfl | cases hkind

/-- Does a position come before another one, by the kind of its column, then by the index of the
column, then by its row? -/
def Precedes (a b : Position) : Prop := before a b = true

instance : DecidableRel Precedes := fun a b => inferInstanceAs (Decidable (before a b = true))

/-- Positions are ordered by their keys. -/
theorem precedes_iff : Precedes a b ↔ a.key < b.key := by
  obtain ⟨⟨kind, index⟩, row⟩ := a
  obtain ⟨⟨kind', index'⟩, row'⟩ := b
  simp only [Precedes, before, key, Prod.Lex.toLex_lt_toLex, Bool.or_eq_true, Bool.and_eq_true,
    decide_eq_true_eq, Column.mk.injEq]
  cases kind <;> cases kind' <;> simp [ColumnKind.rank]

instance : Std.Asymm Precedes :=
  ⟨fun _ _ h h' => lt_asymm (precedes_iff.1 h) (precedes_iff.1 h')⟩

instance : Std.Trichotomous Precedes where
  trichotomous a b h h' := by
    rw [precedes_iff, not_lt] at h h'
    exact key_injective (le_antisymm h' h)

instance : IsOrderConnected Position Precedes where
  conn a b c h := by
    simp only [precedes_iff] at h ⊢
    exact (lt_or_ge a.key b.key).imp_right fun hba => lt_of_le_of_lt hba h

end Position

open Position (Precedes)

namespace Permutation

/-- A list comes nowhere after another one exactly if that one does not come before it. -/
theorem listLe_iff (as bs : List Position) :
    listLe as bs = true ↔ ¬ List.Lex Precedes bs as := by
  induction as generalizing bs with
  | nil => simp [listLe]
  | cons a as ih =>
    cases bs with
    | nil => simp [listLe]
    | cons b bs =>
      have hlex : List.Lex Precedes (b :: bs) (a :: as) ↔
          Precedes b a ∨ (b = a ∧ List.Lex Precedes bs as) := by
        constructor
        · rintro (_ | h | h)
          · exact .inl h
          · exact .inr ⟨rfl, h⟩
        · rintro (h | ⟨rfl, h⟩)
          · exact .rel h
          · exact .cons h
      have hstep : listLe (a :: as) (b :: bs) = true ↔
          Precedes a b ∨ (¬ Precedes b a ∧ listLe as bs = true) := by
        simp [listLe, Precedes]
      rw [hstep, hlex, ih]
      -- the first positions decide unless they are equal
      rcases trichotomous_of Precedes a b with hab | rfl | hba
      · have hba : ¬ Precedes b a := asymm hab
        have hne : b ≠ a := fun h => hba (h ▸ hab)
        simp [hab, hba, hne]
      · simp [irrefl_of Precedes a]
      · have hab : ¬ Precedes a b := asymm hba
        simp [hab, hba]

end Permutation

/-- Sorting by the converse of a strict order puts a list without repetitions in that order. -/
theorem pairwise_mergeSort_of_nodup {α : Type} {r : α → α → Prop} [Std.Asymm r]
    [Std.Trichotomous r] [IsOrderConnected α r] {le : α → α → Bool}
    (hle : ∀ a b, le a b = true ↔ ¬ r b a) {l : List α} (hl : l.Nodup) :
    (l.mergeSort le).Pairwise r := by
  have hsorted : (l.mergeSort le).Pairwise fun a b => le a b = true := by
    -- the order of the sort is transitive and total
    refine List.pairwise_mergeSort ?_ ?_ l
    · intro a b c hab hbc
      rw [hle] at hab hbc ⊢
      intro hca
      exact (IsOrderConnected.conn c b a hca).elim hbc hab
    · intro a b
      rw [Bool.or_eq_true, hle, hle]
      by_contra! h
      exact Std.Asymm.asymm _ _ h.1 h.2
  have hdistinct : (l.mergeSort le).Pairwise (· ≠ ·) := List.nodup_iff_pairwise_ne.1 hl.mergeSort
  refine hdistinct.imp₂ (fun a b hne hab => ?_) hsorted
  -- distinct neighbours that do not precede one another would be equal
  by_contra hnot
  exact hne (Std.Trichotomous.trichotomous a b hnot ((hle a b).1 hab))

/-- Erasing duplicates leaves none. -/
theorem nodup_eraseDups {α : Type} [DecidableEq α] (l : List α) : l.eraseDups.Nodup := by
  cases l with
  | nil => simp
  | cons a l =>
    rw [List.eraseDups_cons, List.nodup_cons, List.mem_eraseDups]
    exact ⟨by simp, nodup_eraseDups _⟩
termination_by l.length
decreasing_by exact Nat.lt_succ_of_le (List.length_filter_le ..)

namespace Permutation

variable {p q : Permutation} {a b c : Position} {i j r : Nat}

/-! ## Classes of more than one position -/

/-- Are some lists the classes of more than one member of a relation, in canonical form? -/
structure Canonical (R : Position → Position → Prop) (cycles : List (List Position)) : Prop where
  inhabited : ∀ cycle ∈ cycles, cycle ≠ []
  /-- A list holds whatever is related to one of its members, and nothing else. -/
  mem_iff : ∀ cycle ∈ cycles, ∀ a ∈ cycle, ∀ b, b ∈ cycle ↔ R a b
  /-- A position that is related to itself alone is not listed. -/
  paired : ∀ cycle ∈ cycles, ∀ a ∈ cycle, ∃ b, b ≠ a ∧ R a b
  /-- Every other one is listed, in one list. -/
  once : ∀ a b, b ≠ a → R a b → cycles.countP (fun cycle => decide (a ∈ cycle)) = 1
  /-- Each list is in order. -/
  ascending : ∀ cycle ∈ cycles, cycle.Pairwise Precedes
  /-- And so are the lists. -/
  sorted : cycles.Pairwise (List.Lex Precedes)

namespace Canonical

variable {R : Position → Position → Prop} {cs ds : List (List Position)}

/-- Of two canonical lists of the same relation, each holds the cycles of the other. -/
theorem subset (hc : Canonical R cs) (hd : Canonical R ds) : cs ⊆ ds := by
  intro cycle hcycle
  obtain ⟨a, ha⟩ := List.exists_mem_of_ne_nil cycle (hc.inhabited cycle hcycle)
  obtain ⟨b, hne, hab⟩ := hc.paired cycle hcycle a ha
  -- the class of a member is among the other lists as well
  have hlisted : 0 < ds.countP (fun cycle => decide (a ∈ cycle)) := by
    rw [hd.once a b hne hab]
    exact Nat.one_pos
  obtain ⟨other, hother, hmem⟩ := List.countP_pos_iff.1 hlisted
  have ha' : a ∈ other := of_decide_eq_true hmem
  have hsame : cycle = other := by
    refine (hc.ascending cycle hcycle).eq_of_mem_iff (hd.ascending other hother) fun x => ?_
    rw [hc.mem_iff cycle hcycle a ha, hd.mem_iff other hother a ha']
  rwa [hsame]

/-- A relation has one canonical list of classes. -/
theorem unique (hc : Canonical R cs) (hd : Canonical R ds) : cs = ds :=
  List.Subset.antisymm_of_pairwise hc.sorted hd.sorted (hc.subset hd) (hd.subset hc)

end Canonical

/-- A slot is moved exactly if it shares its representative with another slot. -/
theorem Consistent.nextSlot_ne_iff (hp : p.Consistent) :
    p.nextSlot i ≠ i ↔ ∃ j, j ≠ i ∧ p.root i = p.root j := by
  constructor
  · intro h
    exact ⟨p.nextSlot i, h, hp.root_eq (.step _ i)⟩
  · rintro ⟨j, hne, hroot⟩ hfixed
    -- a slot that is its own successor leads nowhere else
    have hj : j = i :=
      (hp.leads_iff_root.2 hroot).induction (P := (· = i)) rfl fun z hz => hz ▸ hfixed
    exact hne hj

/-- A slot is moved iff it is not its own successor. -/
theorem mem_movedSlots : i ∈ p.movedSlots ↔ i < p.size ∧ p.nextSlot i ≠ i := by
  simp [movedSlots]

/-- Slots with the representative of a moved slot are moved. -/
theorem Consistent.moved_of_root_eq (hp : p.Consistent) (hi : i ∈ p.movedSlots)
    (hj : j < p.size) (hroot : p.root j = p.root i) : j ∈ p.movedSlots := by
  rw [mem_movedSlots] at hi ⊢
  refine ⟨hj, hp.nextSlot_ne_iff.2 ?_⟩
  by_cases hij : i = j
  · subst hij
    exact hp.nextSlot_ne_iff.1 hi.2
  · exact ⟨i, hij, hroot⟩

/-- The listed class of a representative. -/
def classOf (p : Permutation) (r : Nat) : List Position :=
  ((p.movedSlots.filter fun i => decide (p.root i = r)).map p.position).mergeSort
    fun a b => !before b a

/-- The representatives of the moved slots. -/
def movedRoots (p : Permutation) : List Nat := (p.movedSlots.map p.root).eraseDups

/-- The cycles are the sorted classes of the moved representatives. -/
theorem cycles_eq (p : Permutation) :
    p.cycles = (p.movedRoots.map p.classOf).mergeSort listLe := rfl

/-- The moved representatives are those of moved slots. -/
theorem mem_movedRoots : r ∈ p.movedRoots ↔ ∃ i ∈ p.movedSlots, p.root i = r := by
  simp [movedRoots]

/-- A cycle is the class of some moved slot. -/
theorem mem_cycles {cycle : List Position} :
    cycle ∈ p.cycles ↔ ∃ i ∈ p.movedSlots, p.classOf (p.root i) = cycle := by
  simp [cycles_eq, mem_movedRoots]

namespace Connecting

variable (hp : p.Connecting)

include hp

/-- Held positions are connected iff they have one representative. -/
theorem connected_iff_root (ha : p.Holds a) (hb : p.Holds b) :
    p.Connected a b ↔ p.root (p.slotOf a) = p.root (p.slotOf b) := by
  rw [hp.connected_iff ha hb, ← hp.leads_iff, hp.consistent.leads_iff_root]

/-- Only positions of the permutation are connected with others. -/
theorem holds_of_connected (h : p.Connected a b) : a = b ∨ (p.Holds a ∧ p.Holds b) := by
  induction h with
  | rel a b h => exact .inr (hp.holds _ h)
  | refl a => exact .inl rfl
  | symm a b _ ih => exact ih.imp Eq.symm And.symm
  | trans a b c _ _ ihab ihbc =>
    rcases ihab with rfl | ⟨ha, hb⟩
    · exact ihbc
    · rcases ihbc with rfl | ⟨-, hc⟩
      · exact .inr ⟨ha, hb⟩
      · exact .inr ⟨ha, hc⟩

/-- The class of a slot holds the positions with its representative. -/
theorem mem_classOf (hi : i ∈ p.movedSlots) :
    a ∈ p.classOf (p.root i) ↔ p.Holds a ∧ p.root (p.slotOf a) = p.root i := by
  simp only [classOf, List.mem_mergeSort, List.mem_map, List.mem_filter, decide_eq_true_eq]
  constructor
  · rintro ⟨j, ⟨hj, hroot⟩, rfl⟩
    have hlt := (mem_movedSlots.1 hj).1
    rw [slotOf_position hp.nodup hlt]
    exact ⟨holds_position hlt, hroot⟩
  · rintro ⟨ha, hroot⟩
    exact ⟨p.slotOf a, ⟨hp.consistent.moved_of_root_eq hi ha.slotOf_lt hroot, hroot⟩,
      ha.position_slotOf⟩

/-- A position of the permutation is connected with another one exactly if its slot is moved. -/
theorem moved_iff (ha : p.Holds a) :
    p.slotOf a ∈ p.movedSlots ↔ ∃ b, b ≠ a ∧ p.Connected a b := by
  rw [mem_movedSlots, hp.consistent.nextSlot_ne_iff]
  -- a slot is moved iff another one shares its cycle
  constructor
  · rintro ⟨hlt, j, hne, hroot⟩
    have hj : j < p.size :=
      hp.consistent.cyclic.lt_of_leads (fun _ => hp.consistent.nextSlot_of_le) hlt
        (hp.consistent.leads_iff_root.2 hroot)
    have hslot : p.slotOf (p.position j) = j := slotOf_position hp.nodup hj
    refine ⟨p.position j, ?_, ?_⟩
    · rintro rfl
      exact hne hslot.symm
    · rwa [hp.connected_iff_root ha (holds_position hj), hslot]
  · rintro ⟨b, hne, hab⟩
    obtain ⟨-, hb⟩ := (hp.holds_of_connected hab).resolve_left hne.symm
    -- the slot of the other position shares the cycle, and it is another slot
    refine ⟨ha.slotOf_lt, p.slotOf b, ?_, (hp.connected_iff_root ha hb).1 hab⟩
    intro hslot
    have hsame : p.position (p.slotOf b) = p.position (p.slotOf a) := by rw [hslot]
    exact hne (by rwa [hb.position_slotOf, ha.position_slotOf] at hsame)

/-- A class lists its positions in order. -/
theorem pairwise_classOf (r : Nat) : (p.classOf r).Pairwise Precedes := by
  have hslots : (p.movedSlots.filter fun i => decide (p.root i = r)).Nodup :=
    (List.nodup_range.filter _).filter _
  refine pairwise_mergeSort_of_nodup (by simp [Precedes]) (hslots.map_on ?_)
  intro i hi j hj hij
  have hi := (mem_movedSlots.1 (List.mem_of_mem_filter hi)).1
  have hj := (mem_movedSlots.1 (List.mem_of_mem_filter hj)).1
  rw [← slotOf_position hp.nodup hi, hij, slotOf_position hp.nodup hj]

/-- A moved slot has its position in its class. -/
theorem position_mem_classOf (hi : i ∈ p.movedSlots) : p.position i ∈ p.classOf (p.root i) := by
  have hlt := (mem_movedSlots.1 hi).1
  rw [hp.mem_classOf hi, slotOf_position hp.nodup hlt]
  exact ⟨holds_position hlt, rfl⟩

/-- Different representatives have different classes. -/
theorem nodup_classes : (p.movedRoots.map p.classOf).Nodup := by
  refine (nodup_eraseDups _).map_on ?_
  intro r hr s hs hclass
  obtain ⟨i, hi, rfl⟩ := mem_movedRoots.1 hr
  obtain ⟨j, hj, rfl⟩ := mem_movedRoots.1 hs
  -- a class names its representative, through any of its members
  have hmem := hp.position_mem_classOf hi
  rw [hclass, hp.mem_classOf hj, slotOf_position hp.nodup (mem_movedSlots.1 hi).1] at hmem
  exact hmem.2

/-- A position that is connected with another one lies in one of the listed cycles. -/
theorem countP_cycles (hne : b ≠ a) (hab : p.Connected a b) :
    p.cycles.countP (fun cycle => decide (a ∈ cycle)) = 1 := by
  obtain ⟨ha, -⟩ := (hp.holds_of_connected hab).resolve_left hne.symm
  have hmoved : p.slotOf a ∈ p.movedSlots := (hp.moved_iff ha).2 ⟨b, hne, hab⟩
  -- of the representatives, that of the position is the one whose class holds it
  have hclass : ∀ r ∈ p.movedRoots,
      (decide (a ∈ p.classOf r) = true ↔ (r == p.root (p.slotOf a)) = true) := by
    intro r hr
    obtain ⟨i, hi, rfl⟩ := mem_movedRoots.1 hr
    rw [decide_eq_true_eq, hp.mem_classOf hi, beq_iff_eq]
    exact ⟨fun h => h.2.symm, fun h => ⟨ha, h.symm⟩⟩
  calc p.cycles.countP (fun cycle => decide (a ∈ cycle))
      = (p.movedRoots.map p.classOf).countP (fun cycle => decide (a ∈ cycle)) :=
        (List.mergeSort_perm _ _).countP_eq _
    _ = p.movedRoots.countP (fun r => decide (a ∈ p.classOf r)) := by
        rw [List.countP_map]
        rfl
    _ = p.movedRoots.count (p.root (p.slotOf a)) := List.countP_congr hclass
    _ = 1 := List.count_eq_one_of_mem (nodup_eraseDups _)
        (mem_movedRoots.2 ⟨_, hmoved, rfl⟩)

/-- The listed cycles are the classes of connected positions. -/
theorem canonical : Canonical p.Connected p.cycles := by
  have hmembers : ∀ cycle ∈ p.cycles, ∃ i ∈ p.movedSlots, p.classOf (p.root i) = cycle :=
    fun cycle => mem_cycles.1
  constructor
  case inhabited =>
    intro cycle hcycle
    obtain ⟨i, hi, rfl⟩ := hmembers cycle hcycle
    exact List.ne_nil_of_mem (hp.position_mem_classOf hi)
  case mem_iff =>
    intro cycle hcycle a ha b
    obtain ⟨i, hi, rfl⟩ := hmembers cycle hcycle
    obtain ⟨ha, hroot⟩ := (hp.mem_classOf hi).1 ha
    rw [hp.mem_classOf hi, ← hroot]
    constructor
    · rintro ⟨hb, hsame⟩
      exact (hp.connected_iff_root ha hb).2 hsame.symm
    · intro hab
      rcases hp.holds_of_connected hab with rfl | ⟨-, hb⟩
      · exact ⟨ha, rfl⟩
      · exact ⟨hb, ((hp.connected_iff_root ha hb).1 hab).symm⟩
  -- a slot whose representative is moved is itself moved
  case paired =>
    intro cycle hcycle a ha
    obtain ⟨i, hi, rfl⟩ := hmembers cycle hcycle
    obtain ⟨ha, hroot⟩ := (hp.mem_classOf hi).1 ha
    exact (hp.moved_iff ha).1 (hp.consistent.moved_of_root_eq hi ha.slotOf_lt hroot)
  -- classes of different representatives share no position
  case once =>
    intro a b hne hab
    exact hp.countP_cycles hne hab
  case ascending =>
    intro cycle hcycle
    obtain ⟨i, -, rfl⟩ := hmembers cycle hcycle
    exact hp.pairwise_classOf _
  case sorted =>
    rw [cycles_eq]
    exact pairwise_mergeSort_of_nodup listLe_iff hp.nodup_classes

end Connecting

/-- Whatever one permutation connects is connected in another one that connects the copies of the
first. -/
theorem Connected.of_copies (hcopies : ∀ c ∈ p.copies, q.Connected c.1 c.2)
    (h : p.Connected a b) : q.Connected a b := by
  induction h with
  | rel a b h => exact hcopies _ h
  | refl a => exact .refl a
  | symm a b _ ih => exact ih.symm
  | trans a b c _ _ ihab ihbc => exact ihab.trans _ _ _ ihbc

end Permutation

namespace Board

variable {φ : Type}

/-- A board on which no copy was recorded yet, with the columns that were added for copies. -/
def uncopied (b : Board φ) (rows : Nat) (added : List Column) : Board φ :=
  { b with permutation := some (.identity rows (added.foldl Schema.enableEquality ∅).equality) }

/-- Offered copies connect what the permutation connects. -/
theorem connecting_of_offer {b : Board φ} {rows : Nat} {added : List Column}
    {calls : List (Position × Position)} {results : List (Except Fault Unit)} {p : Permutation}
    (h : (offer calls).Ends (b.uncopied rows added) results { b with permutation := some p }) :
    p.Connecting := by
  have hnodup : (added.foldl Schema.enableEquality ∅).equality.Nodup :=
    Schema.nodup_foldl_enableEquality added List.nodup_nil
  obtain ⟨results', q, hends, -, -, -, hq⟩ :=
    connecting_offer (b := b.uncopied rows added) rfl (.identity rows hnodup) calls
  have hboard := congrArg Board.permutation (h.unique hends).2
  obtain rfl : p = q := Option.some.inj hboard
  exact hq

/-- Whatever copies a board is offered, the cycles that it lists are the canonical list of the classes
of connected positions. Copies that connect the same positions, in another order, on other columns or
on a grid of another height, give the same list. -/
theorem cycles_offered (b : Board φ) (rows : Nat) (added : List Column)
    (calls : List (Position × Position)) :
    ∃ results p,
      (offer calls).Ends (b.uncopied rows added) results { b with permutation := some p } ∧
      p.copies.toList = calls.filter (Accepts p ·) ∧
      Permutation.Canonical p.Connected p.cycles ∧
      ∀ (c : Board φ) rows' added' calls' results' q,
        (offer calls').Ends (c.uncopied rows' added') results' { c with permutation := some q } →
        (∀ x y, q.Connected x y ↔ p.Connected x y) → q.cycles = p.cycles := by
  have hnodup : (added.foldl Schema.enableEquality ∅).equality.Nodup :=
    Schema.nodup_foldl_enableEquality added List.nodup_nil
  obtain ⟨results, p, hends, ⟨hrows, hcolumns⟩, -, hcopies, hp⟩ :=
    connecting_offer (b := b.uncopied rows added) rfl (.identity rows hnodup) calls
  refine ⟨results, p, hends, ?_, hp.canonical, ?_⟩
  · simp only [← accepts_congr hcolumns hrows] at hcopies
    simpa [Permutation.identity, uncopied] using hcopies
  · intro c rows' added' calls' results' q hq hsame
    have hrelation : q.Connected = p.Connected := by
      funext x y
      exact propext (hsame x y)
    have hcanonical := (connecting_of_offer hq).canonical
    rw [hrelation] at hcanonical
    exact hcanonical.unique hp.canonical

/-! ## Two ways round a ring -/

/-- A board of four rows with columns of each kind, listed in another order than the columns have. -/
def ringed : Board Unit :=
  (root .keygen 2 4 0 0 0 () []).uncopied 4 [.fixed 1, .advice 0, .input 0]

/-- Three positions are connected one after the other, and two more. -/
def ringCopies : List (Position × Position) :=
  [(⟨.fixed 1, 2⟩, ⟨.input 0, 0⟩), (⟨.input 0, 0⟩, ⟨.advice 0, 3⟩),
    (⟨.advice 0, 1⟩, ⟨.advice 0, 0⟩)]

/-- The same positions are connected from one of the three, with a copy that is refused in between. -/
def starCopies : List (Position × Position) :=
  [(⟨.advice 0, 0⟩, ⟨.advice 0, 1⟩), (⟨.advice 0, 3⟩, ⟨.fixed 1, 2⟩),
    (⟨.advice 2, 0⟩, ⟨.fixed 1, 2⟩), (⟨.advice 0, 3⟩, ⟨.input 0, 0⟩)]

/-- The rings are walked in opposite directions, have other representatives, and are listed alike. -/
theorem cycles_of_ring_and_star :
    ∃ p q : Permutation, (offer ringCopies ringed).state.permutation = some p ∧
      (offer starCopies ringed).state.permutation = some q ∧
      p.next ≠ q.next ∧ p.representative ≠ q.representative ∧
      (∀ x y, q.Connected x y ↔ p.Connected x y) ∧ q.cycles = p.cycles ∧
      p.cycles = [[⟨.advice 0, 0⟩, ⟨.advice 0, 1⟩],
        [⟨.advice 0, 3⟩, ⟨.fixed 1, 2⟩, ⟨.input 0, 0⟩]] := by
  obtain ⟨results, p, hp, -, -, hlisted⟩ :=
    cycles_offered (root .keygen 2 4 0 0 0 () []) 4 [.fixed 1, .advice 0, .input 0] ringCopies
  obtain ⟨results', q, hq, -⟩ :=
    cycles_offered (root .keygen 2 4 0 0 0 () []) 4 [.fixed 1, .advice 0, .input 0] starCopies
  have hring : (offer ringCopies ringed).state.permutation = some p := congrArg permutation hp.2
  have hstar : (offer starCopies ringed).state.permutation = some q := congrArg permutation hq.2
  -- the arrays differ although the cycles agree
  have harrays : (offer ringCopies ringed).state.permutation.map (fun p => (p.next, p.representative)) =
      some (#[0, 1, 8, 3, 5, 4, 6, 2, 7, 9, 10, 11], #[0, 1, 2, 3, 5, 5, 6, 2, 2, 9, 10, 11]) := by
    decide +kernel
  have harrays' : (offer starCopies ringed).state.permutation.map (fun p => (p.next, p.representative)) =
      some (#[0, 1, 7, 3, 5, 4, 6, 8, 2, 9, 10, 11], #[0, 1, 7, 3, 4, 4, 6, 7, 7, 9, 10, 11]) := by
    decide +kernel
  have hcopies : (offer ringCopies ringed).state.permutation.map (·.copies) =
      some ringCopies.toArray := by
    decide +kernel
  have hcopies' : (offer starCopies ringed).state.permutation.map (·.copies) =
      some (starCopies.eraseIdx 2).toArray := by
    decide +kernel
  have hcycles : (offer ringCopies ringed).state.permutation.map (·.cycles) =
      some [[⟨.advice 0, 0⟩, ⟨.advice 0, 1⟩], [⟨.advice 0, 3⟩, ⟨.fixed 1, 2⟩, ⟨.input 0, 0⟩]] := by
    cbv
  rw [hring, Option.map_some, Option.some.injEq] at harrays hcopies hcycles
  rw [hstar, Option.map_some, Option.some.injEq] at harrays' hcopies'
  obtain ⟨hnext, hroots⟩ := Prod.mk.inj harrays
  obtain ⟨hnext', hroots'⟩ := Prod.mk.inj harrays'
  have hp' : ∀ c ∈ ringCopies, p.Connected c.1 c.2 := fun c hc => .rel _ _ (by simpa [hcopies])
  have hq' : ∀ c ∈ starCopies.eraseIdx 2, q.Connected c.1 c.2 :=
    fun c hc => .rel _ _ (by simpa [hcopies'])
  -- what one copy of the one board connects, one or two copies of the other one do
  have hsame : ∀ x y, q.Connected x y ↔ p.Connected x y := by
    intro x y
    constructor
    · refine Permutation.Connected.of_copies fun c hc => ?_
      simp only [hcopies', starCopies, List.eraseIdx_cons_succ, List.eraseIdx_cons_zero,
        List.mem_toArray, List.mem_cons, List.not_mem_nil, or_false] at hc
      rcases hc with rfl | rfl | rfl
      · exact (hp' (⟨.advice 0, 1⟩, ⟨.advice 0, 0⟩) (by decide)).symm
      · exact ((hp' (⟨.fixed 1, 2⟩, ⟨.input 0, 0⟩) (by decide)).trans _ _ _
          (hp' (⟨.input 0, 0⟩, ⟨.advice 0, 3⟩) (by decide))).symm
      · exact (hp' (⟨.input 0, 0⟩, ⟨.advice 0, 3⟩) (by decide)).symm
    · refine Permutation.Connected.of_copies fun c hc => ?_
      simp only [hcopies, ringCopies, List.mem_toArray, List.mem_cons, List.not_mem_nil,
        or_false] at hc
      rcases hc with rfl | rfl | rfl
      · exact ((hq' (⟨.advice 0, 3⟩, ⟨.fixed 1, 2⟩) (by decide)).symm).trans _ _ _
          (hq' (⟨.advice 0, 3⟩, ⟨.input 0, 0⟩) (by decide))
      · exact (hq' (⟨.advice 0, 3⟩, ⟨.input 0, 0⟩) (by decide)).symm
      · exact (hq' (⟨.advice 0, 0⟩, ⟨.advice 0, 1⟩) (by decide)).symm
  refine ⟨p, q, hring, hstar, ?_, ?_, hsame, ?_, hcycles⟩
  · rw [hnext, hnext']
    decide
  · rw [hroots, hroots']
    decide
  · exact hlisted _ 4 [.fixed 1, .advice 0, .input 0] starCopies results' q hq hsame

end Board

end CircuitLayout
