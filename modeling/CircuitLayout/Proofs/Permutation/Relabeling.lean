import Mathlib.Data.List.Iterate
import Mathlib.Data.Nat.Log
import CircuitLayout.Proofs.Permutation.Copies

namespace CircuitLayout

/-! # Small cycles into large ones

A copy between two cycles walks around one of them and gives each slot that it meets the
representative of the other one. The walk has no bound of its own: it ends when it is back where it
began. Main statement: `small_cycles_absorbed`, whatever copies were made, the walk ends after as
many rounds as the smaller cycle has slots, and no slot has changed its representative more often
than the binary logarithm of the size of its cycle.
-/

namespace Cyclic

variable {f : Nat → Nat}

/-- The points that are met from a point are those met before it comes up again. -/
theorem finite_leads (hf : Cyclic f) (x : Nat) : {y | Leads f x y}.Finite := by
  have hpos : 0 < Function.minimalPeriod f x :=
    Function.minimalPeriod_pos_of_mem_periodicPts (hf.mem_periodicPts x)
  refine ((Set.finite_Iio (Function.minimalPeriod f x)).image fun k => f^[k] x).subset ?_
  rintro y ⟨k, rfl⟩
  exact ⟨k % Function.minimalPeriod f x, Nat.mod_lt k hpos, Function.iterate_mod_minimalPeriod_eq⟩

end Cyclic

namespace Permutation

variable {p q : Permutation} {left right : Position} {i j r x : Nat}

/-! ## The walk -/

/-- A walk that gives slots a new representative until it comes to a given slot: the labels before
it, the slot where it begins, the slots that it meets, and the labels after it. It does not come to
an end unless the arrays have every slot that it meets. -/
inductive Relabels (next : Array Nat) (r stop : Nat) :
    Array Nat → Nat → List Nat → Array Nat → Prop
  | last {labels : Array Nat} {i : Nat} (hi : i < labels.size) (hnext : next[i]? = some stop) :
      Relabels next r stop labels i [i] (labels.set i r)
  | more {labels labels' : Array Nat} {i j : Nat} {slots : List Nat} (hi : i < labels.size)
      (hnext : next[i]? = some j) (hj : j ≠ stop)
      (rest : Relabels next r stop (labels.set i r) j slots labels') :
      Relabels next r stop labels i (i :: slots) labels'

namespace Relabels

variable {next labels labels' labels'' : Array Nat} {stop : Nat} {slots slots' : List Nat}

/-- A walk comes to an end in one way at most. -/
theorem unique (h : Relabels next r stop labels i slots labels')
    (h' : Relabels next r stop labels i slots' labels'') :
    slots' = slots ∧ labels'' = labels' := by
  induction h generalizing slots' with
  | last _ hnext =>
    cases h' with
    | last => exact ⟨rfl, rfl⟩
    | more _ hnext' hj => exact absurd (Option.some.inj (hnext'.symm.trans hnext)) hj
  | more _ hnext hj _ ih =>
    cases h' with
    | last _ hnext' => exact absurd (Option.some.inj (hnext.symm.trans hnext')) hj
    | more _ hnext' _ rest' =>
      obtain rfl := Option.some.inj (hnext'.symm.trans hnext)
      obtain ⟨rfl, rfl⟩ := ih rest'
      exact ⟨rfl, rfl⟩

/-- With fuel for as many rounds as a walk has, the slots that it meets are found. -/
theorem orbitFrom_eq (h : Relabels next r stop labels i slots labels') {fuel : Nat}
    (hfuel : slots.length ≤ fuel) : orbitFrom next stop fuel i = slots := by
  induction h generalizing fuel with
  | last _ hnext =>
    cases fuel with
    | zero => simp at hfuel
    | succ fuel => simp [orbitFrom, Array.getD_eq_getD_getElem?, hnext]
  | more _ hnext hj _ ih =>
    cases fuel with
    | zero => simp at hfuel
    | succ fuel =>
      have hrest := ih (Nat.le_of_succ_le_succ hfuel)
      simp [orbitFrom, Array.getD_eq_getD_getElem?, hnext, hj, hrest]

end Relabels

namespace Consistent

variable (hp : p.Consistent)

include hp

/-- The array of successors has an entry for each slot. -/
theorem getElem?_next (hi : i < p.size) : p.next[i]? = some (p.nextSlot i) := by
  have hi : i < p.next.size := hp.size_next ▸ hi
  simp [nextSlot, Array.getD_eq_getD_getElem?, hi]

/-- A walk to a slot that is first met after some rounds. -/
theorem relabels_iterate {labels : Array Nat} (hlabels : labels.size = p.size) (hi : i < p.size)
    {stop n : Nat} (hback : p.nextSlot^[n + 1] i = stop)
    (hbefore : ∀ m, 0 < m → m ≤ n → p.nextSlot^[m] i ≠ stop) :
    Relabels p.next r stop labels i (List.iterate p.nextSlot i (n + 1))
      (relabel labels r (List.iterate p.nextSlot i (n + 1))) := by
  have hset : labels.setIfInBounds i r = labels.set i r (hlabels ▸ hi) := by
    simp [Array.setIfInBounds, hlabels, hi]
  induction n generalizing i labels with
  | zero =>
    -- the walk comes back at once
    have hnext : p.next[i]? = some stop := by rw [hp.getElem?_next hi, ← hback]; rfl
    simpa [relabel, hset] using Relabels.last (r := r) (hlabels ▸ hi) hnext
  | succ n ih =>
    -- behind the first round lies the same walk, one round shorter and over the labels it left
    have hfirst : p.nextSlot i ≠ stop := hbefore 1 (by omega) (by omega)
    have hsize : (labels.set i r (hlabels ▸ hi)).size = p.size := by simpa using hlabels
    have hrest := ih hsize (hp.nextSlot_lt hi) hback
      (fun m hm hmn => hbefore (m + 1) (by omega) (by omega))
      (by simp [Array.setIfInBounds, hlabels, hp.nextSlot_lt hi])
    have hwalk := Relabels.more (hlabels ▸ hi) (hp.getElem?_next hi) hfirst hrest
    simpa [relabel, hset] using hwalk

/-- Around a cycle, a walk goes on until every slot of the cycle was met once. -/
theorem relabels_cycle {labels : Array Nat} (hlabels : labels.size = p.size) (hi : i < p.size) :
    Relabels p.next r i labels i
      (List.iterate p.nextSlot i (Function.minimalPeriod p.nextSlot i))
      (relabel labels r (List.iterate p.nextSlot i (Function.minimalPeriod p.nextSlot i))) := by
  have hpos : 0 < Function.minimalPeriod p.nextSlot i :=
    Function.minimalPeriod_pos_of_mem_periodicPts (hp.cyclic.mem_periodicPts i)
  obtain ⟨n, hn⟩ : ∃ n, Function.minimalPeriod p.nextSlot i = n + 1 :=
    ⟨Function.minimalPeriod p.nextSlot i - 1, by omega⟩
  rw [hn]
  -- the walk is back after the whole period, and not before
  refine hp.relabels_iterate hlabels hi ?_ fun m hm hmn hback => ?_
  · rw [← hn]
    exact Function.iterate_minimalPeriod
  · exact Function.not_isPeriodicPt_of_pos_of_lt_minimalPeriod (by omega) (by omega) hback

/-- The orbit lists the slots of the walk up to its return. -/
theorem orbit_eq_iterate (hi : i < p.size) :
    p.orbit i = List.iterate p.nextSlot i (Function.minimalPeriod p.nextSlot i) := by
  refine (hp.relabels_cycle (r := i) hp.size_representative hi).orbitFrom_eq ?_
  rw [List.length_iterate]
  exact hp.cyclic.minimalPeriod_le (fun _ => hp.nextSlot_of_le) hi

/-- The walk around the cycle of a slot comes to an end, and in no other way than this one. -/
theorem relabels_iff (hi : i < p.size) {slots : List Nat} {labels : Array Nat} :
    Relabels p.next r i p.representative i slots labels ↔
      slots = p.orbit i ∧ labels = relabel p.representative r (p.orbit i) := by
  have hwalk := hp.relabels_cycle (r := r) hp.size_representative hi
  rw [← hp.orbit_eq_iterate hi] at hwalk
  constructor
  · exact hwalk.unique
  · rintro ⟨rfl, rfl⟩
    exact hwalk

/-- An orbit meets no slot twice. -/
theorem nodup_orbit (hi : i < p.size) : (p.orbit i).Nodup := by
  have hcycle := Function.nodup_periodicOrbit (f := p.nextSlot) (x := i)
  rwa [Function.periodicOrbit_def, List.range_map_iterate, ← hp.orbit_eq_iterate hi,
    Cycle.nodup_coe_iff] at hcycle

end Consistent

/-! ## Cycles and their sizes -/

/-- The slots on the cycle of a slot. -/
def cycleOf (p : Permutation) (x : Nat) : Set Nat := {y | Leads p.nextSlot x y}

namespace Consistent

variable (hp : p.Consistent)

include hp

/-- An orbit is as long as the cycle is large. -/
theorem length_orbit (hi : i < p.size) : (p.orbit i).length = (p.cycleOf i).ncard := by
  have hmem : p.cycleOf i = (p.orbit i).toFinset := by
    ext x
    rw [List.coe_toFinset]
    exact (hp.mem_orbit_iff hi).symm
  rw [hmem, Set.ncard_coe_finset, List.toFinset_card_of_nodup (hp.nodup_orbit hi)]

/-- Slots that lead to one another have the same cycle. -/
theorem cycleOf_eq (h : Leads p.nextSlot i j) : p.cycleOf i = p.cycleOf j := by
  ext x
  exact ⟨(hp.cyclic.symm h).trans, h.trans⟩

/-- The weight of a representative is the size of the cycle that it stands for. -/
theorem ncard_cycleOf (hi : i < p.size) : (p.cycleOf i).ncard = p.weightAt (p.root i) := by
  have hmem : p.cycleOf i = p.represented (p.root i) := by
    ext x
    simp only [cycleOf, represented, Set.mem_ofPred_eq, Finset.coe_filter, Finset.mem_range,
      hp.leads_iff_root]
    constructor
    · intro h
      exact ⟨hp.cyclic.lt_of_leads (fun _ => hp.nextSlot_of_le) hi (hp.leads_iff_root.2 h), h.symm⟩
    · exact fun h => h.2.symm
  rw [hmem, Set.ncard_coe_finset, hp.weightAt_root i hi]

/-- No cycle is empty. -/
theorem ncard_cycleOf_pos (x : Nat) : 0 < (p.cycleOf x).ncard :=
  (Set.ncard_pos (hp.cyclic.finite_leads x)).2 ⟨x, .refl _ x⟩

/-- A slot of one of two cycles that are joined has both around it. -/
theorem cycleOf_join (hi : i < p.size) (hj : j < p.size) (hx : Met p.nextSlot i j x) :
    (p.join i j).cycleOf x = p.cycleOf i ∪ p.cycleOf j := by
  ext y
  refine (hp.leads_join_iff hi hj).trans ⟨?_, fun hy => .inr ⟨hx, hy⟩⟩
  rintro (h | ⟨-, hy⟩)
  · exact hx.imp (fun hx => hx.trans h) fun hx => hx.trans h
  · exact hy

end Consistent

/-! ## One copy -/

/-- Does the cycle of a slot take over the cycle of another one, which is no larger, with a walk
around the latter? -/
structure Absorbs (p q : Permutation) (i j : Nat) : Prop where
  smaller : (p.cycleOf j).ncard ≤ (p.cycleOf i).ncard
  /-- The walk comes to an end, and leaves the labels that the permutation has from then on. -/
  walk_iff : ∀ slots labels,
    Relabels p.next (p.root i) (p.root j) p.representative (p.root j) slots labels ↔
      slots = p.orbit (p.root j) ∧ labels = q.representative
  /-- It has as many rounds as the cycle has slots. -/
  length_walk : (p.orbit (p.root j)).length = (p.cycleOf j).ncard
  /-- It meets the slots of the cycle, each of them once. -/
  mem_walk_iff : ∀ x, x ∈ p.orbit (p.root j) ↔ x ∈ p.cycleOf j
  nodup_walk : (p.orbit (p.root j)).Nodup
  /-- These have another representative from then on. -/
  relabeled : ∀ x ∈ p.cycleOf j, q.root x = p.root i ∧ q.root x ≠ p.root x
  /-- All other slots keep theirs. -/
  kept : ∀ x ∉ p.cycleOf j, q.root x = p.root x
  /-- A slot that was relabeled lies on a cycle of at least twice the size. -/
  doubled : ∀ x ∈ p.cycleOf j, 2 * (p.cycleOf x).ncard ≤ (q.cycleOf x).ncard

/-- The list of copies has no part in it. -/
theorem Absorbs.of_with_copies {copies : Array (Position × Position)}
    (h : ({ p with copies := copies } : Permutation).Absorbs q i j) : p.Absorbs q i j :=
  ⟨h.smaller, h.walk_iff, h.length_walk, h.mem_walk_iff, h.nodup_walk, h.relabeled, h.kept,
    h.doubled⟩

/-- A cycle is absorbed if its slots are relabeled and the two cycles become one. -/
theorem Consistent.absorbs (hp : p.Consistent) (hj : j < p.size) (hij : ¬ Leads p.nextSlot i j)
    (hle : (p.cycleOf j).ncard ≤ (p.cycleOf i).ncard)
    (hlabels : q.representative = relabel p.representative (p.root i) (p.orbit (p.root j)))
    (hunion : ∀ x ∈ p.cycleOf j, q.cycleOf x = p.cycleOf i ∪ p.cycleOf j) :
    p.Absorbs q i j := by
  have hloser := hp.root_lt hj
  have hcycle : p.cycleOf (p.root j) = p.cycleOf j := (hp.cycleOf_eq (hp.leads_root j)).symm
  have hmem : ∀ x, x ∈ p.cycleOf j ↔ p.root x = p.root j := by
    intro x
    change Leads p.nextSlot j x ↔ _
    rw [hp.leads_iff_root, eq_comm]
  -- the representatives are those of a link, whichever slots exchange their successors
  have hroot : ∀ x, q.root x = if p.root x = p.root j then p.root i else p.root x := by
    intro x
    rw [← root_link (i := i) (j := j) hp hloser (hp.root_root j)]
    unfold root
    rw [hlabels]
    rfl
  constructor
  case smaller => exact hle
  case walk_iff =>
    intro slots labels
    rw [hlabels]
    exact hp.relabels_iff hloser
  case length_walk => rw [hp.length_orbit hloser, hcycle]
  case mem_walk_iff =>
    intro x
    rw [← hcycle]
    exact hp.mem_orbit_iff hloser
  case nodup_walk => exact hp.nodup_orbit hloser
  case relabeled =>
    intro x hx
    have hx := (hmem x).1 hx
    rw [hroot, if_pos hx, hx]
    exact ⟨rfl, fun h => hij (hp.leads_iff_root.2 h)⟩
  case kept =>
    intro x hx
    rw [hroot, if_neg fun h => hx ((hmem x).2 h)]
  -- the two cycles have no slot in common, and the larger one is at least as large
  case doubled =>
    intro x hx
    have hdisjoint : Disjoint (p.cycleOf i) (p.cycleOf j) := by
      rw [Set.disjoint_left]
      exact fun y hi hj => hij (hi.trans (hp.cyclic.symm hj))
    calc 2 * (p.cycleOf x).ncard
        = 2 * (p.cycleOf j).ncard := by rw [hp.cycleOf_eq hx]
      _ ≤ (p.cycleOf i).ncard + (p.cycleOf j).ncard := by omega
      _ = (p.cycleOf i ∪ p.cycleOf j).ncard :=
        (Set.ncard_union_eq hdisjoint (hp.cyclic.finite_leads i) (hp.cyclic.finite_leads j)).symm
      _ = (q.cycleOf x).ncard := by rw [hunion x hx]

/-- Of two cycles that are joined the smaller one is absorbed; of two of one size, that of the right
slot. -/
theorem Consistent.absorbs_join (hp : p.Consistent) (hi : i < p.size) (hj : j < p.size)
    (hij : ¬ Leads p.nextSlot i j) :
    p.Absorbs (p.join i j) i j ∨
      (p.cycleOf i).ncard < (p.cycleOf j).ncard ∧ p.Absorbs (p.join i j) j i := by
  have hne : p.root i ≠ p.root j := fun h => hij (hp.leads_iff_root.2 h)
  by_cases hlt : (p.cycleOf i).ncard < (p.cycleOf j).ncard
  · refine .inr ⟨hlt, hp.absorbs hi (fun h => hij (hp.cyclic.symm h)) hlt.le ?_ fun x hx => ?_⟩
    · rw [hp.ncard_cycleOf hi, hp.ncard_cycleOf hj] at hlt
      rw [Permutation.join, if_neg hne, if_pos hlt]
      rfl
    · rw [hp.cycleOf_join hi hj (.inl hx), Set.union_comm]
  · refine .inl (hp.absorbs hj hij (Nat.le_of_not_lt hlt) ?_ fun x hx => ?_)
    · rw [hp.ncard_cycleOf hi, hp.ncard_cycleOf hj] at hlt
      rw [Permutation.join, if_neg hne, if_neg hlt]
      rfl
    · exact hp.cycleOf_join hi hj (.inr hx)

namespace Consistent

variable (hp : p.Consistent) (h : p.copy left right = .ok q)

include hp h

/-- An accepted copy keeps the arrays in agreement. -/
theorem copy : q.Consistent := by
  rcases (copy_eq_ok_iff p q left right).1 h with ⟨⟨hl, hr⟩, rfl⟩
  exact (hp.with_copies (p.copies.push (left, right))).join hl.slotOf_lt hr.slotOf_lt

/-- No cycle loses a slot by a copy. -/
theorem cycleOf_subset_copy (x : Nat) : p.cycleOf x ⊆ q.cycleOf x := by
  rcases (copy_eq_ok_iff p q left right).1 h with ⟨⟨hl, hr⟩, rfl⟩
  have hpushed := hp.with_copies (p.copies.push (left, right))
  exact fun y hy => (hpushed.leads_join_iff hl.slotOf_lt hr.slotOf_lt).2 (.inl hy)

/-- A copy within a cycle changes no representative. -/
theorem root_copy (hone : Leads p.nextSlot (p.slotOf left) (p.slotOf right)) (x : Nat) :
    q.root x = p.root x := by
  rcases (copy_eq_ok_iff p q left right).1 h with ⟨-, rfl⟩
  have hroot := (hp.with_copies (p.copies.push (left, right))).root_eq hone
  rw [Permutation.join, if_pos hroot]
  rfl

/-- By a copy between two cycles the smaller one is absorbed; of two of one size, that of the right
end. -/
theorem absorbs_copy (hapart : ¬ Leads p.nextSlot (p.slotOf left) (p.slotOf right)) :
    p.Absorbs q (p.slotOf left) (p.slotOf right) ∨
      (p.cycleOf (p.slotOf left)).ncard < (p.cycleOf (p.slotOf right)).ncard ∧
        p.Absorbs q (p.slotOf right) (p.slotOf left) := by
  rcases (copy_eq_ok_iff p q left right).1 h with ⟨⟨hl, hr⟩, rfl⟩
  have hpushed := hp.with_copies (p.copies.push (left, right))
  exact (hpushed.absorbs_join hl.slotOf_lt hr.slotOf_lt hapart).imp Absorbs.of_with_copies
    (And.imp_right Absorbs.of_with_copies)

end Consistent

/-! ## Any number of copies -/

/-- The permutation after a call for a copy; one that is refused leaves it as it is. -/
def offered (p : Permutation) (call : Position × Position) : Permutation :=
  match p.copy call.1 call.2 with
  | .ok q => q
  | .error _ => p

/-- The permutation after some calls for copies. -/
def after (p : Permutation) (calls : List (Position × Position)) : Permutation :=
  calls.foldl offered p

/-- How many of some calls for copies change the representative of a slot. -/
def changes (x : Nat) : Permutation → List (Position × Position) → Nat
  | _, [] => 0
  | p, call :: calls =>
    (if (p.offered call).root x = p.root x then 0 else 1) + changes x (p.offered call) calls

/-- A call changes nothing, or its copy is accepted. -/
theorem offered_cases (p : Permutation) (call : Position × Position) :
    p.offered call = p ∨ p.copy call.1 call.2 = .ok (p.offered call) := by
  unfold offered
  cases p.copy call.1 call.2 with
  | ok q => exact .inr rfl
  | error fault => exact .inl rfl

namespace Consistent

variable (hp : p.Consistent)

include hp

/-- An offered copy leaves the permutation in agreement with itself. -/
theorem offered (call : Position × Position) : (p.offered call).Consistent := by
  rcases p.offered_cases call with hsame | h
  · rwa [hsame]
  · exact hp.copy h

/-- Offered copies leave the permutation in agreement with itself. -/
theorem after (calls : List (Position × Position)) : (p.after calls).Consistent := by
  induction calls generalizing p with
  | nil => exact hp
  | cons call calls ih => exact ih (hp.offered call)

/-- No cycle shrinks when a copy is offered. -/
theorem ncard_cycleOf_le_offered (call : Position × Position) (x : Nat) :
    (p.cycleOf x).ncard ≤ ((p.offered call).cycleOf x).ncard := by
  rcases p.offered_cases call with hsame | h
  · rw [hsame]
  · exact Set.ncard_le_ncard (hp.cycleOf_subset_copy h x) ((hp.copy h).cyclic.finite_leads x)

/-- A call that changes the representative of a slot puts it on a cycle of at least twice the size. -/
theorem doubled_of_changed {call : Position × Position} (hx : (p.offered call).root x ≠ p.root x) :
    2 * (p.cycleOf x).ncard ≤ ((p.offered call).cycleOf x).ncard := by
  rcases p.offered_cases call with hsame | h
  · exact absurd (by rw [hsame]) hx
  · have hapart : ¬ Leads p.nextSlot (p.slotOf call.1) (p.slotOf call.2) :=
      fun hone => hx (hp.root_copy h hone x)
    -- whichever cycle is absorbed, the slot lies on it
    rcases hp.absorbs_copy h hapart with habsorbs | ⟨-, habsorbs⟩
    · exact habsorbs.doubled x (by_contra fun hout => hx (habsorbs.kept x hout))
    · exact habsorbs.doubled x (by_contra fun hout => hx (habsorbs.kept x hout))

/-- Each change of the representative of a slot doubles the size of its cycle at least. -/
theorem two_pow_changes_mul_le (x : Nat) (calls : List (Position × Position)) :
    2 ^ changes x p calls * (p.cycleOf x).ncard ≤ ((p.after calls).cycleOf x).ncard := by
  induction calls generalizing p with
  | nil => simp [changes, Permutation.after]
  | cons call calls ih =>
    have hrest := ih (hp.offered call)
    -- one copy doubles the cycle if it changes the representative
    have hstep : 2 ^ (if (p.offered call).root x = p.root x then 0 else 1) * (p.cycleOf x).ncard ≤
        ((p.offered call).cycleOf x).ncard := by
      split
      · rw [Nat.pow_zero, Nat.one_mul]
        exact hp.ncard_cycleOf_le_offered call x
      · next hchanged =>
        rw [Nat.pow_one]
        exact hp.doubled_of_changed hchanged
    calc 2 ^ changes x p (call :: calls) * (p.cycleOf x).ncard
        = 2 ^ changes x (p.offered call) calls *
            (2 ^ (if (p.offered call).root x = p.root x then 0 else 1) *
              (p.cycleOf x).ncard) := by
          rw [changes, Nat.pow_add]
          ac_rfl
      _ ≤ 2 ^ changes x (p.offered call) calls * ((p.offered call).cycleOf x).ncard :=
          Nat.mul_le_mul_left _ hstep
      _ ≤ ((p.after (call :: calls)).cycleOf x).ncard := hrest

end Consistent

/-- Whatever copies were called for, an accepted copy between two cycles walks around the smaller of
them, or that of its right end if they are of one size. The walk comes to an end after as many rounds
as this cycle has slots, and gives these slots, and no others, a new representative and a cycle of at
least twice the size. So the representative of a slot has changed no more often than the binary
logarithm of the size of its cycle. -/
theorem small_cycles_absorbed {rows : Nat} {columns : List Column}
    {calls : List (Position × Position)} (hp : p = (identity rows columns).after calls) :
    (∀ left right q, p.copy left right = .ok q →
      ¬ Leads p.nextSlot (p.slotOf left) (p.slotOf right) →
        p.Absorbs q (p.slotOf left) (p.slotOf right) ∨
          (p.cycleOf (p.slotOf left)).ncard < (p.cycleOf (p.slotOf right)).ncard ∧
            p.Absorbs q (p.slotOf right) (p.slotOf left)) ∧
    ∀ x, changes x (identity rows columns) calls ≤ Nat.log 2 (p.cycleOf x).ncard := by
  have hstart := Consistent.identity rows columns
  have hreached : p.Consistent := hp ▸ hstart.after calls
  refine ⟨fun left right q h hapart => hreached.absorbs_copy h hapart, fun x => ?_⟩
  refine Nat.le_log_of_pow_le Nat.one_lt_two ?_
  calc 2 ^ changes x (identity rows columns) calls
      ≤ 2 ^ changes x (identity rows columns) calls * ((identity rows columns).cycleOf x).ncard :=
        Nat.le_mul_of_pos_right _ (hstart.ncard_cycleOf_pos x)
    _ ≤ (p.cycleOf x).ncard := hp ▸ hstart.two_pow_changes_mul_le x calls

/-- Two columns of four rows, with no copies yet. -/
def twoColumns : Permutation := identity 4 [.fixed 1, .advice 0]

/-- Three rows of one column are copied, and two rows of the other one. -/
def trioAndPair : List (Position × Position) :=
  [(⟨.advice 0, 0⟩, ⟨.advice 0, 1⟩), (⟨.advice 0, 1⟩, ⟨.advice 0, 2⟩),
    (⟨.fixed 1, 0⟩, ⟨.fixed 1, 1⟩)]

/-- A copy from the second row of the pair to the last row of the trio. -/
def bridge : Position × Position := (⟨.fixed 1, 1⟩, ⟨.advice 0, 2⟩)

/-- The pair is absorbed, though it is at the left end. Its second row changes its representative for
the second time then, as often as a cycle of five slots admits. -/
theorem small_cycles_absorbed_pair :
    ∃ p q, p = twoColumns.after trioAndPair ∧ q = twoColumns.after (trioAndPair ++ [bridge]) ∧
      p.copy bridge.1 bridge.2 = .ok q ∧ ¬ Leads p.nextSlot 1 6 ∧ p.Absorbs q 6 1 ∧
      Relabels p.next 4 0 p.representative 0 [0, 1] q.representative ∧
      changes 1 twoColumns (trioAndPair ++ [bridge]) = 2 ∧
      2 ≤ Nat.log 2 (q.cycleOf 1).ncard ∧ (q.cycleOf 1).ncard = 5 := by
  obtain ⟨p, hp⟩ : ∃ p, p = twoColumns.after trioAndPair := ⟨_, rfl⟩
  obtain ⟨q, hq⟩ : ∃ q, q = twoColumns.after (trioAndPair ++ [bridge]) := ⟨_, rfl⟩
  have hpc : p.Consistent := hp ▸ (Consistent.identity ..).after trioAndPair
  have hqc : q.Consistent := hq ▸ (Consistent.identity ..).after (trioAndPair ++ [bridge])
  have hcopy : p.copy bridge.1 bridge.2 = .ok q := by
    subst hp hq
    decide +kernel
  have hslots : p.slotOf bridge.1 = 1 ∧ p.slotOf bridge.2 = 6 := by
    subst hp
    decide +kernel
  have hroots : p.root 1 = 0 ∧ p.root 6 = 4 ∧ p.orbit 0 = [0, 1] := by
    subst hp
    decide +kernel
  have hbounds : 6 < p.size ∧ 1 < q.size := by
    subst hp hq
    decide +kernel
  -- the sizes are counted over the slots
  have hsizes : (p.cycleOf 1).ncard = 2 ∧ (p.cycleOf 6).ncard = 3 ∧ (q.cycleOf 1).ncard = 5 := by
    rw [hpc.ncard_cycleOf (by omega), hpc.ncard_cycleOf hbounds.1, hqc.ncard_cycleOf hbounds.2]
    subst hp hq
    decide +kernel
  have hapart : ¬ Leads p.nextSlot 1 6 := by
    rw [hpc.leads_iff_root, hroots.1, hroots.2.1]
    decide
  -- the first slot gets a new label twice
  have hchanges : changes 1 twoColumns (trioAndPair ++ [bridge]) = 2 := by
    decide +kernel
  obtain ⟨hcopies, -⟩ := small_cycles_absorbed hp
  obtain ⟨-, hbound⟩ := small_cycles_absorbed hq
  have habsorbs : p.Absorbs q 6 1 := by
    have hends := hcopies bridge.1 bridge.2 q hcopy
    rw [hslots.1, hslots.2] at hends
    rcases hends hapart with h | ⟨-, h⟩
    · -- the trio is too large for the pair
      have hle := h.smaller
      omega
    · exact h
  have hwalk := (habsorbs.walk_iff [0, 1] _).2 ⟨by rw [hroots.1, hroots.2.2], rfl⟩
  rw [hroots.1, hroots.2.1] at hwalk
  exact ⟨p, q, hp, hq, hcopy, hapart, habsorbs, hwalk, hchanges, hchanges ▸ hbound 1, hsizes.2.2⟩

end Permutation

end CircuitLayout
