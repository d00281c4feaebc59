import Mathlib.Data.Finset.Card
import CircuitLayout.Permutation
import CircuitLayout.Proofs.Permutation.Cycles

namespace CircuitLayout.Permutation

/-! # Joining cycles

Between copies the arrays of a permutation agree: the successors fall into cycles, the
representative of a slot lies on its cycle and is the same for all slots of it, and the weight of a
representative is the number of slots that it stands for. Main statement: `Consistent.join`, joining
the cycles of two slots keeps this, and connects exactly what was connected and the two slots.
-/

variable {p : Permutation} {i j x y : Nat}

/-- The slots that have a given representative. -/
def represented (p : Permutation) (r : Nat) : Finset Nat :=
  (Finset.range p.size).filter fun x => p.root x = r

/-- Do the arrays of a permutation agree? -/
structure Consistent (p : Permutation) : Prop where
  size_next : p.next.size = p.size
  size_representative : p.representative.size = p.size
  size_weight : p.weight.size = p.size
  cyclic : Cyclic p.nextSlot
  leads_root : ∀ x, Leads p.nextSlot x (p.root x)
  root_eq : ∀ {x y}, Leads p.nextSlot x y → p.root x = p.root y
  weightAt_root : ∀ x, x < p.size → p.weightAt (p.root x) = (p.represented (p.root x)).card

/-! ## Reading the arrays -/

/-- Setting an entry changes it, if there is one. -/
theorem getD_setIfInBounds (cells : Array Nat) (i v x d : Nat) :
    (cells.setIfInBounds i v).getD x d = if x = i ∧ i < cells.size then v else cells.getD x d := by
  simp only [Array.getD_eq_getD_getElem?, Array.getElem?_setIfInBounds]
  by_cases hx : i = x
  · subst hx
    by_cases hi : i < cells.size <;> simp [hi]
  · have : ¬ x = i := fun h => hx h.symm
    simp [hx, this]

/-- Swapping two entries exchanges the successors. -/
theorem nextSlot_swapNext (hi : i < p.next.size) (hj : j < p.next.size) :
    (fun x => (swapNext p.next i j).getD x x) = exchange p.nextSlot i j := by
  funext x
  unfold swapNext exchange nextSlot
  rw [getD_setIfInBounds, getD_setIfInBounds]
  by_cases hxj : x = j
  · by_cases hxi : x = i
    · subst hxi
      subst hxj
      simp [hi]
    · simp [hxj, hj, show ¬ j = i from fun h => hxi (hxj.trans h)]
  · simp [hxj, hi]

/-- Relabeling gives the new label to the slots listed and to no other. -/
theorem getD_relabel (labels : Array Nat) (r : Nat) (slots : List Nat) (x d : Nat)
    (hx : x < labels.size) :
    (relabel labels r slots).getD x d = if x ∈ slots then r else labels.getD x d := by
  unfold relabel
  induction slots generalizing labels with
  | nil => simp
  | cons i slots ih =>
    rw [List.foldl_cons, ih _ (by simpa using hx), getD_setIfInBounds]
    by_cases hxi : x = i
    · subst hxi
      simp [hx]
    · simp [hxi]

/-- What is met on the way around a cycle before the place to stop comes up again. -/
theorem mem_orbitFrom_of_iterate (next : Array Nat) (stop : Nat) {k fuel : Nat} (hk : k < fuel)
    (hstop : ∀ m, 0 < m → m ≤ k → (fun x => next.getD x x)^[m] i ≠ stop) :
    (fun x => next.getD x x)^[k] i ∈ orbitFrom next stop fuel i := by
  -- induction on the steps of the walk, whose fuel shrinks with them
  induction k generalizing i fuel with
  | zero =>
    cases fuel with
    | zero => omega
    | succ fuel => simp [orbitFrom]
  | succ k ih =>
    cases fuel with
    | zero => omega
    | succ fuel =>
      have hfirst : next.getD i i ≠ stop := hstop 1 (by omega) (by omega)
      -- from the next slot on, the stop is as far away as it was, less one step
      have hlater : ∀ m, 0 < m → m ≤ k →
          (fun x => next.getD x x)^[m] (next.getD i i) ≠ stop := by
        intro m _ hmk
        have := hstop (m + 1) (by omega) (by omega)
        rwa [Function.iterate_succ_apply] at this
      have hfuel : k < fuel := by omega
      have hrest := ih hfuel hlater
      rw [Function.iterate_succ_apply]
      simp only [orbitFrom, hfirst, if_false, List.mem_cons]
      exact .inr hrest

/-- A slot met on a walk is led to. -/
theorem leads_of_mem_orbitFrom (next : Array Nat) (stop : Nat) {fuel : Nat}
    (h : x ∈ orbitFrom next stop fuel i) : Leads (fun x => next.getD x x) i x := by
  induction fuel generalizing i with
  | zero => simp [orbitFrom] at h
  | succ fuel ih =>
    simp only [orbitFrom, List.mem_cons] at h
    rcases h with rfl | h
    · exact .refl _ x
    · split at h
      · simp at h
      · exact (Leads.step _ i).trans (ih h)

namespace Consistent

variable (hp : p.Consistent)

include hp

/-- Behind the last slot each number is its own successor. -/
theorem nextSlot_of_le (hx : p.size ≤ x) : p.nextSlot x = x := by
  have : p.next.size ≤ x := hp.size_next ▸ hx
  simp [nextSlot, Array.getD_eq_getD_getElem?, this]

/-- The successor of a slot is a slot. -/
theorem nextSlot_lt (hx : x < p.size) : p.nextSlot x < p.size :=
  hp.cyclic.lt_of_leads (fun _ => hp.nextSlot_of_le) hx (.step _ x)

/-- The representative of a slot is a slot. -/
theorem root_lt (hx : x < p.size) : p.root x < p.size :=
  hp.cyclic.lt_of_leads (fun _ => hp.nextSlot_of_le) hx (hp.leads_root x)

/-- Two slots lie on one cycle exactly if they have one representative. -/
theorem leads_iff_root : Leads p.nextSlot x y ↔ p.root x = p.root y := by
  constructor
  · exact hp.root_eq
  · intro h
    -- both lead to the representative, and cycles lead back
    have hy := hp.cyclic.symm (hp.leads_root y)
    exact (h ▸ hp.leads_root x).trans hy

/-- A representative represents itself. -/
theorem root_root (x : Nat) : p.root (p.root x) = p.root x :=
  (hp.root_eq (hp.leads_root x)).symm

/-- The arrays agree whatever the list of copies is. -/
theorem with_copies (copies : Array (Position × Position)) :
    ({ p with copies := copies } : Permutation).Consistent :=
  ⟨hp.size_next, hp.size_representative, hp.size_weight, hp.cyclic, hp.leads_root, hp.root_eq,
    hp.weightAt_root⟩

/-- The walk around the cycle of a slot meets all of it. -/
theorem mem_orbit_iff (hi : i < p.size) : x ∈ p.orbit i ↔ Leads p.nextSlot i x := by
  constructor
  · exact leads_of_mem_orbitFrom p.next i
  · rintro ⟨k, rfl⟩
    have hpos : 0 < Function.minimalPeriod p.nextSlot i :=
      Function.minimalPeriod_pos_of_mem_periodicPts (hp.cyclic.mem_periodicPts i)
    have hle := hp.cyclic.minimalPeriod_le (fun _ => hp.nextSlot_of_le) hi
    have hlt := Nat.mod_lt k hpos
    -- the first time that the slot is met, the walk has not come back yet
    rw [← Function.iterate_mod_minimalPeriod_eq]
    refine mem_orbitFrom_of_iterate p.next i (by omega) fun m hm hmk hback => ?_
    have hshort : m < Function.minimalPeriod p.nextSlot i := Nat.lt_of_le_of_lt hmk hlt
    exact Function.not_isPeriodicPt_of_pos_of_lt_minimalPeriod (by omega) hshort hback

end Consistent

/-! ## Linking two cycles -/

section Link

variable {winner loser : Nat}

/-- A link adds the weight of the loser to that of the winner. -/
theorem weightAt_link (hw : winner < p.weight.size) :
    (p.link winner loser i j).weightAt x =
      if x = winner then p.weightAt winner + p.weightAt loser else p.weightAt x := by
  unfold link weightAt
  rw [getD_setIfInBounds]
  simp [hw]

/-- A link exchanges the successors of two slots. -/
theorem nextSlot_link (hi : i < p.next.size) (hj : j < p.next.size) :
    (p.link winner loser i j).nextSlot = exchange p.nextSlot i j :=
  nextSlot_swapNext hi hj

/-- The winner stands for all slots that the loser stood for. -/
theorem root_link (hp : p.Consistent) (hl : loser < p.size) (hroot : p.root loser = loser) :
    (p.link winner loser i j).root x = if p.root x = loser then winner else p.root x := by
  -- the slots that are relabelled are those that the loser stood for
  have hmem : x ∈ p.orbit loser ↔ p.root x = loser := by
    rw [hp.mem_orbit_iff hl, hp.leads_iff_root, hroot, eq_comm]
  by_cases hx : x < p.size
  · have hx : x < p.representative.size := hp.size_representative ▸ hx
    change (relabel p.representative winner (p.orbit loser)).getD x x = _
    rw [getD_relabel _ _ _ _ _ hx]
    by_cases hmet : p.root x = loser
    · rw [if_pos hmet, if_pos (hmem.2 hmet)]
    · rw [if_neg hmet, if_neg fun h => hmet (hmem.1 h)]
      rfl
  · -- no array holds such a slot: it stands for itself, before and after
    have hx : p.representative.size ≤ x := by
      have := hp.size_representative
      omega
    have hsame : p.root x = x := by
      simp [root, Array.getD_eq_getD_getElem?, hx]
    have hne : ¬ x = loser := by
      have := hp.size_representative
      omega
    rw [hsame, if_neg hne]
    simp [root, link, Array.getD_eq_getD_getElem?, hx]

/-- A representative other than the two stands for the slots that it stood for. -/
theorem represented_link_other {q : Permutation} (hsize : q.size = p.size)
    (hroot : ∀ x, q.root x = if p.root x = loser then winner else p.root x) {r : Nat}
    (hw : r ≠ winner) (hl : r ≠ loser) : q.represented r = p.represented r := by
  ext x
  simp only [represented, hsize, Finset.mem_filter, hroot]
  grind

/-- The winner stands for the slots of both. -/
theorem card_represented_link {q : Permutation} (hsize : q.size = p.size)
    (hroot : ∀ x, q.root x = if p.root x = loser then winner else p.root x)
    (hne : winner ≠ loser) :
    (q.represented winner).card = (p.represented winner).card + (p.represented loser).card := by
  have hunion : q.represented winner = p.represented winner ∪ p.represented loser := by
    ext x
    simp only [represented, hsize, Finset.mem_union, Finset.mem_filter, hroot]
    grind
  have hdisjoint : Disjoint (p.represented winner) (p.represented loser) := by
    -- no slot has two representatives
    rw [Finset.disjoint_left]
    intro x hx hx'
    simp only [represented, Finset.mem_filter] at hx hx'
    exact hne (hx.2.symm.trans hx'.2)
  rw [hunion, Finset.card_union_of_disjoint hdisjoint]

/-- The winner and the loser, which are the representatives of two slots, stand for themselves. -/
theorem Consistent.of_representatives (hp : p.Consistent) (hi : i < p.size) (hj : j < p.size)
    (hends : winner = p.root i ∧ loser = p.root j ∨ winner = p.root j ∧ loser = p.root i) :
    (winner < p.size ∧ loser < p.size) ∧ p.root winner = winner ∧ p.root loser = loser := by
  rcases hends with ⟨rfl, rfl⟩ | ⟨rfl, rfl⟩
  · exact ⟨⟨hp.root_lt hi, hp.root_lt hj⟩, hp.root_root i, hp.root_root j⟩
  · exact ⟨⟨hp.root_lt hj, hp.root_lt hi⟩, hp.root_root j, hp.root_root i⟩

/-- Linking the cycles of two slots, whose representatives are the winner and the loser. -/
theorem Consistent.link (hp : p.Consistent) (hi : i < p.size) (hj : j < p.size)
    (hends : winner = p.root i ∧ loser = p.root j ∨ winner = p.root j ∧ loser = p.root i)
    (hne : winner ≠ loser) : (p.link winner loser i j).Consistent := by
  -- slots with different representatives lie on different cycles
  have hij : ¬ Leads p.nextSlot i j := by
    rw [hp.leads_iff_root]
    rcases hends with ⟨rfl, rfl⟩ | ⟨rfl, rfl⟩
    · exact hne
    · exact hne.symm
  obtain ⟨hbounds, hroots⟩ := hp.of_representatives hi hj hends
  -- the two cycles hold the slots that one of the two representatives stands for
  have hmet : ∀ x, Met p.nextSlot i j x ↔ p.root x = winner ∨ p.root x = loser := by
    intro x
    unfold Met
    rw [hp.leads_iff_root, hp.leads_iff_root]
    rcases hends with ⟨rfl, rfl⟩ | ⟨rfl, rfl⟩
    · rw [eq_comm, eq_comm (a := p.root j)]
    · rw [eq_comm, eq_comm (a := p.root j), or_comm]
  have hnext : (p.link winner loser i j).nextSlot = exchange p.nextSlot i j :=
    nextSlot_link (hp.size_next ▸ hi) (hp.size_next ▸ hj)
  have hroot : ∀ x, (p.link winner loser i j).root x =
      if p.root x = loser then winner else p.root x :=
    fun x => root_link hp hbounds.2 hroots.2
  have hsize : (p.link winner loser i j).size = p.size := rfl
  constructor
  case size_next => simpa [Permutation.link, size] using hp.size_next
  case size_representative => simpa [Permutation.link, size] using hp.size_representative
  case size_weight => simpa [Permutation.link, size] using hp.size_weight
  case cyclic =>
    rw [hnext]
    exact hp.cyclic.exchanged hij
  case leads_root =>
    intro x
    rw [hnext, hroot, leads_exchange_iff hp.cyclic hij]
    split
    · -- who is relabelled lies on one of the two cycles, and so does the winner
      next hx => exact .inr ⟨(hmet x).2 (.inr hx), (hmet winner).2 (.inl hroots.1)⟩
    · exact .inl (hp.leads_root x)
  case root_eq =>
    intro x y
    rw [hnext, hroot, hroot, leads_exchange_iff hp.cyclic hij, hmet, hmet, hp.leads_iff_root]
    -- the slots of the two cycles now all have the winner
    rintro (h | ⟨hx, hy⟩)
    · rw [h]
    · grind
  case weightAt_root =>
    intro x hx
    rw [weightAt_link (hp.size_weight ▸ hbounds.1)]
    -- the winner gains the weight of the loser; nobody else gains or loses
    by_cases hw : (p.link winner loser i j).root x = winner
    · have hwinner := hp.weightAt_root winner hbounds.1
      have hloser := hp.weightAt_root loser hbounds.2
      rw [hroots.1] at hwinner
      rw [hroots.2] at hloser
      rw [if_pos hw, hw, card_represented_link hsize hroot hne, hwinner, hloser]
    · have hother : (p.link winner loser i j).root x = p.root x ∧ p.root x ≠ loser := by
        rw [hroot] at hw ⊢
        grind
      rw [if_neg hw, hother.1, hp.weightAt_root x hx,
        represented_link_other hsize hroot (hother.1 ▸ hw) hother.2]

end Link

/-! ## Joining two cycles -/

/-- Joining the cycles of two slots keeps the arrays in agreement. -/
theorem Consistent.join (hp : p.Consistent) (hi : i < p.size) (hj : j < p.size) :
    (p.join i j).Consistent := by
  unfold Permutation.join
  split
  · exact hp
  · next hne =>
    split
    · exact hp.link hi hj (.inr ⟨rfl, rfl⟩) fun h => hne h.symm
    · exact hp.link hi hj (.inl ⟨rfl, rfl⟩) hne

/-- Joining two cycles connects what was connected, and the two slots. -/
theorem Consistent.leads_join_iff (hp : p.Consistent) (hi : i < p.size) (hj : j < p.size) :
    Leads (p.join i j).nextSlot x y ↔
      Leads p.nextSlot x y ∨ (Met p.nextSlot i j x ∧ Met p.nextSlot i j y) := by
  by_cases hroot : p.root i = p.root j
  · -- one cycle already: nothing is joined, and nothing changes
    have hij : Leads p.nextSlot i j := hp.leads_iff_root.2 hroot
    have hone : ∀ x, Met p.nextSlot i j x → Leads p.nextSlot i x := by
      rintro x (hx | hx)
      · exact hx
      · exact hij.trans hx
    rw [Permutation.join, if_pos hroot]
    constructor
    · exact .inl
    · rintro (h | ⟨hx, hy⟩)
      · exact h
      · exact (hp.cyclic.symm (hone x hx)).trans (hone y hy)
  · -- two cycles: the images of the two slots are exchanged
    have hij : ¬ Leads p.nextSlot i j := fun h => hroot (hp.root_eq h)
    have hnext : (p.join i j).nextSlot = exchange p.nextSlot i j := by
      rw [Permutation.join, if_neg hroot]
      split
      · exact nextSlot_link (hp.size_next ▸ hi) (hp.size_next ▸ hj)
      · exact nextSlot_link (hp.size_next ▸ hi) (hp.size_next ▸ hj)
    rw [hnext]
    exact leads_exchange_iff hp.cyclic hij

/-! ## Without copies -/

/-- At first every slot is its own successor. -/
@[simp] theorem nextSlot_identity (rows : Nat) (columns : List Column) (x : Nat) :
    (identity rows columns).nextSlot x = x := by
  simp only [nextSlot, identity, Array.getD_eq_getD_getElem?, Array.getElem?_range]
  split <;> simp

/-- At first every slot represents itself. -/
@[simp] theorem root_identity (rows : Nat) (columns : List Column) (x : Nat) :
    (identity rows columns).root x = x := by
  simp only [root, identity, Array.getD_eq_getD_getElem?, Array.getElem?_range]
  split <;> simp

/-- At first every slot has the weight one. -/
theorem weightAt_identity {rows : Nat} {columns : List Column}
    (hx : x < (identity rows columns).size) : (identity rows columns).weightAt x = 1 := by
  simp only [size, identity] at hx
  simp [weightAt, identity, Array.getD_eq_getD_getElem?, hx]

/-- Without copies every slot is its own cycle. -/
theorem leads_identity (rows : Nat) (columns : List Column) :
    Leads (identity rows columns).nextSlot x y ↔ x = y := by
  constructor
  · intro h
    refine h.induction (P := (x = ·)) rfl fun z hz => ?_
    rw [nextSlot_identity]
    exact hz
  · rintro rfl
    exact .refl _ x

/-- The permutation without copies agrees within itself. -/
theorem Consistent.identity (rows : Nat) (columns : List Column) :
    (identity rows columns).Consistent := by
  constructor
  case size_next => simp [Permutation.identity, size]
  case size_representative => simp [Permutation.identity, size]
  case size_weight => simp [Permutation.identity, size]
  case cyclic =>
    intro x
    rw [leads_identity, nextSlot_identity]
  case leads_root =>
    intro x
    rw [leads_identity, root_identity]
  case root_eq =>
    intro x y h
    rw [(leads_identity rows columns).1 h]
  case weightAt_root =>
    intro x hx
    -- a slot alone in its class has the weight one
    have hone : (Permutation.identity rows columns).represented x = {x} := by
      ext y
      simp only [represented, root_identity, Finset.mem_filter, Finset.mem_range,
        Finset.mem_singleton]
      constructor
      · exact fun h => h.2
      · rintro rfl
        exact ⟨hx, rfl⟩
    rw [root_identity, hone, Finset.card_singleton, weightAt_identity hx]

end CircuitLayout.Permutation
