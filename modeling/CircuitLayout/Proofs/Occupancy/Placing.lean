import CircuitLayout.Frontiers
import Mathlib.Data.List.Induction

namespace CircuitLayout

/-! # Where regions are placed

What a placed region makes of the frontiers, and which rows a measured region spans. Main
statements: `Frontiers.frontier_place` and `Footprint.height_ofTouches`.
-/

/-! ## Frontiers -/

namespace Frontiers

variable (f : Frontiers) {lane : Lane}

/-- A maximum lies below a row if everything does. -/
theorem foldl_max_le_iff {rows : List Nat} {first row : Nat} :
    rows.foldl max first ≤ row ↔ first ≤ row ∧ ∀ n ∈ rows, n ≤ row := by
  induction rows generalizing first with
  | nil => simp
  | cons n rows ih =>
    rw [List.foldl_cons, ih, Nat.max_le, List.forall_mem_cons, and_assoc]

/-- The first free row of some lanes lies below a row if all their frontiers do. -/
theorem firstFree_le_iff {f : Frontiers} {lanes : List Lane} {row : Nat} :
    f.firstFree lanes ≤ row ↔ ∀ lane ∈ lanes, f.frontier lane ≤ row := by
  simp [firstFree, foldl_max_le_iff]

/-- From the first free row of some lanes on, each of them is free. -/
theorem frontier_le_firstFree {lanes : List Lane} (h : lane ∈ lanes) :
    f.frontier lane ≤ f.firstFree lanes := firstFree_le_iff.1 (Nat.le_refl _) lane h

/-- Raising one lane after another to a row raises these and no others. -/
theorem frontier_foldl_raise (lanes : List Lane) (stop : Nat) :
    (lanes.foldl (fun f lane => f.raise lane stop) f).frontier lane =
      if lane ∈ lanes then max (f.frontier lane) stop else f.frontier lane := by
  induction lanes generalizing f with
  | nil => simp
  | cons other lanes ih =>
    have hraise := frontier_raise f other lane stop
    rw [List.foldl_cons, ih, hraise]
    -- raising another lane does not move this frontier
    by_cases hother : other = lane
    · subst hother
      simp
    · have hne : lane ≠ other := fun h => hother h.symm
      simp only [hother, if_false, List.mem_cons, hne, false_or]

/-- A placed region moves the frontiers of its lanes behind it. -/
theorem frontier_place (shape : Footprint) :
    (f.place shape).2.frontier lane =
      if lane ∈ shape.lanes.toList then
        max (f.frontier lane) (Word.add (f.firstFree shape.lanes.toList) shape.height)
      else f.frontier lane :=
  f.frontier_foldl_raise shape.lanes.toList _

end Frontiers

/-! ## Footprints -/

namespace Footprint

/-- The footprint of a region that took up the given lanes and offsets, in this order. -/
def ofTouches (region : Nat) (ts : List (Lane × Nat)) : Footprint :=
  ts.foldl (fun f t => f.touch t.1 t.2) (blank region)

variable (region : Nat) (ts : List (Lane × Nat))

/-- Where nothing is touched, the footprint is blank. -/
@[simp] theorem ofTouches_nil : ofTouches region [] = blank region := rfl

/-- Touches are taken down one after the other. -/
theorem ofTouches_append (t : Lane × Nat) :
    ofTouches region (ts ++ [t]) = (ofTouches region ts).touch t.1 t.2 := by
  simp [ofTouches]

/-- The footprint is of the region it was begun for. -/
@[simp] theorem region_ofTouches : (ofTouches region ts).region = region := by
  induction ts using List.reverseRecOn with
  | nil => rfl
  | append_singleton ts t ih =>
    rw [ofTouches_append]
    exact ih

/-- The lanes of a footprint are those that were touched. -/
theorem mem_lanes_ofTouches (lane : Lane) :
    lane ∈ (ofTouches region ts).lanes ↔ ∃ offset, (lane, offset) ∈ ts := by
  induction ts using List.reverseRecOn with
  | nil => simp [blank]
  | append_singleton ts t ih =>
    rw [ofTouches_append, mem_lanes_touch, ih]
    rcases t with ⟨other, offset⟩
    constructor
    · rintro (rfl | ⟨o, ho⟩)
      · exact ⟨offset, List.mem_append_right _ (List.mem_singleton_self _)⟩
      · exact ⟨o, List.mem_append_left _ ho⟩
    · rintro ⟨o, ho⟩
      rcases List.mem_append.1 ho with ho | ho
      · exact .inr ⟨o, ho⟩
      · exact .inl (congrArg Prod.fst (List.mem_singleton.1 ho))

/-- An offset that was taken up lies below the height, unless the row after it wraps. -/
theorem offset_lt_ofTouches {ts : List (Lane × Nat)} {t : Lane × Nat} (ht : t ∈ ts)
    (hword : t.2 + 1 < Word.size) : t.2 < (ofTouches region ts).height := by
  induction ts using List.reverseRecOn with
  | nil => exact absurd ht List.not_mem_nil
  | append_singleton ts u ih =>
    rw [ofTouches_append]
    rcases List.mem_append.1 ht with ht | ht
    · exact Nat.lt_of_lt_of_le (ih ht) (height_le_touch _ u.1 u.2)
    · obtain rfl := List.mem_singleton.1 ht
      exact offset_lt_touch _ t.1 hword

/-- No offset that was taken up lies behind the last row, and some offset lies on it. -/
theorem height_ofTouches (h : ∀ t ∈ ts, t.2 + 1 < Word.size) :
    (∀ t ∈ ts, t.2 < (ofTouches region ts).height) ∧
      (ts ≠ [] → ∃ t ∈ ts, (ofTouches region ts).height = t.2 + 1) := by
  -- induction from the end, as the height grows touch by touch
  induction ts using List.reverseRecOn with
  | nil => exact ⟨fun t ht => absurd ht List.not_mem_nil, fun hne => absurd rfl hne⟩
  | append_singleton ts t ih =>
    obtain ⟨hbelow, hlast⟩ := ih fun u hu => h u (List.mem_append_left _ hu)
    have ht : t.2 + 1 < Word.size := h t (List.mem_append_right _ (List.mem_singleton_self t))
    rw [ofTouches_append]
    have hheight : ((ofTouches region ts).touch t.1 t.2).height =
        max (ofTouches region ts).height (t.2 + 1) := by
      show max _ (Word.add t.2 1) = _
      rw [Word.add_of_lt ht]
    rw [hheight]
    constructor
    · intro u hu
      rcases List.mem_append.1 hu with hu | hu
      · have := hbelow u hu
        omega
      · rcases List.mem_singleton.1 hu with rfl
        omega
    · intro _
      -- either the new offset is the last row, or the last row was there before
      by_cases hle : (ofTouches region ts).height ≤ t.2 + 1
      · refine ⟨t, List.mem_append_right _ (List.mem_singleton_self t), ?_⟩
        omega
      · have hne : ts ≠ [] := by
          rintro rfl
          exact hle (Nat.zero_le _)
        rcases hlast hne with ⟨u, hu, heq⟩
        refine ⟨u, List.mem_append_left _ hu, ?_⟩
        omega

end Footprint

end CircuitLayout
