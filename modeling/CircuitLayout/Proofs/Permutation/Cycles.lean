import Mathlib.Dynamics.PeriodicPts.Lemmas
import Mathlib.Logic.Relation

namespace CircuitLayout

/-! # Cycles of a function

A function all of whose points come back to themselves falls into cycles. Main statement:
`leads_exchange_iff`, exchanging the values of two points of different cycles makes one cycle of the
two and leaves every other one as it is.
-/

/-- Is a point met on the way from another one? -/
def Leads (f : Nat → Nat) (x y : Nat) : Prop := ∃ k, f^[k] x = y

/-- Does every point come back to itself? -/
def Cyclic (f : Nat → Nat) : Prop := ∀ x, Leads f (f x) x

namespace Leads

variable {f : Nat → Nat} {x y z : Nat}

/-- Every slot leads to itself. -/
theorem refl (f : Nat → Nat) (x : Nat) : Leads f x x := ⟨0, rfl⟩

/-- A slot leads to its successor. -/
theorem step (f : Nat → Nat) (x : Nat) : Leads f x (f x) := ⟨1, rfl⟩

/-- What leads to what leads on leads there. -/
theorem trans (hxy : Leads f x y) (hyz : Leads f y z) : Leads f x z := by
  rcases hxy with ⟨k, rfl⟩
  rcases hyz with ⟨m, rfl⟩
  exact ⟨m + k, Function.iterate_add_apply f m k x⟩

/-- A property of a point that every step keeps holds of all points met from there on. -/
theorem induction {P : Nat → Prop} (h : Leads f x y) (hx : P x) (hstep : ∀ z, P z → P (f z)) :
    P y := by
  rcases h with ⟨k, rfl⟩
  induction k with
  | zero => exact hx
  | succ k ih =>
    rw [Function.iterate_succ_apply']
    exact hstep _ ih

/-- A property of a point that holds before every step that ends in it holds of all points from
which it is met. -/
theorem induction_back {P : Nat → Prop} (h : Leads f x y) (hy : P y)
    (hstep : ∀ z, P (f z) → P z) : P x := by
  rcases h with ⟨k, rfl⟩
  induction k generalizing x with
  | zero => exact hy
  | succ k ih => exact hstep x (ih (by simpa [Function.iterate_succ_apply] using hy))

end Leads

namespace Cyclic

variable {f : Nat → Nat} {x y : Nat}

/-- On cycles, what leads forth leads back. -/
theorem symm (hf : Cyclic f) (h : Leads f x y) : Leads f y x :=
  h.induction (P := fun z => Leads f z x) (.refl f x) fun z hz => (hf z).trans hz

/-- On cycles every slot comes back to itself. -/
theorem mem_periodicPts (hf : Cyclic f) (x : Nat) : x ∈ Function.periodicPts f := by
  rcases hf x with ⟨k, hk⟩
  exact ⟨k + 1, Nat.succ_pos k, hk⟩

/-- On cycles no two slots have one successor. -/
theorem injective (hf : Cyclic f) : Function.Injective f := by
  intro x y hxy
  exact (Function.bijOn_periodicPts f).injOn (hf.mem_periodicPts x) (hf.mem_periodicPts y) hxy

/-- Every point comes after one that is met from it. -/
theorem exists_before (hf : Cyclic f) (y : Nat) : ∃ x, Leads f y x ∧ f x = y := by
  rcases hf y with ⟨k, hk⟩
  refine ⟨f^[k] y, ⟨k, rfl⟩, ?_⟩
  rw [← Function.iterate_succ_apply' f k y]
  exact hk

/-- A function that moves no point at or above a bound permutes the points below it. -/
theorem bijOn (hf : Cyclic f) {n : Nat} (hout : ∀ x, n ≤ x → f x = x) :
    Set.BijOn f (Set.Iio n) (Set.Iio n) := by
  have hmaps : Set.MapsTo f (Set.Iio n) (Set.Iio n) := by
    intro x hx
    by_contra hfx
    have hfx : n ≤ f x := Nat.le_of_not_lt hfx
    have : f x = x := hf.injective (hout _ hfx)
    exact absurd hx (by simp only [Set.mem_Iio]; omega)
  refine ⟨hmaps, hf.injective.injOn, ?_⟩
  intro y hy
  rcases hf.exists_before y with ⟨x, hyx, hxy⟩
  have hx : x ∈ Set.Iio n := hyx.induction (P := (· ∈ Set.Iio n)) hy fun _ hz => hmaps hz
  exact ⟨x, hx, hxy⟩

/-- The points met from one below the bound lie below it. -/
theorem lt_of_leads (hf : Cyclic f) {n : Nat} (hout : ∀ x, n ≤ x → f x = x) (hx : x < n)
    (h : Leads f x y) : y < n :=
  h.induction (P := (· < n)) hx fun _ hz => (hf.bijOn hout).mapsTo hz

/-- A point below the bound is back after at most as many steps as there are points below it. -/
theorem minimalPeriod_le (hf : Cyclic f) {n : Nat} (hout : ∀ x, n ≤ x → f x = x) (hx : x < n) :
    Function.minimalPeriod f x ≤ n := by
  have hmaps : ∀ k ∈ Finset.range (Function.minimalPeriod f x), f^[k] x ∈ Finset.range n := by
    intro k _
    exact Finset.mem_range.2 (hf.lt_of_leads hout hx ⟨k, rfl⟩)
  have hinj : Set.InjOn (fun k => f^[k] x) (Finset.range (Function.minimalPeriod f x)) := by
    have := Function.iterate_injOn_Iio_minimalPeriod (f := f) (x := x)
    simpa [Finset.coe_range] using this
  have hcard := Finset.card_le_card_of_injOn (fun k => f^[k] x) hmaps hinj
  simpa using hcard

end Cyclic

/-! ## Exchanging two values -/

/-- Exchanges the values of a function at two points. -/
def exchange (f : Nat → Nat) (i j x : Nat) : Nat :=
  if x = i then f j else if x = j then f i else f x

section Exchange

variable {f : Nat → Nat} {i j x y : Nat}

/-- The first of two slots gets the successor of the second. -/
@[simp] theorem exchange_left (f : Nat → Nat) (i j : Nat) : exchange f i j i = f j := by
  simp [exchange]

/-- Other slots keep their successors. -/
theorem exchange_other (hi : x ≠ i) (hj : x ≠ j) : exchange f i j x = f x := by
  simp [exchange, hi, hj]

/-- The order of the two slots does not matter. -/
theorem exchange_comm (f : Nat → Nat) (i j : Nat) : exchange f i j = exchange f j i := by
  funext x
  unfold exchange
  by_cases hi : x = i
  · subst hi
    by_cases hj : x = j <;> simp [hj]
  · simp [hi]

/-- From each of the two points the cycle of the other one is walked, to its end and beyond. -/
theorem leads_exchange (hf : Cyclic f) (hij : ¬ Leads f j i) (h : Leads f j x) :
    Leads (exchange f i j) i x := by
  -- at `j` itself the walk starts again, and `i` does not lie on the way
  have hwalk : ∀ w, Leads f j w → Leads (exchange f i j) i (f w) := by
    intro w hw
    have hboth : Leads f j w ∧ Leads (exchange f i j) i (f w) := by
      refine hw.induction (P := fun w => Leads f j w ∧ Leads (exchange f i j) i (f w))
        ⟨.refl f j, ⟨1, exchange_left f i j⟩⟩ ?_
      rintro z ⟨hz, hfz⟩
      have hz : Leads f j (f z) := hz.trans (.step f z)
      refine ⟨hz, ?_⟩
      by_cases hj : f z = j
      · rw [hj]
        exact ⟨1, exchange_left f i j⟩
      · have hi : f z ≠ i := fun hi => hij (hi ▸ hz)
        have hnext := hfz.trans (.step (exchange f i j) (f z))
        rwa [exchange_other hi hj] at hnext
    exact hboth.2
  rcases hf.exists_before x with ⟨w, hxw, rfl⟩
  exact hwalk w (h.trans hxw)

/-- Each point of the two cycles meets the point where the cycles were exchanged. -/
theorem leads_exchange_back (hij : ¬ Leads f j i) (h : Leads f x j) (hx : Leads f j x) :
    Leads (exchange f i j) x j := by
  have hboth : Leads f j x → Leads (exchange f i j) x j := by
    refine h.induction_back (P := fun x => Leads f j x → Leads (exchange f i j) x j)
      (fun _ => .refl _ j) ?_
    intro z hz hjz
    by_cases hj : z = j
    · rw [hj]
      exact .refl _ j
    · have hi : z ≠ i := fun hi => hij (hi ▸ hjz)
      have hstep : Leads (exchange f i j) z (f z) := ⟨1, exchange_other hi hj⟩
      exact hstep.trans (hz (hjz.trans (.step f z)))
  exact hboth hx

/-- A cycle that holds neither of the two points stays as it is. -/
theorem leads_exchange_other (h : Leads f x y) (hi : ¬ Leads f x i) (hj : ¬ Leads f x j) :
    Leads (exchange f i j) x y := by
  have hboth : Leads f x y ∧ Leads (exchange f i j) x y := by
    refine h.induction (P := fun y => Leads f x y ∧ Leads (exchange f i j) x y)
      ⟨.refl f x, .refl _ x⟩ ?_
    rintro z ⟨hz, hwalk⟩
    have hzi : z ≠ i := fun e => hi (e ▸ hz)
    have hzj : z ≠ j := fun e => hj (e ▸ hz)
    refine ⟨hz.trans (.step f z), hwalk.trans ?_⟩
    exact ⟨1, exchange_other hzi hzj⟩
  exact hboth.2

/-- Does a point lie on the cycle of one of two points? -/
def Met (f : Nat → Nat) (i j x : Nat) : Prop := Leads f i x ∨ Leads f j x

/-- The successor of a slot on one of the two cycles lies on it too. -/
theorem Met.step (h : Met f i j x) : Met f i j (f x) :=
  h.imp (fun h => h.trans (.step f x)) fun h => h.trans (.step f x)

/-- After the exchange, the successor of a slot of the two cycles lies on one of them. -/
theorem Met.exchanged (h : Met f i j x) : Met f i j (exchange f i j x) := by
  unfold exchange
  split
  · exact .inr (.step f j)
  · split
    · exact .inl (.step f i)
    · exact h.step

/-- The points of the two cycles meet each other once the cycles are exchanged. -/
theorem Met.leads (hf : Cyclic f) (hij : ¬ Leads f i j) (hx : Met f i j x)
    (hy : Met f i j y) : Leads (exchange f i j) x y := by
  have hji : ¬ Leads f j i := fun h => hij (hf.symm h)
  have hto : Leads (exchange f i j) i j :=
    leads_exchange hf hji (.refl f j)
  have hfro : Leads (exchange f i j) j i := by
    rw [exchange_comm]
    exact leads_exchange hf hij (.refl f i)
  -- every slot of the two cycles leads to the second one
  have hback : Leads (exchange f i j) x j := by
    rcases hx with hx | hx
    · have hxi := leads_exchange_back hij (hf.symm hx) hx
      rw [exchange_comm] at hxi
      exact hxi.trans hto
    · exact leads_exchange_back hji (hf.symm hx) hx
  rcases hy with hy | hy
  · have hjy := leads_exchange hf hij hy
    rw [exchange_comm] at hjy
    exact hback.trans hjy
  · exact hback.trans (hfro.trans (leads_exchange hf hji hy))

/-- Exchanging two values of different cycles keeps a function cyclic. -/
theorem Cyclic.exchanged (hf : Cyclic f) (hij : ¬ Leads f i j) : Cyclic (exchange f i j) := by
  intro x
  by_cases hx : Met f i j x
  · exact hx.exchanged.leads hf hij hx
  · have hi : ¬ Leads f (f x) i := fun h => hx (.inl (hf.symm ((Leads.step f x).trans h)))
    have hj : ¬ Leads f (f x) j := fun h => hx (.inr (hf.symm ((Leads.step f x).trans h)))
    have hxi : x ≠ i := fun h => hx (.inl (h ▸ .refl f i))
    have hxj : x ≠ j := fun h => hx (.inr (h ▸ .refl f j))
    rw [exchange_other hxi hxj]
    exact leads_exchange_other (hf x) hi hj

/-- Exchanging two values of different cycles makes one cycle of the two and leaves every other
one as it is. -/
theorem leads_exchange_iff (hf : Cyclic f) (hij : ¬ Leads f i j) :
    Leads (exchange f i j) x y ↔ Leads f x y ∨ (Met f i j x ∧ Met f i j y) := by
  constructor
  · intro h
    refine h.induction (P := fun y => Leads f x y ∨ (Met f i j x ∧ Met f i j y))
      (.inl (.refl f x)) ?_
    -- step by step: only the steps out of the two points lead elsewhere than before
    rintro z (hz | ⟨hx, hz⟩)
    · by_cases hi : z = i
      · subst hi
        exact .inr ⟨.inl (hf.symm hz), Met.exchanged (.inl (.refl f z))⟩
      · by_cases hj : z = j
        · subst hj
          exact .inr ⟨.inr (hf.symm hz), Met.exchanged (.inr (.refl f z))⟩
        · rw [exchange_other hi hj]
          exact .inl (hz.trans (.step f z))
    · exact .inr ⟨hx, hz.exchanged⟩
  · rintro (h | ⟨hx, hy⟩)
    · by_cases hx : Met f i j x
      · -- a way that met one of the points goes through both cycles now
        have hy : Met f i j y := hx.imp (fun hx => hx.trans h) fun hx => hx.trans h
        exact hx.leads hf hij hy
      · exact leads_exchange_other h (fun hi => hx (.inl (hf.symm hi)))
          fun hj => hx (.inr (hf.symm hj))
    · exact hx.leads hf hij hy

end Exchange

end CircuitLayout
