import CircuitLayout.Proofs.Run.Emits
import CircuitLayout.Proofs.Run.Ends

namespace CircuitLayout.Run

/-! # Runs that succeed or do nothing

A run is atomic if it leaves the state as it was whenever it fails. What its successes keep, it
keeps then. `EmitsOnFault A m` says of a run that every event which it writes has the property `A` if
it fails. Main statement: `Atomic.keeps`.
-/

variable {σ τ α β : Type}

/-- Does a run that fails leave the state as it was? -/
def Atomic (m : Run σ α) : Prop := ∀ s fault, (m s).result = .error fault → (m s).state = s

namespace Atomic

variable {P : σ → Prop} {m : Run σ α} {f : α → Run σ β}

/-- An atomic run keeps what its successes keep. -/
theorem keeps (h : Atomic m) (hends : ∀ s a t, m.Ends s a t → P s → P t) : Keeps P m := by
  intro s hs
  cases hresult : (m s).result with
  | error fault =>
    rw [h s fault hresult]
    exact hs
  | ok a => exact hends s a _ ⟨hresult, rfl⟩ hs

/-- A run that only looks is atomic. -/
theorem of_keeps (h : ∀ s, Keeps (· = s) m) : Atomic m := fun s _ _ => h s s rfl

/-- What cannot fail is atomic. -/
theorem of_ends (h : ∀ s, ∃ a t, m.Ends s a t) : Atomic m := by
  intro s fault hresult
  obtain ⟨a, t, hends⟩ := h s
  rw [hends.1] at hresult
  cases hresult

/-- After a part that only looks. -/
theorem after (hm : ∀ s, Keeps (· = s) m) (hf : ∀ a, Atomic (f a)) : Atomic (m >>= f) := by
  intro s fault hresult
  have hsame := hm s s rfl
  rw [bind_apply] at hresult ⊢
  cases h : m s with
  | mk result t es =>
    rw [h] at hsame hresult
    -- the first run left the state as it was, so a fault of either restores nothing
    obtain rfl : t = s := hsame
    cases result with
    | error fault' => rfl
    | ok a => exact hf a t fault hresult

/-- Before a part that cannot fail. -/
theorem before (hm : Atomic m) (hf : ∀ a s, ∃ b t, (f a).Ends s b t) : Atomic (m >>= f) := by
  intro s fault hresult
  have hfirst := hm s
  rw [bind_apply] at hresult ⊢
  cases h : m s with
  | mk result t es =>
    rw [h] at hfirst hresult
    cases result with
    | error fault' => exact hfirst fault' rfl
    | ok a =>
      -- the second part does not fail, so neither does the whole
      obtain ⟨b, u, hends⟩ := hf a t
      rw [hends.1] at hresult
      cases hresult

/-- What is made of the answer changes nothing. -/
theorem map (hm : Atomic m) (g : α → β) : Atomic (g <$> m) := by
  rw [map_eq_pure_bind]
  exact hm.before fun a s => ⟨g a, s, (ends_pure ..).2 ⟨rfl, rfl⟩⟩

/-- An atomic run on a part is atomic on the whole. -/
theorem zoom {part : τ → σ} {put : τ → σ → τ} (hm : Atomic m) (hput : ∀ t, put t (part t) = t) :
    Atomic (Run.zoom part put m) := by
  intro t fault hresult
  show put t (m (part t)).state = t
  rw [hm (part t) fault hresult, hput]

end Atomic

/-! ## What runs that fail tell -/

/-- Does every event that a run writes have a property if the run fails? -/
def EmitsOnFault (A : Event → Prop) (m : Run σ α) : Prop :=
  ∀ s fault, (m s).result = .error fault → ∀ e ∈ (m s).events, A e

namespace EmitsOnFault

variable {A : Event → Prop} {m : Run σ α} {f : α → Run σ β}

/-- What a run never tells it does not tell on a fault. -/
theorem of_emits (h : Emits A m) : EmitsOnFault A m := fun s _ _ => h s

/-- What cannot fail tells nothing on a fault. -/
theorem of_ends (h : ∀ s, ∃ a t, m.Ends s a t) : EmitsOnFault A m := by
  intro s fault hresult
  obtain ⟨a, t, hends⟩ := h s
  rw [hends.1] at hresult
  cases hresult

/-- What the first part tells whether it fails or not, and the second one when it fails. -/
theorem after (hm : Emits A m) (hf : ∀ a, EmitsOnFault A (f a)) : EmitsOnFault A (m >>= f) := by
  intro s fault hresult e he
  have hfirst := hm s e
  rw [bind_apply] at hresult he
  cases h : m s with
  | mk result t es =>
    rw [h] at hresult he hfirst
    cases result with
    | error fault' => exact hfirst he
    | ok a =>
      -- an event of the first run, or of what follows it
      rcases List.mem_append.1 he with he | he
      · exact hfirst he
      · exact hf a t fault hresult e he

/-- Before a part that cannot fail. -/
theorem before (hm : EmitsOnFault A m) (hf : ∀ a s, ∃ b t, (f a).Ends s b t) :
    EmitsOnFault A (m >>= f) := by
  intro s fault hresult e he
  have hfirst := hm s
  rw [bind_apply] at hresult he
  cases h : m s with
  | mk result t es =>
    rw [h] at hresult he hfirst
    cases result with
    | error fault' => exact hfirst fault' rfl e he
    | ok a =>
      -- the second part does not fail, so neither does the whole
      obtain ⟨b, u, hends⟩ := hf a t
      rw [hends.1] at hresult
      cases hresult

theorem map (hm : EmitsOnFault A m) (g : α → β) : EmitsOnFault A (g <$> m) := by
  rw [map_eq_pure_bind]
  exact hm.before fun a s => ⟨g a, s, (ends_pure ..).2 ⟨rfl, rfl⟩⟩

/-- A part tells the same on its own and in the whole. -/
theorem zoom {part : τ → σ} {put : τ → σ → τ} (hm : EmitsOnFault A m) :
    EmitsOnFault A (Run.zoom part put m) := fun t => hm (part t)

end EmitsOnFault

end CircuitLayout.Run
