import CircuitLayout.Run.Keeps

namespace CircuitLayout.Run

/-! # What runs write into the journal

`Emits A m` says that every event which the run `m` writes has the property `A`, whatever the state
and whether the run fails or not. A run that is put together from runs writes what these write.
`Tells e m` says that `m` does nothing without writing `e`.
-/

variable {σ τ α β : Type} {A B : Event → Prop}

/-- Does every event that a run writes have a property? -/
def Emits (A : Event → Prop) (m : Run σ α) : Prop := ∀ s, ∀ e ∈ (m s).events, A e

/-- A weaker property of the events. -/
theorem Emits.imp {m : Run σ α} (hm : Emits A m) (h : ∀ e, A e → B e) : Emits B m := by
  intro s e he
  exact h e (hm s e he)

theorem Emits.pure (a : α) : Emits A (Pure.pure a : Run σ α) := by
  intro s e he
  exact absurd he List.not_mem_nil

/-- The events of both parts, if the second one is reached. -/
theorem Emits.bind {m : Run σ α} {f : α → Run σ β} (hm : Emits A m) (hf : ∀ a, Emits A (f a)) :
    Emits A (m >>= f) := by
  intro s e he
  have hfirst := hm s e
  rw [bind_apply] at he
  cases h : m s with
  | mk result t es =>
    rw [h] at he hfirst
    cases result with
    | error fault => exact hfirst he
    | ok a =>
      -- the events of the first part come first
      rcases List.mem_append.1 he with he | he
      · exact hfirst he
      · exact hf a t e he

theorem Emits.map {m : Run σ α} (hm : Emits A m) (f : α → β) : Emits A (f <$> m) := by
  rw [map_eq_pure_bind]
  exact hm.bind fun _ => Emits.pure _

theorem Emits.get : Emits A (get : Run σ σ) := fun _ _ he => absurd he List.not_mem_nil

theorem Emits.set (s : σ) : Emits A (set s) := fun _ _ he => absurd he List.not_mem_nil

theorem Emits.modify (f : σ → σ) : Emits A (modify f) := fun _ _ he => absurd he List.not_mem_nil

/-- One event. -/
theorem Emits.emit {e : Event} (he : A e) : Emits A (emit e : Run σ Unit) := by
  intro s e' he'
  rcases List.mem_singleton.1 he' with rfl
  exact he

theorem Emits.emitAll {es : List Event} (hes : ∀ e ∈ es, A e) :
    Emits A (emitAll es : Run σ Unit) := fun _ => hes

/-- A fault that is handed on is not told again. -/
theorem Emits.rethrow (fault : Fault) : Emits A (rethrow fault : Run σ α) :=
  fun _ _ he => absurd he List.not_mem_nil

/-- A fault that arises is told. -/
theorem Emits.raise {fault : Fault} (hfault : A (.raised fault)) :
    Emits A (raise fault : Run σ α) := by
  intro s e he
  rcases List.mem_singleton.1 he with rfl
  exact hfault

/-- A result that is handed on tells of a fault at most. -/
theorem Emits.ofExcept {result : Except Fault α} (hfault : ∀ fault, A (.raised fault)) :
    Emits A (ofExcept result : Run σ α) := by
  cases result with
  | ok a => exact Emits.pure a
  | error fault => exact Emits.raise (hfault fault)

/-- A check tells at most of the fault that it raises. -/
theorem Emits.refuse (condition : Prop) [Decidable condition] {fault : Fault}
    (hfault : A (.raised fault)) : Emits A (refuse condition fault : Run σ Unit) := by
  unfold Run.refuse
  split
  · exact Emits.raise hfault
  · exact Emits.pure ()

/-- A part tells the same on its own and in the whole. -/
theorem Emits.zoom {part : σ → τ} {put : σ → τ → σ} {m : Run τ α} (hm : Emits A m) :
    Emits A (zoom part put m) := fun s => hm (part s)

/-- A fault that is caught was told all the same. -/
theorem Emits.attempt {m : Run σ α} (hm : Emits A m) : Emits A m.attempt := fun s => hm s

/-- A run with a state of its own tells what it tells. -/
theorem Emits.within {own : τ} {m : Run τ α} (hm : Emits A m) :
    Emits A (within own m : Run σ (α × τ)) := by
  intro s e he
  have hown := hm own e
  unfold Run.within at he
  cases h : m own with
  | mk result t es =>
    rw [h] at he hown
    cases result with
    | ok a => exact hown he
    | error fault => exact hown he

/-- Steps for the items of a list tell what every step tells. -/
theorem Emits.each {f : β → Run σ α} {xs : List β} (hf : ∀ x ∈ xs, Emits A (f x)) :
    Emits A (each f xs) := by
  induction xs with
  | nil => exact Emits.pure []
  | cons x xs ih =>
    rw [each_cons]
    apply Emits.bind (hf x (List.mem_cons_self ..))
    intro a
    apply Emits.bind (ih fun y hy => hf y (List.mem_cons_of_mem _ hy))
    intro more
    exact Emits.pure _

/-! ## Runs that tell what they do -/

variable {e : Event}

/-- Does a run write an event into the journal, unless it fails and leaves the state as it was? -/
def Tells (e : Event) (m : Run σ α) : Prop :=
  ∀ s, e ∈ (m s).events ∨ (m s).state = s ∧ (m s).result.isOk = false

/-- Whatever comes after it, a run told what it did. -/
theorem Tells.bind {m : Run σ α} (hm : Tells e m) (f : α → Run σ β) : Tells e (m >>= f) := by
  intro s
  have hfirst := hm s
  rw [bind_apply]
  cases h : m s with
  | mk result t es =>
    rw [h] at hfirst
    cases result with
    | error fault => exact hfirst
    | ok a =>
      left
      rcases hfirst with he | ⟨-, hfault⟩
      · exact List.mem_append_left _ he
      · -- the first part ended well, so it told of the event
        exact absurd hfault (by simp [Except.isOk, Except.toBool])

/-- A check before it need not tell anything. -/
theorem Tells.after {m : Run σ α} {f : α → Run σ β} (hm : ∀ s, Keeps (· = s) m)
    (hf : ∀ a, Tells e (f a)) : Tells e (m >>= f) := by
  intro s
  have hsame := hm s s rfl
  rw [bind_apply]
  cases h : m s with
  | mk result t es =>
    rw [h] at hsame
    -- the first run changes nothing, so the second begins where it began
    obtain rfl : t = s := hsame
    cases result with
    | error fault =>
      right
      exact ⟨rfl, rfl⟩
    | ok a =>
      rcases hf a t with he | hfailed
      · left
        exact List.mem_append_right _ he
      · right
        exact hfailed

/-- What is made of the answer tells nothing. -/
theorem Tells.map {m : Run σ α} (hm : Tells e m) (f : α → β) : Tells e (f <$> m) := by
  rw [map_eq_pure_bind]
  exact hm.bind _

/-- A run that changes the state and then tells so. -/
theorem Tells.set_emit (s : σ) (f : Unit → Run σ α) :
    Tells e (do
      set s
      emit e
      f ()) := by
  intro t
  left
  simp [bind_apply, set, emit]

/-- A fault tells of nothing that was done, and nothing was. -/
theorem Tells.raise (fault : Fault) : Tells e (raise fault : Run σ α) := by
  intro s
  right
  exact ⟨rfl, rfl⟩

/-- A part tells the same on its own and in the whole. -/
theorem Tells.zoom {τ : Type} {part : σ → τ} {put : σ → τ → σ} {m : Run τ α} (hm : Tells e m)
    (hput : ∀ s, put s (part s) = s) : Tells e (zoom part put m) := by
  intro s
  rcases hm (part s) with he | ⟨hsame, hfault⟩
  · left
    exact he
  · right
    refine ⟨?_, hfault⟩
    show put s (m (part s)).state = s
    rw [hsame]
    exact hput s

/-- What is to be told is told, or nothing was done. -/
theorem Tells.told_or_same {m : Run σ α} (hm : Tells e m) (s : σ) :
    e ∈ (m s).events ∨ (m s).state = s := by
  rcases hm s with he | ⟨hsame, -⟩
  · exact .inl he
  · exact .inr hsame

end CircuitLayout.Run
