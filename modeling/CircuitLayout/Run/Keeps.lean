import CircuitLayout.Run

namespace CircuitLayout.Run

/-!
# What runs keep

A property of states that a run keeps whether it fails or not. A run that is put together from
runs that keep a property keeps it as well, so a property of a long run follows from the same
property of its steps.
-/

variable {σ τ α β : Type} {P : σ → Prop}

/-- Does a property hold after a run of every state that had it? -/
def Keeps (P : σ → Prop) (m : Run σ α) : Prop := ∀ s, P s → P (m s).state

theorem Keeps.pure (a : α) : Keeps P (Pure.pure a : Run σ α) := fun _ h => h

/-- What both parts keep is kept, whether the second part is reached or not. -/
theorem Keeps.bind {m : Run σ α} {f : α → Run σ β} (hm : Keeps P m) (hf : ∀ a, Keeps P (f a)) :
    Keeps P (m >>= f) := by
  intro s hs
  have hmid := hm s hs
  rw [bind_apply]
  cases h : m s with
  | mk result t es =>
    rw [h] at hmid
    cases result with
    | error fault => exact hmid
    | ok a => exact hf a t hmid

theorem Keeps.map {m : Run σ α} (hm : Keeps P m) (f : α → β) : Keeps P (f <$> m) := by
  rw [map_eq_pure_bind]
  exact hm.bind fun _ => Keeps.pure _

/-- Two properties that are kept are kept together. -/
theorem Keeps.and {Q : σ → Prop} {m : Run σ α} (hP : Keeps P m) (hQ : Keeps Q m) :
    Keeps (fun s => P s ∧ Q s) m := fun s hs => ⟨hP s hs.1, hQ s hs.2⟩

theorem Keeps.get : Keeps P (get : Run σ σ) := fun _ h => h

/-- What comes after the state is known keeps the property if it does for that state. -/
theorem Keeps.get_bind {f : σ → Run σ β} (hf : ∀ s, P s → Keeps P (f s)) :
    Keeps P (Run.get >>= f) := fun s hs => hf s hs s hs

theorem Keeps.set {s : σ} (hs : P s) : Keeps P (set s) := fun _ _ => hs

/-- A change keeps what it preserves. -/
theorem Keeps.modify {f : σ → σ} (hf : ∀ s, P s → P (f s)) : Keeps P (modify f) := hf

theorem Keeps.emit (e : Event) : Keeps P (emit e : Run σ Unit) := fun _ h => h

theorem Keeps.emitAll (es : List Event) : Keeps P (emitAll es : Run σ Unit) := fun _ h => h

/-- Faults change nothing. -/
theorem Keeps.raise (fault : Fault) : Keeps P (raise fault : Run σ α) := fun _ h => h

theorem Keeps.rethrow (fault : Fault) : Keeps P (rethrow fault : Run σ α) := fun _ h => h

/-- A result that is handed on changes nothing, whichever it is. -/
theorem Keeps.ofExcept (result : Except Fault α) : Keeps P (ofExcept result : Run σ α) := by
  cases result with
  | ok a => exact Keeps.pure a
  | error fault => exact Keeps.raise fault

/-- What comes after a computation need only keep the property for its result. -/
theorem Keeps.ofExcept_bind {result : Except Fault α} {f : α → Run σ β}
    (hf : ∀ a, result = .ok a → Keeps P (f a)) : Keeps P (Run.ofExcept result >>= f) := by
  cases result with
  | ok a => exact hf a rfl
  | error fault =>
    intro s hs
    exact hs

/-- Neither does a check. -/
theorem Keeps.refuse (condition : Prop) [Decidable condition] (fault : Fault) :
    Keeps P (refuse condition fault : Run σ Unit) := by
  unfold Run.refuse
  split
  · exact Keeps.raise fault
  · exact Keeps.pure ()

/-- A run whose fault is caught keeps what the run keeps. -/
theorem Keeps.attempt {m : Run σ α} (hm : Keeps P m) : Keeps P m.attempt := hm

theorem Keeps.settle (result : Except Fault α) : Keeps P (settle result : Run σ α) := by
  cases result with
  | ok a => exact Keeps.pure a
  | error fault => exact Keeps.rethrow fault

/-- A run on a part of the state keeps a property of the whole if each change of the part does. -/
theorem Keeps.zoom {part : σ → τ} {put : σ → τ → σ} {m : Run τ α}
    (hm : ∀ s, P s → P (put s (m (part s)).state)) : Keeps P (zoom part put m) := hm

/-- A run on a state of its own touches no other. -/
theorem Keeps.within (t : τ) (m : Run τ α) : Keeps P (within t m : Run σ (α × τ)) := by
  intro s hs
  unfold Run.within
  cases m t with
  | mk result u es =>
    cases result with
    | ok a => exact hs
    | error fault => exact hs

/-- What happens aside leaves the state alone. -/
theorem Keeps.aside (t : τ) (m : Run τ α) : Keeps P (aside t m : Run σ (Except Fault α × τ)) :=
  fun _ hs => hs

/-- Steps for the items of a list keep what every step keeps. -/
theorem Keeps.each {f : β → Run σ α} {xs : List β} (hf : ∀ x ∈ xs, Keeps P (f x)) :
    Keeps P (each f xs) := by
  induction xs with
  | nil => exact Keeps.pure []
  | cons x xs ih =>
    rw [each_cons]
    apply Keeps.bind (hf x (List.mem_cons_self ..))
    intro a
    apply Keeps.bind (ih fun y hy => hf y (List.mem_cons_of_mem _ hy))
    intro more
    exact Keeps.pure _

end CircuitLayout.Run
