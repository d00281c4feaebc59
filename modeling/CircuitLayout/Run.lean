import CircuitLayout.Journal

namespace CircuitLayout

/-!
# Runs

A run changes a state, writes a journal, and ends with a result or a fault. A fault undoes nothing:
the state keeps what was done before it, and so does the journal. Main statements: runs form a
lawful monad, and `each` runs its steps one after another until one fails.
-/

/-- How a run ended. -/
structure Outcome (σ α : Type) where
  result : Except Fault α
  state : σ
  events : List Event

/-- A run over a state. -/
def Run (σ α : Type) : Type := σ → Outcome σ α

namespace Run

variable {σ τ α β : Type}

/-- Ends with a result and does nothing else. -/
def pure (a : α) : Run σ α := fun s => ⟨.ok a, s, []⟩

/-- Goes on with the result of a run, unless the run failed. -/
def bind (m : Run σ α) (f : α → Run σ β) : Run σ β := fun s =>
  match m s with
  | ⟨.ok a, s, events⟩ =>
    let rest := f a s
    ⟨rest.result, rest.state, events ++ rest.events⟩
  | ⟨.error fault, s, events⟩ => ⟨.error fault, s, events⟩

instance : Monad (Run σ) where
  pure := Run.pure
  bind := Run.bind

@[ext] theorem ext {m n : Run σ α} (h : ∀ s, m s = n s) : m = n := funext h

@[simp] theorem pure_apply (a : α) (s : σ) : (Pure.pure a : Run σ α) s = ⟨.ok a, s, []⟩ := rfl

/-- One run after another: the second one goes on from what the first one leaves, and the events of
both are told in order. After a fault nothing goes on. -/
theorem bind_apply (m : Run σ α) (f : α → Run σ β) (s : σ) :
    (m >>= f) s =
      match m s with
      | ⟨.ok a, t, events⟩ => ⟨(f a t).result, (f a t).state, events ++ (f a t).events⟩
      | ⟨.error fault, t, events⟩ => ⟨.error fault, t, events⟩ := rfl

instance : LawfulMonad (Run σ) := LawfulMonad.mk' (Run σ)
  (fun m => by
    ext s
    change Run.bind m (fun a => Run.pure a) s = m s
    unfold Run.bind Run.pure
    rcases m s with ⟨_ | _, t, es⟩ <;> simp)
  (fun a f => by
    ext s
    change Run.bind (Run.pure a) f s = f a s
    simp [Run.bind, Run.pure])
  (fun m f g => by
    ext s
    change Run.bind (Run.bind m f) g s = Run.bind m (fun a => Run.bind (f a) g) s
    unfold Run.bind
    rcases m s with ⟨_ | a, t, es⟩
    · rfl
    · rcases h : f a t with ⟨_ | b, u, fs⟩ <;> simp [h])

/-- The state. -/
def get : Run σ σ := fun s => ⟨.ok s, s, []⟩

/-- Replaces the state. -/
def set (s : σ) : Run σ Unit := fun _ => ⟨.ok (), s, []⟩

/-- Changes the state. -/
def modify (f : σ → σ) : Run σ Unit := fun s => ⟨.ok (), f s, []⟩

/-- Writes an event into the journal. -/
def emit (e : Event) : Run σ Unit := fun s => ⟨.ok (), s, [e]⟩

/-- Writes events into the journal. -/
def emitAll (es : List Event) : Run σ Unit := fun s => ⟨.ok (), s, es⟩

/-- Fails with a fault that arises here. -/
def raise (fault : Fault) : Run σ α := fun s => ⟨.error fault, s, [.raised fault]⟩

/-- Fails with a fault that arose before. -/
def rethrow (fault : Fault) : Run σ α := fun s => ⟨.error fault, s, []⟩

/-- The result of a computation whose fault, if any, arises here. -/
def ofExcept : Except Fault α → Run σ α
  | .ok a => pure a
  | .error fault => raise fault

/-- Fails if a condition holds. -/
def refuse (condition : Prop) [Decidable condition] (fault : Fault) : Run σ Unit :=
  if condition then raise fault else pure ()

/-- Makes the fault of a run, if any, its result. -/
def attempt (m : Run σ α) : Run σ (Except Fault α) := fun s =>
  let outcome := m s
  ⟨.ok outcome.result, outcome.state, outcome.events⟩

/-- Goes on with what an earlier attempt gave. -/
def settle : Except Fault α → Run σ α
  | .ok a => pure a
  | .error fault => rethrow fault

/-- The result of a run together with its part of the journal. -/
def listen (m : Run σ α) : Run σ (α × List Event) := fun s =>
  let outcome := m s
  ⟨outcome.result.map (·, outcome.events), outcome.state, outcome.events⟩

/-- A run on a part of the state. -/
def zoom (part : σ → τ) (put : σ → τ → σ) (m : Run τ α) : Run σ α := fun s =>
  let outcome := m (part s)
  ⟨outcome.result, put s outcome.state, outcome.events⟩

/-- A run on a state of its own, which is handed back with the result. -/
def within (t : τ) (m : Run τ α) : Run σ (α × τ) := fun s =>
  let outcome := m t
  match outcome.result with
  | .ok a => ⟨.ok (a, outcome.state), s, outcome.events⟩
  | .error fault => ⟨.error fault, s, outcome.events⟩

/-- A run on a state of its own, which is handed back also if the run fails. -/
def aside (t : τ) (m : Run τ α) : Run σ (Except Fault α × τ) := fun s =>
  let outcome := m t
  ⟨.ok (outcome.result, outcome.state), s, outcome.events⟩

/-- The loop of `each`, with the results so far, last first, and the events so far. -/
def eachLoop (f : β → Run σ α) : List β → σ → List α → Array Event → Outcome σ (List α)
  | [], s, results, events => ⟨.ok results.reverse, s, events.toList⟩
  | x :: xs, s, results, events =>
    let outcome := f x s
    let events := events ++ outcome.events
    match outcome.result with
    | .ok a => eachLoop f xs outcome.state (a :: results) events
    | .error fault => ⟨.error fault, outcome.state, events.toList⟩

/-- Runs a step for every item of a list, in order, until one fails. -/
def each (f : β → Run σ α) (xs : List β) : Run σ (List α) := fun s => eachLoop f xs s [] #[]

/-- The loop does what the steps do one after another. The results so far are kept in reverse. -/
theorem eachLoop_eq (f : β → Run σ α) (xs : List β) (s : σ) (results : List α)
    (events : Array Event) :
    eachLoop f xs s results events =
      match each f xs s with
      | ⟨.ok more, t, es⟩ => ⟨.ok (results.reverse ++ more), t, events.toList ++ es⟩
      | ⟨.error fault, t, es⟩ => ⟨.error fault, t, events.toList ++ es⟩ := by
  induction xs generalizing s results events with
  | nil => simp [eachLoop, each]
  | cons x xs ih =>
    unfold each eachLoop
    rcases f x s with ⟨_ | a, t, es⟩
    · simp
    · simp only [ih t]
      rcases each f xs t with ⟨_ | more, u, fs⟩ <;> simp

@[simp] theorem each_nil (f : β → Run σ α) : each f [] = Pure.pure [] := rfl

/-- The first step, and then the others. -/
theorem each_cons (f : β → Run σ α) (x : β) (xs : List β) :
    each f (x :: xs) = do
      let a ← f x
      let more ← each f xs
      return a :: more := by
  ext s
  change eachLoop f (x :: xs) s [] #[] = _
  rw [bind_apply, eachLoop]
  rcases f x s with ⟨_ | a, t, es⟩
  · simp
  · simp only [eachLoop_eq f xs t, bind_apply]
    rcases each f xs t with ⟨_ | more, u, fs⟩ <;> simp

end Run

end CircuitLayout
