import CircuitLayout.Run

namespace CircuitLayout

/-! # How runs end well

`Ends m s a t` says that the run `m`, begun in the state `s`, succeeds with the result `a` and
leaves the state `t`. The rules below take a run apart along the way it is put together: a run
that ends well is one whose parts did. They read in both directions, so the same rules show that
a run succeeds. What a run writes into the journal plays no part here.
-/

namespace Run

variable {σ τ α β : Type}

/-- Does a run from a state succeed with a result and leave a state? -/
def Ends (m : Run σ α) (s : σ) (a : α) (t : σ) : Prop :=
  (m s).result = .ok a ∧ (m s).state = t

/-- A run whose result is no fault is a success. -/
theorem exists_ends_of_isOk {m : Run σ α} {s : σ} (h : (m s).result.isOk = true) :
    ∃ a, Ends m s a (m s).state := by
  cases hresult : (m s).result with
  | ok a => exact ⟨a, hresult, rfl⟩
  | error fault =>
    rw [hresult] at h
    exact absurd h Bool.false_ne_true

/-- Where there is but one state, nobody has to compute which one is left. -/
theorem exists_ends_unit {m : Run Unit α} (h : (m ()).result.isOk = true) :
    ∃ a, Ends m () a () := exists_ends_of_isOk h

/-- An answer changes nothing. -/
@[simp] theorem ends_pure (a b : α) (s t : σ) :
    Ends (Pure.pure a : Run σ α) s b t ↔ b = a ∧ t = s := by
  simp [Ends, eq_comm]

@[simp] theorem ends_pure' (a b : α) (s t : σ) : Ends (Run.pure a) s b t ↔ b = a ∧ t = s :=
  ends_pure a b s t

/-- A run of two parts ends well if the first part does and then the second. -/
@[simp] theorem ends_bind (m : Run σ α) (f : α → Run σ β) (s : σ) (b : β) (u : σ) :
    Ends (m >>= f) s b u ↔ ∃ a t, Ends m s a t ∧ Ends (f a) t b u := by
  unfold Ends
  rw [bind_apply]
  cases h : m s with
  | mk result t es =>
    cases result with
    | error fault => simp
    | ok a =>
      simp only [Except.ok.injEq]
      constructor
      · -- the first part ended well: the second one decides
        intro hf
        exact ⟨a, t, ⟨rfl, rfl⟩, hf⟩
      · rintro ⟨b, u, ⟨rfl, rfl⟩, hf⟩
        exact hf

/-- What is made of an answer does not decide whether there is one. -/
@[simp] theorem ends_map (g : α → β) (m : Run σ α) (s : σ) (b : β) (t : σ) :
    Ends (g <$> m) s b t ↔ ∃ a, Ends m s a t ∧ b = g a := by
  rw [map_eq_pure_bind, ends_bind]
  constructor
  · rintro ⟨a, u, hm, hpure⟩
    rw [ends_pure] at hpure
    rcases hpure with ⟨rfl, rfl⟩
    exact ⟨a, hm, rfl⟩
  · rintro ⟨a, hm, rfl⟩
    exact ⟨a, t, hm, by simp⟩

@[simp] theorem ends_get (s a t : σ) : Ends (get : Run σ σ) s a t ↔ a = s ∧ t = s := by
  simp [Ends, get, eq_comm]

@[simp] theorem ends_set (new s t : σ) (a : Unit) : Ends (set new) s a t ↔ t = new := by
  simp [Ends, set, eq_comm]

@[simp] theorem ends_modify (f : σ → σ) (s t : σ) (a : Unit) :
    Ends (modify f) s a t ↔ t = f s := by
  simp [Ends, modify, eq_comm]

@[simp] theorem ends_emit (e : Event) (s t : σ) (a : Unit) : Ends (emit e) s a t ↔ t = s := by
  simp [Ends, emit, eq_comm]

@[simp] theorem ends_emitAll (es : List Event) (s t : σ) (a : Unit) :
    Ends (emitAll es) s a t ↔ t = s := by
  simp [Ends, emitAll, eq_comm]

/-- A fault is no success. -/
@[simp] theorem ends_raise (fault : Fault) (s t : σ) (a : α) :
    ¬ Ends (raise fault : Run σ α) s a t := by
  simp [Ends, raise]

@[simp] theorem ends_rethrow (fault : Fault) (s t : σ) (a : α) :
    ¬ Ends (rethrow fault : Run σ α) s a t := by
  simp [Ends, rethrow]

/-- A result that is handed on succeeds if it is no fault. -/
@[simp] theorem ends_ofExcept (result : Except Fault α) (s t : σ) (a : α) :
    Ends (ofExcept result) s a t ↔ result = .ok a ∧ t = s := by
  cases result with
  | error fault => simp [ofExcept]
  | ok b => simp [ofExcept, eq_comm]

/-- A check passes unless its condition holds. -/
@[simp] theorem ends_refuse (condition : Prop) [Decidable condition] (fault : Fault) (s t : σ)
    (a : Unit) : Ends (refuse condition fault) s a t ↔ ¬ condition ∧ t = s := by
  unfold refuse
  split
  · next h => simp [h]
  · next h => simp [h]

/-- A result that was caught is handed on. -/
@[simp] theorem ends_settle (result : Except Fault α) (s t : σ) (a : α) :
    Ends (settle result) s a t ↔ result = .ok a ∧ t = s := by
  cases result with
  | error fault => simp [settle]
  | ok b => simp [settle, eq_comm]

/-- An attempt succeeds with whatever it gave. -/
@[simp] theorem ends_attempt (m : Run σ α) (s t : σ) (result : Except Fault α) :
    Ends m.attempt s result t ↔ (m s).result = result ∧ (m s).state = t := by
  simp [Ends, attempt]

/-- A run on a part succeeds with the part, which is put back. -/
@[simp] theorem ends_zoom (part : σ → τ) (put : σ → τ → σ) (m : Run τ α) (s t : σ) (a : α) :
    Ends (zoom part put m) s a t ↔ ∃ u, Ends m (part s) a u ∧ t = put s u := by
  simp [Ends, zoom, and_assoc, eq_comm]

/-- A run with a state of its own succeeds with this, and leaves the other state alone. -/
@[simp] theorem ends_within (own : τ) (m : Run τ α) (s t : σ) (a : α) (u : τ) :
    Ends (within own m) s (a, u) t ↔ Ends m own a u ∧ t = s := by
  unfold Ends within
  cases h : (m own).result with
  | error fault => simp [h]
  | ok b =>
    simp only [h, Except.ok.injEq, Prod.mk.injEq]
    constructor
    · rintro ⟨h1, h2⟩
      exact ⟨h1, h2.symm⟩
    · rintro ⟨h1, h2⟩
      exact ⟨h1, h2.symm⟩

/-- What happens aside may fail: its result is answered, whichever it is. -/
@[simp] theorem ends_aside (own : τ) (m : Run τ α) (s t : σ) (result : Except Fault α) (u : τ) :
    Ends (aside own m) s (result, u) t ↔
      ((m own).result = result ∧ (m own).state = u) ∧ t = s := by
  simp [Ends, aside, eq_comm]

/-! ## What begins with a simple step

These go before the rule for two parts, which would leave the state in between to be found.
-/

/-- A first part whose outcome is known. -/
theorem ends_bind_of {m : Run σ α} {s t : σ} {a : α} {es : List Event} (h : m s = ⟨.ok a, t, es⟩)
    (f : α → Run σ β) (b : β) (u : σ) : Ends (m >>= f) s b u ↔ Ends (f a) t b u := by
  simp [Ends, bind_apply, h]

/-- A run ends in one way only. -/
theorem Ends.unique {m : Run σ α} {s t u : σ} {a b : α} (h : m.Ends s a t) (h' : m.Ends s b u) :
    a = b ∧ t = u := by
  have hresult := h.1.symm.trans h'.1
  exact ⟨Except.ok.inj hresult, h.2.symm.trans h'.2⟩

/-- What follows a success decides how both end, and their journals are one after the other. -/
theorem Ends.bind_apply {m : Run σ α} {s t : σ} {a : α} (h : m.Ends s a t) (f : α → Run σ β) :
    (m >>= f) s = ⟨(f a t).result, (f a t).state, (m s).events ++ (f a t).events⟩ := by
  rw [Run.bind_apply]
  rcases houtcome : m s with ⟨result, u, es⟩
  obtain ⟨hresult, hstate⟩ := h
  rw [houtcome] at hresult hstate
  obtain rfl : result = .ok a := hresult
  obtain rfl : u = t := hstate
  rfl

/-- Nothing follows a fault, in the journal either. -/
theorem bind_apply_of_error {m : Run σ α} {s t : σ} {fault : Fault} {es : List Event}
    (h : m s = ⟨.error fault, t, es⟩) (f : α → Run σ β) : (m >>= f) s = ⟨.error fault, t, es⟩ := by
  rw [Run.bind_apply, h]

/-- What follows a run that ends well decides the result and what is left. -/
theorem Ends.bind_eq {m : Run σ α} {s t : σ} {a : α} (h : m.Ends s a t) (f : α → Run σ β) :
    ((m >>= f) s).result = (f a t).result ∧ ((m >>= f) s).state = (f a t).state := by
  rw [h.bind_apply]
  exact ⟨rfl, rfl⟩

/-- Nothing follows a run that fails. -/
theorem bind_eq_of_error {m : Run σ α} {s : σ} {fault : Fault}
    (h : (m s).result = .error fault) (f : α → Run σ β) :
    ((m >>= f) s).result = .error fault ∧ ((m >>= f) s).state = (m s).state := by
  rw [bind_apply]
  rcases hm : m s with ⟨result, u, es⟩
  rw [hm] at h
  obtain rfl : result = .error fault := h
  exact ⟨rfl, rfl⟩

/-- A result that is handed on. -/
theorem bind_pure_eq (m : Run σ α) (b : β) (s : σ) :
    ((m >>= fun _ => Pure.pure b) s).result = (m s).result.map (fun _ => b) ∧
      ((m >>= fun _ => Pure.pure b) s).state = (m s).state := by
  rw [bind_apply]
  rcases m s with ⟨_ | a, u, es⟩
  · exact ⟨rfl, rfl⟩
  · exact ⟨rfl, rfl⟩

/-- A run that looks at its state first. -/
theorem get_bind_apply (f : σ → Run σ β) (s : σ) : (get >>= f) s = f s s := by
  rw [bind_apply]
  rfl

/-- Reading the state, then the rest. -/
@[simp high] theorem ends_get_bind (f : σ → Run σ β) (s : σ) (b : β) (t : σ) :
    Ends (get >>= f) s b t ↔ Ends (f s) s b t :=
  ends_bind_of (m := get) rfl f b t

/-- Replacing the state, then the rest. -/
@[simp high] theorem ends_set_bind (new : σ) (f : Unit → Run σ β) (s : σ) (b : β) (t : σ) :
    Ends (set new >>= f) s b t ↔ Ends (f ()) new b t :=
  ends_bind_of (m := set new) rfl f b t

@[simp high] theorem ends_modify_bind (g : σ → σ) (f : Unit → Run σ β) (s : σ) (b : β) (t : σ) :
    Ends (modify g >>= f) s b t ↔ Ends (f ()) (g s) b t :=
  ends_bind_of (m := modify g) rfl f b t

@[simp high] theorem ends_emit_bind (e : Event) (f : Unit → Run σ β) (s : σ) (b : β) (t : σ) :
    Ends (emit e >>= f) s b t ↔ Ends (f ()) s b t :=
  ends_bind_of (m := emit e) rfl f b t

/-- Handing on a result, then the rest. -/
@[simp high] theorem ends_ofExcept_bind (result : Except Fault α) (f : α → Run σ β) (s : σ) (b : β)
    (t : σ) : Ends (ofExcept result >>= f) s b t ↔ ∃ a, result = .ok a ∧ Ends (f a) s b t := by
  simp [and_assoc]

@[simp high] theorem ends_ofExcept_map (g : α → β) (result : Except Fault α) (s : σ) (b : β)
    (t : σ) : Ends (g <$> ofExcept result) s b t ↔ ∃ a, result = .ok a ∧ b = g a ∧ t = s := by
  rw [map_eq_pure_bind, ends_ofExcept_bind]
  simp

/-- A check, then the rest. -/
@[simp high] theorem ends_refuse_bind (condition : Prop) [Decidable condition] (fault : Fault)
    (f : Unit → Run σ β) (s : σ) (b : β) (t : σ) :
    Ends (refuse condition fault >>= f) s b t ↔ ¬ condition ∧ Ends (f ()) s b t := by
  rw [ends_bind]
  constructor
  · rintro ⟨_, u, hrefuse, h⟩
    rw [ends_refuse] at hrefuse
    rcases hrefuse with ⟨hc, rfl⟩
    exact ⟨hc, h⟩
  · rintro ⟨hc, h⟩
    exact ⟨(), s, by simp [hc], h⟩

/-- A check of a part of the state goes before what follows it. -/
theorem ends_zoom_check_bind {part : σ → τ} {put : σ → τ → σ} (hput : ∀ s, put s (part s) = s)
    {m : Run τ Unit} {P : τ → Prop} (h : ∀ u u', Ends m u () u' ↔ P u ∧ u' = u)
    (f : Unit → Run σ β) (s : σ) (b : β) (t : σ) :
    Ends (zoom part put m >>= f) s b t ↔ P (part s) ∧ Ends (f ()) s b t := by
  rw [ends_bind]
  constructor
  · rintro ⟨_, v, hcheck, hf⟩
    rcases (ends_zoom ..).1 hcheck with ⟨u, hu, rfl⟩
    rcases (h _ _).1 hu with ⟨hP, rfl⟩
    -- a check puts back the part it looked at
    rw [hput] at hf
    exact ⟨hP, hf⟩
  · rintro ⟨hP, hf⟩
    refine ⟨(), s, (ends_zoom ..).2 ⟨part s, (h _ _).2 ⟨hP, rfl⟩, (hput s).symm⟩, hf⟩

/-- No step for no item. -/
@[simp] theorem ends_each_nil (f : β → Run σ α) (s t : σ) (results : List α) :
    Ends (each f []) s results t ↔ results = [] ∧ t = s := by
  simp

/-- A step for every item ends well if the step for the first item does, and then the others. -/
@[simp] theorem ends_each_cons (f : β → Run σ α) (x : β) (xs : List β) (s t : σ)
    (results : List α) :
    Ends (each f (x :: xs)) s results t ↔
      ∃ a u more, Ends (f x) s a u ∧ Ends (each f xs) u more t ∧ results = a :: more := by
  rw [each_cons]
  simp only [ends_bind, ends_pure]
  constructor
  · rintro ⟨a, u, hx, more, v, hxs, rfl, rfl⟩
    exact ⟨a, u, more, hx, hxs, rfl⟩
  · rintro ⟨a, u, more, hx, hxs, rfl⟩
    exact ⟨a, u, hx, more, t, hxs, rfl, rfl⟩

/-- Some items come after others. -/
theorem Ends.each_append {f : β → Run σ α} {xs ys : List β} {s t u : σ} {results more : List α}
    (h : Ends (each f xs) s results t) (hmore : Ends (each f ys) t more u) :
    Ends (each f (xs ++ ys)) s (results ++ more) u := by
  induction xs generalizing s results with
  | nil =>
    obtain ⟨rfl, rfl⟩ := (ends_each_nil ..).1 h
    exact hmore
  | cons x xs ih =>
    obtain ⟨a, v, rest, hx, hrest, rfl⟩ := (ends_each_cons ..).1 h
    exact (ends_each_cons ..).2 ⟨a, v, rest ++ more, hx, ih hrest, rfl⟩

/-- Where a loop ends well, so does its beginning, and what comes after that. -/
theorem Ends.of_each_append {f : β → Run σ α} {xs ys : List β} {s u : σ} {results : List α}
    (h : Ends (each f (xs ++ ys)) s results u) :
    ∃ before t after, Ends (each f xs) s before t ∧ Ends (each f ys) t after u ∧
      results = before ++ after := by
  induction xs generalizing s results with
  | nil => exact ⟨[], s, results, (ends_each_nil ..).2 ⟨rfl, rfl⟩, h, rfl⟩
  | cons x xs ih =>
    obtain ⟨a, v, rest, hx, hrest, rfl⟩ := (ends_each_cons ..).1 h
    obtain ⟨before, t, after, hbefore, hafter, rfl⟩ := ih hrest
    exact ⟨a :: before, t, after, (ends_each_cons ..).2 ⟨a, v, before, hx, hbefore, rfl⟩, hafter, rfl⟩

/-- Every item is given one result. -/
theorem Ends.length_each {f : β → Run σ α} {xs : List β} {s t : σ} {results : List α}
    (h : Ends (each f xs) s results t) : results.length = xs.length := by
  induction xs generalizing s results with
  | nil => simp_all
  | cons x xs ih =>
    rw [ends_each_cons] at h
    rcases h with ⟨a, u, more, -, hmore, rfl⟩
    simp [ih hmore]

end Run

/-- A computation of two parts gives a result if the first part does and then the second. -/
theorem bind_eq_ok {α β : Type} {x : Except Fault α} {f : α → Except Fault β} {b : β} :
    (x >>= f) = .ok b ↔ ∃ a, x = .ok a ∧ f a = .ok b := by
  cases x with
  | error fault => simp [bind, Except.bind]
  | ok a => simp [bind, Except.bind]

/-- What succeeds for every item of a list succeeds for the list. -/
theorem exists_mapM_eq_ok {α β : Type} {f : α → Except Fault β} {xs : List α}
    (h : ∀ x ∈ xs, ∃ y, f x = .ok y) : ∃ ys, xs.mapM f = .ok ys := by
  induction xs with
  | nil => exact ⟨[], rfl⟩
  | cons x xs ih =>
    obtain ⟨y, hy⟩ := h x (List.mem_cons_self ..)
    obtain ⟨ys, hys⟩ := ih fun z hz => h z (List.mem_cons_of_mem _ hz)
    refine ⟨y :: ys, ?_⟩
    rw [List.mapM_cons, hy, hys]
    rfl

end CircuitLayout
