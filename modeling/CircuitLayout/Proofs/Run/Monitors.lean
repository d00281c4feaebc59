import CircuitLayout.Program
import CircuitLayout.Proofs.Run.Emits
import CircuitLayout.Proofs.Run.Ends

namespace CircuitLayout

/-! # Monitors

A monitor reads a journal from its beginning and keeps a ledger of what happened. By its ledger it
says of every event what may be assumed of it, which is up to the circuit, and what is promised of
it, which is up to the planner. `Run.Upholds` carries both along a run: as long as the assumptions
hold so do the promises, and the ledger and the state stay in step. The rules take a run apart the
way it is put together. Main statement: `Program.upholds_run`.
-/

/-- A reader of journals that keeps a ledger. -/
structure Monitor (Λ : Type) where
  step : Λ → Event → Λ
  /-- What may be assumed of the next event. -/
  Assumes : Λ → Event → Prop
  /-- What is promised of the next event. -/
  Promises : Λ → Event → Prop

namespace Monitor

variable {Λ : Type}

/-- The ledger after some events. -/
def after (w : Monitor Λ) (l : Λ) (events : List Event) : Λ := events.foldl w.step l

/-- Does every event have a property, by the ledger of the events before it? -/
def Along (w : Monitor Λ) (P : Λ → Event → Prop) : Λ → List Event → Prop
  | _, [] => True
  | l, e :: es => P l e ∧ Along w P (w.step l e) es

instance (w : Monitor Λ) (P : Λ → Event → Prop) [∀ l e, Decidable (P l e)] :
    ∀ l es, Decidable (w.Along P l es)
  | _, [] => inferInstanceAs (Decidable True)
  | l, e :: es =>
    have := instDecidableAlong w P (w.step l e) es
    inferInstanceAs (Decidable (P l e ∧ w.Along P (w.step l e) es))

/-- Does every event meet what is assumed of it? -/
def Assumed (w : Monitor Λ) : Λ → List Event → Prop := w.Along w.Assumes

/-- Does every event meet what is promised of it? -/
def Promised (w : Monitor Λ) : Λ → List Event → Prop := w.Along w.Promises

instance (w : Monitor Λ) [∀ l e, Decidable (w.Assumes l e)] (l : Λ) (es : List Event) :
    Decidable (w.Assumed l es) := inferInstanceAs (Decidable (w.Along w.Assumes l es))

variable {w : Monitor Λ} {P : Λ → Event → Prop}

/-- The ledger after two journals is that of the second one, begun where the first one ends. -/
theorem after_append (l : Λ) (es fs : List Event) :
    w.after l (es ++ fs) = w.after (w.after l es) fs := List.foldl_append ..

/-- What holds along two journals holds along the first, and along the second from there on. -/
theorem along_append (l : Λ) (es fs : List Event) :
    w.Along P l (es ++ fs) ↔ w.Along P l es ∧ w.Along P (w.after l es) fs := by
  induction es generalizing l with
  | nil => simp [Along, after]
  | cons e es ih =>
    have htail := ih (w.step l e)
    simp only [List.cons_append, Along, htail, and_assoc]
    rfl

end Monitor

namespace Run

variable {Λ σ τ α β : Type} {w : Monitor Λ}

/-- Does a run that begins with a ledger and a state in `P` keep the promises for as long as the
assumptions hold, and leave a ledger and a state in `Q` for its result, or in `E` if it fails? -/
def Upholds (w : Monitor Λ) (P : Λ → σ → Prop) (m : Run σ α) (Q : α → Λ → σ → Prop)
    (E : Λ → σ → Prop) : Prop :=
  ∀ l s, P l s → w.Assumed l (m s).events →
    w.Promised l (m s).events ∧
      match (m s).result with
      | .ok a => Q a (w.after l (m s).events) (m s).state
      | .error _ => E (w.after l (m s).events) (m s).state

/-- Does a run that begins with a ledger in `L` keep the promises and leave such a ledger, whatever
the state, and whether it fails or not? -/
abbrev Maintains (w : Monitor Λ) (L : Λ → Prop) (m : Run σ α) : Prop :=
  Upholds w (fun l _ => L l) m (fun _ l _ => L l) (fun l _ => L l)

namespace Upholds

variable {P P' : Λ → σ → Prop} {Q : α → Λ → σ → Prop} {R : β → Λ → σ → Prop} {E E' : Λ → σ → Prop}

/-- What is left whether or not a run fails is left. -/
theorem either_iff (result : Except Fault α) (X : Prop) :
    (match result with
      | .ok _ => X
      | .error _ => X) ↔ X := by
  cases result with
  | ok a => exact Iff.rfl
  | error fault => exact Iff.rfl

/-- Less at the start, more at the end, where the end may be judged by how the run got there. -/
theorem imp_ends {m : Run σ α} {Q' : α → Λ → σ → Prop} (hm : Upholds w P m Q E)
    (hP : ∀ l s, P' l s → P l s)
    (hQ : ∀ l k s a t, P' l s → m.Ends s a t → Q a k t → Q' a k t)
    (hE : ∀ l k s, P' l s → E k (m s).state → E' k (m s).state) : Upholds w P' m Q' E' := by
  intro l s hs hassumed
  rcases hm l s (hP l s hs) hassumed with ⟨hpromised, hend⟩
  refine ⟨hpromised, ?_⟩
  cases h : (m s).result with
  | ok a =>
    rw [h] at hend
    exact hQ l _ s a _ hs ⟨h, rfl⟩ hend
  | error fault =>
    rw [h] at hend
    exact hE l _ s hs hend

/-- Less at the start, more at the end. -/
theorem imp {m : Run σ α} {Q' : α → Λ → σ → Prop} (hm : Upholds w P m Q E)
    (hP : ∀ l s, P' l s → P l s) (hQ : ∀ a l s, Q a l s → Q' a l s) (hE : ∀ l s, E l s → E' l s) :
    Upholds w P' m Q' E' :=
  hm.imp_ends hP (fun _ k _ a t _ _ hend => hQ a k t hend) fun _ k _ _ hend => hE k _ hend

theorem imp_pre {m : Run σ α} (hm : Upholds w P m Q E) (hP : ∀ l s, P' l s → P l s) :
    Upholds w P' m Q E := hm.imp hP (fun _ _ _ h => h) fun _ _ h => h

theorem imp_post {m : Run σ α} {Q' : α → Λ → σ → Prop} (hm : Upholds w P m Q E)
    (hQ : ∀ a l s, Q a l s → Q' a l s) : Upholds w P m Q' E :=
  hm.imp (fun _ _ h => h) hQ fun _ _ h => h

theorem imp_fault {m : Run σ α} (hm : Upholds w P m Q E) (hE : ∀ l s, E l s → E' l s) :
    Upholds w P m Q E' := hm.imp (fun _ _ h => h) (fun _ _ _ h => h) hE

/-- What is left by a run that ends well. -/
theorem of_ends {m : Run σ α} (hm : Upholds w P m Q E) {l : Λ} {s t : σ} {a : α} (hs : P l s)
    (hends : m.Ends s a t) (hassumed : w.Assumed l (m s).events) :
    Q a (w.after l (m s).events) t := by
  have hend := (hm l s hs hassumed).2
  rw [hends.1, hends.2] at hend
  exact hend

/-- An answer tells nothing. -/
theorem pure {a : α} (h : ∀ l s, P l s → Q a l s) : Upholds w P (Pure.pure a : Run σ α) Q E := by
  intro l s hs _
  exact ⟨trivial, h l s hs⟩

/-- One part after another, where a fault of either ends the whole. -/
theorem bind {m : Run σ α} {f : α → Run σ β} (hm : Upholds w P m Q E)
    (hf : ∀ a, Upholds w (Q a) (f a) R E) : Upholds w P (m >>= f) R E := by
  intro l s hs hassumed
  have hfirst := hm l s hs
  rw [bind_apply] at hassumed ⊢
  cases h : m s with
  | mk result t es =>
    rw [h] at hassumed hfirst
    cases result with
    | error fault => exact hfirst hassumed
    | ok a =>
      -- the second run begins with the ledger that the events of the first one leave
      rcases (Monitor.along_append ..).1 hassumed with ⟨hes, hrest⟩
      rcases hfirst hes with ⟨hpromised, hmid⟩
      rcases hf a (w.after l es) t hmid hrest with ⟨hpromised', hend⟩
      refine ⟨(Monitor.along_append ..).2 ⟨hpromised, hpromised'⟩, ?_⟩
      rw [Monitor.after_append]
      exact hend

/-- What is made of the answer tells nothing. -/
theorem map {m : Run σ α} (hm : Upholds w P m Q E) (f : α → β)
    (hR : ∀ a l s, Q a l s → R (f a) l s) : Upholds w P (f <$> m) R E := by
  rw [map_eq_pure_bind]
  exact hm.bind fun a => pure (hR a)

/-- A change tells nothing. -/
theorem modify {f : σ → σ} {Q : Λ → σ → Prop} (h : ∀ l s, P l s → Q l (f s)) :
    Upholds w P (Run.modify f) (fun _ => Q) E := by
  intro l s hs _
  exact ⟨trivial, h l s hs⟩

/-- One event: it is to be promised, and the ledger takes it up. -/
theorem emit {e : Event} {Q : Λ → σ → Prop}
    (h : ∀ l s, P l s → w.Assumes l e → w.Promises l e ∧ Q (w.step l e) s) :
    Upholds w P (Run.emit e : Run σ Unit) (fun _ => Q) E := by
  intro l s hs hassumed
  rcases h l s hs hassumed.1 with ⟨hpromised, hQ⟩
  exact ⟨⟨hpromised, trivial⟩, hQ⟩

/-- A fault that is handed on tells nothing. -/
theorem rethrow {fault : Fault} (h : ∀ l s, P l s → E l s) :
    Upholds w P (Run.rethrow fault : Run σ α) Q E := by
  intro l s hs _
  exact ⟨trivial, h l s hs⟩

/-- What comes after a computation is judged by its result, if it has one. -/
theorem ofExcept_bind {result : Except Fault β} {f : β → Run σ α}
    (hf : ∀ b, result = .ok b → Upholds w P (f b) Q E)
    (hfault : ∀ fault, Upholds w P (Run.raise fault) Q E) :
    Upholds w P (Run.ofExcept result >>= f) Q E := by
  cases result with
  | ok b => exact hf b rfl
  | error fault => exact hfault fault

/-- Nor does a result that was caught. -/
theorem settle (result : Except Fault α) :
    Upholds w P (Run.settle result : Run σ α) (fun _ => P) P := by
  cases result with
  | ok a => exact pure fun _ _ h => h
  | error fault => exact rethrow fun _ _ h => h

/-- An attempt succeeds, also where the run fails. -/
theorem attempt {m : Run σ α} {Q : Λ → σ → Prop} (hm : Upholds w P m (fun _ => Q) Q) :
    Upholds w P m.attempt (fun _ => Q) E := by
  intro l s hs hassumed
  rcases hm l s hs hassumed with ⟨hpromised, hend⟩
  exact ⟨hpromised, (either_iff ..).1 hend⟩

/-- What a run does to the ledger it does also on a part of the state. -/
theorem zoom {part : τ → σ} {put : τ → σ → τ} {m : Run σ α} {L : Λ → Prop}
    (hm : Maintains w L m) : Maintains w L (Run.zoom part put m) := fun l t hl => hm l (part t) hl

/-- A run on a state of its own leaves the other state as it is. -/
theorem within {own : σ} {m : Run σ α} {L K : Λ → Prop} {S : τ → Prop} {Q : α → Λ → σ → Prop}
    (hm : Upholds w (fun l s => L l ∧ s = own) m Q (fun l _ => K l)) :
    Upholds w (fun l t => L l ∧ S t) (Run.within own m) (fun x l t => Q x.1 l x.2 ∧ S t)
      (fun l t => K l ∧ S t) := by
  intro l t ht
  have hown := hm l own ⟨ht.1, rfl⟩
  unfold Run.within
  -- the journal is that of the inner run, whichever way it ends
  cases h : m own with
  | mk result u es =>
    rw [h] at hown
    cases result with
    | ok a =>
      intro hassumed
      rcases hown hassumed with ⟨hpromised, hend⟩
      exact ⟨hpromised, hend, ht.2⟩
    | error fault =>
      intro hassumed
      rcases hown hassumed with ⟨hpromised, hend⟩
      exact ⟨hpromised, hend, ht.2⟩

/-- What happens aside is watched like everything else. -/
theorem aside {own : σ} {m : Run σ α} {L : Λ → Prop} (hm : Maintains w L m) :
    Maintains w L (Run.aside own m : Run τ (Except Fault α × σ)) := by
  intro l t hl hassumed
  rcases hm l own hl hassumed with ⟨hpromised, hend⟩
  exact ⟨hpromised, (either_iff ..).1 hend⟩

/-- A loop takes what holds for the items that are left to what holds for those that are left after
each step. -/
theorem each {f : β → Run σ α} {P : List β → Λ → σ → Prop}
    (hf : ∀ x xs, Upholds w (P (x :: xs)) (f x) (fun _ => P xs) E) (xs : List β) :
    Upholds w (P xs) (Run.each f xs) (fun _ => P []) E := by
  induction xs with
  | nil => exact pure fun _ _ h => h
  | cons x xs ih =>
    rw [each_cons]
    apply bind (hf x xs)
    intro a
    apply bind ih
    intro more
    exact pure fun _ _ h => h

/-- A loop keeps what each of its steps keeps. -/
theorem each_mem {f : β → Run σ α} {xs : List β}
    (hf : ∀ x ∈ xs, Upholds w P (f x) (fun _ => P) P) :
    Upholds w P (Run.each f xs) (fun _ => P) P := by
  induction xs with
  | nil => exact pure fun _ _ h => h
  | cons x xs ih =>
    rw [each_cons]
    apply bind (hf x (List.mem_cons_self ..))
    intro a
    apply bind (ih fun y hy => hf y (List.mem_cons_of_mem _ hy))
    intro more
    exact pure fun _ _ h => h

/-- Events that move the ledger within a property are no matter where they come from. -/
theorem of_emits {m : Run σ α} {A : Event → Prop} {L : Λ → Prop} (hm : Emits A m)
    (hA : ∀ l e, A e → L l → w.Assumes l e → w.Promises l e ∧ L (w.step l e)) :
    Maintains w L m := by
  -- along the events, one by one
  have hevents : ∀ es : List Event, (∀ e ∈ es, A e) → ∀ l, L l → w.Assumed l es →
      w.Promised l es ∧ L (w.after l es) := by
    intro es
    induction es with
    | nil =>
      intro _ l hl _
      exact ⟨trivial, hl⟩
    | cons e es ih =>
      intro hes l hl hassumed
      rcases List.forall_mem_cons.1 hes with ⟨he, hrest⟩
      rcases hA l e he hl hassumed.1 with ⟨hpromised, hnext⟩
      rcases ih hrest _ hnext hassumed.2 with ⟨hpromised', hend⟩
      exact ⟨⟨hpromised, hpromised'⟩, hend⟩
  intro l s hl hassumed
  rcases hevents _ (hm s) l hl hassumed with ⟨hpromised, hend⟩
  exact ⟨hpromised, (either_iff ..).2 hend⟩

/-- A run that writes no event is judged by the state that it leaves. -/
theorem of_silent {m : Run σ α} (hm : ∀ s, (m s).events = []) :
    Upholds w (fun l s => P l (m s).state) m (fun _ => P) P := by
  intro l s hs _
  rw [hm s]
  exact ⟨trivial, (either_iff ..).2 hs⟩

/-- A run keeps a property of states besides. -/
theorem and_keeps {m : Run σ α} {S : σ → Prop} (hm : Upholds w P m Q E) (hS : Keeps S m) :
    Upholds w (fun l s => P l s ∧ S s) m (fun a l s => Q a l s ∧ S s) (fun l s => E l s ∧ S s) :=
  hm.imp_ends (fun _ _ hs => hs.1)
    (fun _ _ s _ _ hs hends hend => ⟨hend, hends.2 ▸ hS s hs.2⟩)
    fun _ _ s hs hend => ⟨hend, hS s hs.2⟩

/-- A run that succeeds leaves what its success says, besides. -/
theorem and_ends {m : Run σ α} {B : Prop} (hm : Upholds w P m Q E)
    (hB : ∀ l s a t, P l s → m.Ends s a t → B) :
    Upholds w P m (fun a l s => Q a l s ∧ B) E :=
  hm.imp_ends (fun _ _ hs => hs) (fun l _ s a t hs hends hend => ⟨hend, hB l s a t hs hends⟩)
    fun _ _ _ _ hend => hend

/-- What maintains a ledger leaves besides what its successes say of the state. -/
theorem of_maintains {m : Run σ α} {L : Λ → Prop} {S : σ → Prop} {T : α → σ → Prop}
    (hm : Maintains w L m) (hends : ∀ s a t, S s → m.Ends s a t → T a t) :
    Upholds w (fun l s => L l ∧ S s) m (fun a l s => L l ∧ T a s) fun _ _ => True :=
  hm.imp_ends (fun _ _ hs => hs.1) (fun _ _ s a t hs h hend => ⟨hend, hends s a t hs.2 h⟩)
    fun _ _ _ _ _ => trivial

/-- A run that leaves the state as it is keeps what ledger and state say, if it maintains this in
each state. -/
theorem of_still {m : Run σ α} (hm : ∀ s, Maintains w (fun l => P l s) m)
    (hsame : ∀ s, Keeps (· = s) m) : Upholds w P m (fun _ => P) P := fun _ s hs =>
  ((hm s).and_keeps (hsame s)).imp (fun _ _ h => h) (fun _ _ _ ht => ht.2 ▸ ht.1)
    (fun _ _ ht => ht.2 ▸ ht.1) _ s ⟨hs, rfl⟩

/-- Runs on states of their own leave these as each of them does, and the other state as it is. -/
theorem each_aside {own : β → τ} {f : β → Run τ α} {L : Λ → Prop} {S : σ → Prop} {K : τ → Prop}
    {xs : List β} (hown : ∀ x ∈ xs, K (own x))
    (hf : ∀ x ∈ xs, Upholds w (fun l t => L l ∧ K t) (f x) (fun _ l t => L l ∧ K t)
      fun l t => L l ∧ K t) :
    Upholds w (fun l s => L l ∧ S s) (Run.each (fun x => Run.aside (own x) (f x)) xs)
      (fun results l s => L l ∧ S s ∧ ∀ r ∈ results, K r.2) E := by
  induction xs with
  | nil => exact pure fun l s hs => ⟨hs.1, hs.2, by simp⟩
  | cons x xs ih =>
    have hx := hf x (List.mem_cons_self ..)
    have hrest := ih (fun y hy => hown y (List.mem_cons_of_mem _ hy)) fun y hy =>
      hf y (List.mem_cons_of_mem _ hy)
    rw [each_cons]
    -- the first step, aside, and then the others
    refine bind (Q := fun r l s => (L l ∧ S s) ∧ K r.2) ?_ fun r => ?_
    · intro l s hs hassumed
      obtain ⟨hpromised, hend⟩ := hx l (own x) ⟨hs.1, hown x (List.mem_cons_self ..)⟩ hassumed
      have hleft := (either_iff ..).1 hend
      exact ⟨hpromised, ⟨hleft.1, hs.2⟩, hleft.2⟩
    · refine bind (Q := fun more l s => (L l ∧ S s ∧ ∀ r ∈ more, K r.2) ∧ K r.2) ?_ fun more =>
        pure fun l s hs => ⟨hs.1.1, hs.1.2.1, List.forall_mem_cons.2 ⟨hs.2, hs.1.2.2⟩⟩
      exact (hrest.imp_pre fun _ _ h => h.1).and_ends fun _ _ _ _ h _ => h.2

end Upholds

end Run

/-- What every call and every remark uphold, a program made of such calls upholds. -/
theorem Program.upholds_run {Λ σ α : Type} {I : Interface} {w : Monitor Λ} {P : Λ → σ → Prop}
    {handle : (c : I.Call) → Run σ (I.Reply c)}
    (hnote : ∀ n, Run.Upholds w P (Run.emit (.note n) : Run σ Unit) (fun _ => P) P)
    (hhandle : ∀ c, Run.Upholds w P (handle c) (fun _ => P) P) (p : Program I α) :
    Run.Upholds w P (p.run handle) (fun _ => P) P := by
  induction p with
  | done a => exact .pure fun _ _ h => h
  | fail fault => exact .rethrow fun _ _ h => h
  | note n rest ih => exact (hnote n).bind fun _ => ih
  | call c next ih =>
    exact (hhandle c).attempt.bind ih

end CircuitLayout
