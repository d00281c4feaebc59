import CircuitLayout.Proofs.Run.Recounts

namespace CircuitLayout

/-! # What successes secure

A success whose journal meets what a monitor assumes leaves a ledger and a state of which something
is known. What a run leaves that fails does not matter here, so a program has to be one that hands
every fault on. The rules take a run apart the way it is put together. Main statement:
`Program.secures_run`.
-/

namespace Monitor

variable {Λ Λ' : Type} {w : Monitor Λ}

/-- Is assumed what was promised as well? -/
def trusting (w : Monitor Λ) : Monitor Λ where
  step := w.step
  Assumes l e := w.Assumes l e ∧ w.Promises l e
  Promises _ _ := True

/-- Who assumes what is assumed, and is promised the rest, may trust both. -/
theorem assumed_trusting {l : Λ} {es : List Event} (hassumed : w.Assumed l es)
    (hpromised : w.Promised l es) : w.trusting.Assumed l es := by
  induction es generalizing l with
  | nil => trivial
  | cons e es ih => exact ⟨⟨hassumed.1, hpromised.1⟩, ih hassumed.2 hpromised.2⟩

/-- A ledger that can be seen in another one goes through the same events. -/
theorem along_view {v : Monitor Λ'} (view : Λ → Λ')
    (hstep : ∀ l e, view (w.step l e) = v.step (view l) e)
    {P : Λ → Event → Prop} {P' : Λ' → Event → Prop} (h : ∀ l e, P l e → P' (view l) e) {l : Λ}
    {es : List Event} (hes : w.Along P l es) : v.Along P' (view l) es := by
  induction es generalizing l with
  | nil => trivial
  | cons e es ih =>
    refine ⟨h l e hes.1, ?_⟩
    rw [← hstep]
    exact ih hes.2

/-- What holds of the events for the one ledger holds for the one that is seen in it. -/
theorem along_of_view {v : Monitor Λ'} (view : Λ → Λ')
    (hstep : ∀ l e, view (w.step l e) = v.step (view l) e) {P : Λ → Event → Prop}
    {P' : Λ' → Event → Prop} (h : ∀ l e, P' (view l) e → P l e) {l : Λ} {es : List Event}
    (hes : v.Along P' (view l) es) : w.Along P l es := by
  induction es generalizing l with
  | nil => trivial
  | cons e es ih =>
    refine ⟨h l e hes.1, ih ?_⟩
    rw [hstep]
    exact hes.2

end Monitor

namespace Run

variable {Λ σ τ α β : Type} {w : Monitor Λ}

/-- Does every success of a run that begins with a ledger and a state in `P`, and whose journal meets
what is assumed of it, leave a ledger and a state in `Q`? -/
def Secures (w : Monitor Λ) (P : Λ → σ → Prop) (m : Run σ α) (Q : α → Λ → σ → Prop) : Prop :=
  ∀ l s a s', P l s → m.Ends s a s' → w.Assumed l (m s).events → Q a (w.after l (m s).events) s'

namespace Secures

variable {P P' : Λ → σ → Prop} {Q Q' : α → Λ → σ → Prop} {R : β → Λ → σ → Prop}
  {m : Run σ α} {f : α → Run σ β}

/-- Less at the start, more at the end. -/
theorem imp (hm : Secures w P m Q) (hP : ∀ l s, P' l s → P l s) (hQ : ∀ a l s, Q a l s → Q' a l s) :
    Secures w P' m Q' := by
  intro l s a s' hs hends hassumed
  exact hQ _ _ _ (hm l s a s' (hP l s hs) hends hassumed)

theorem imp_pre (hm : Secures w P m Q) (hP : ∀ l s, P' l s → P l s) : Secures w P' m Q :=
  hm.imp hP fun _ _ _ h => h

theorem imp_post (hm : Secures w P m Q) (hQ : ∀ a l s, Q a l s → Q' a l s) : Secures w P m Q' :=
  hm.imp (fun _ _ h => h) hQ

/-- What is known besides of the state and the ledger at the start may be used. -/
theorem of_known {B : Prop} (h : B → Secures w P m Q) : Secures w (fun l s => P l s ∧ B) m Q :=
  fun l s a s' hs => h hs.2 l s a s' hs.1

theorem pure {a : α} (h : ∀ l s, P l s → Q a l s) : Secures w P (Pure.pure a : Run σ α) Q := by
  intro l s b s' hs hends _
  obtain ⟨rfl, rfl⟩ := (ends_pure ..).1 hends
  exact h l _ hs

/-- One part after another, both of which succeed. -/
theorem bind (hm : Secures w P m Q) (hf : ∀ a, Secures w (Q a) (f a) R) :
    Secures w P (m >>= f) R := by
  intro l s b s'' hs hends hassumed
  obtain ⟨a, s', hma, hfa, hevents⟩ := of_ends_bind hends
  rw [hevents, Monitor.Assumed, Monitor.along_append] at hassumed
  rw [hevents, Monitor.after_append]
  exact hf a _ _ b s'' (hm l s a s' hs hma hassumed.1) hfa hassumed.2

/-- Reading the state, then the rest. -/
theorem get_bind {g : σ → Run σ β}
    (hg : ∀ t, Secures w (fun l s => P l s ∧ s = t) (g t) R) : Secures w P (get >>= g) R := by
  intro l s b s' hs hends hassumed
  rw [get_bind_apply] at hassumed ⊢
  exact hg s l s b s' ⟨hs, rfl⟩ ((ends_get_bind ..).1 hends) hassumed

/-- The journal of a run that always tells the same is known. -/
theorem of_recounts {L : α → List Event} (hm : Recounts L m)
    (h : ∀ l s a s', P l s → m.Ends s a s' → w.Assumed l (L a) → Q a (w.after l (L a)) s') :
    Secures w P m Q := by
  intro l s a s' hs hends hassumed
  rw [hm s a s' hends] at hassumed ⊢
  exact h l s a s' hs hends hassumed

/-- A silent run leaves the ledger as it is. -/
theorem of_silent (hm : Silent m) (h : ∀ l s a s', P l s → m.Ends s a s' → Q a l s') :
    Secures w P m Q :=
  of_recounts hm fun l s a s' hs hends _ => h l s a s' hs hends

/-- Events that leave the ledger in a property are no matter. -/
theorem of_emits {A : Event → Prop} {I : Λ → Λ → Prop} (hm : Emits A m) (hrefl : ∀ l, I l l)
    (hA : ∀ l k e, A e → I l k → I l (w.step k e))
    (h : ∀ l k s a s', P l s → m.Ends s a s' → I l k → Q a k s') : Secures w P m Q := by
  -- what no event takes away, no list of them does
  have hledger : ∀ es : List Event, (∀ e ∈ es, A e) → ∀ l k, I l k → I l (w.after k es) := by
    intro es
    induction es with
    | nil => exact fun _ _ _ hk => hk
    | cons e es ih =>
      intro hes l k hk
      obtain ⟨he, hrest⟩ := List.forall_mem_cons.1 hes
      exact ih hrest l _ (hA l k e he hk)
  intro l s a s' hs hends _
  exact h l _ s a s' hs hends (hledger _ (hm s) l l (hrefl l))

/-- What no event takes away from the ledger is there afterwards as well. -/
theorem and_lasting {I : Λ → Prop} (hm : Secures w P m Q) (hI : ∀ l e, I l → I (w.step l e)) :
    Secures w (fun l s => P l s ∧ I l) m (fun a l s => Q a l s ∧ I l) := by
  have hafter : ∀ es l, I l → I (w.after l es) := by
    intro es
    induction es with
    | nil => exact fun l hl => hl
    | cons e es ih => exact fun l hl => ih _ (hI l e hl)
  intro l s a s' hs hends hassumed
  exact ⟨hm l s a s' hs.1 hends hassumed, hafter _ l hs.2⟩

/-- What follows a computation is judged by its result. -/
theorem ofExcept_bind {result : Except Fault β} {g : β → Run σ α}
    (hg : ∀ b, result = .ok b → Secures w P (g b) Q) : Secures w P (Run.ofExcept result >>= g) Q := by
  cases result with
  | ok b => exact hg b rfl
  | error fault =>
    intro l s a s' _ hends _
    obtain ⟨b, hb, -⟩ := (ends_ofExcept_bind ..).1 hends
    cases hb

/-- A run that fails secures anything. -/
theorem raise (fault : Fault) : Secures w P (Run.raise fault : Run σ α) Q := by
  intro l s a s' _ hends _
  exact absurd hends (ends_raise fault s s' a)

/-- What follows an attempt, if nothing that follows a fault succeeds. -/
theorem attempt_bind {f : Except Fault α → Run σ β} (hm : Secures w P m Q)
    (hf : ∀ a, Secures w (Q a) (f (.ok a)) R)
    (hfault : ∀ fault s b s', ¬ (f (.error fault)).Ends s b s') :
    Secures w P (m.attempt >>= f) R := by
  intro l s b s'' hs hends hassumed
  obtain ⟨result, s', hattempt, hfa, hevents⟩ := of_ends_bind hends
  obtain ⟨hresult, rfl⟩ := (ends_attempt ..).1 hattempt
  rw [hevents, Monitor.Assumed, Monitor.along_append] at hassumed
  rw [hevents, Monitor.after_append]
  cases result with
  | error fault => exact absurd hfa (hfault fault _ b s'')
  | ok a => exact hf a _ _ b s'' (hm l s a _ hs ⟨hresult, rfl⟩ hassumed.1) hfa hassumed.2

/-- A run on a part of the state. -/
theorem zoom {part : τ → σ} {put : τ → σ → τ} {S : Λ → τ → Prop} {T : α → Λ → τ → Prop}
    (hm : Secures w P m Q) (hS : ∀ l t, S l t → P l (part t))
    (hT : ∀ t a l k s, S l t → Q a k s → T a k (put t s)) :
    Secures w S (Run.zoom part put m) T := by
  intro l t a t' ht hends hassumed
  obtain ⟨s', hma, rfl⟩ := (ends_zoom ..).1 hends
  exact hT t a l _ s' ht (hm l (part t) a s' (hS l t ht) hma hassumed)

/-- A run on a state of its own, which it begins with. -/
theorem within {own : τ} {m : Run τ α} {P : Λ → τ → Prop} {Q : α → Λ → τ → Prop} {S : Λ → σ → Prop}
    (hm : Secures w P m Q) (hS : ∀ l s, S l s → P l own) :
    Secures w S (Run.within own m : Run σ (α × τ)) (fun x l _ => Q x.1 l x.2) := by
  rintro l s ⟨a, u⟩ s' hs hends hassumed
  obtain ⟨hma, rfl⟩ := (ends_within ..).1 hends
  have hevents : (Run.within own m s').events = (m own).events := by
    simp only [Run.within, hma.1]
  rw [hevents] at hassumed ⊢
  exact hm l own a u (hS l _ hs) hma hassumed

/-- A loop secures for each of its results what no later step takes away. -/
theorem each {f : β → Run σ α} {R : α → Λ → Prop} {xs : List β}
    (hf : ∀ x ∈ xs, Secures w P (f x) fun a l s => P l s ∧ R a l)
    (hR : ∀ a l e, R a l → R a (w.step l e)) :
    Secures w P (Run.each f xs) fun results l s => P l s ∧ ∀ a ∈ results, R a l := by
  induction xs with
  | nil => exact pure fun l s hs => ⟨hs, by simp⟩
  | cons x xs ih =>
    rw [each_cons]
    refine (hf x (List.mem_cons_self ..)).bind fun a => ?_
    have hrest := (ih fun y hy => hf y (List.mem_cons_of_mem _ hy)).and_lasting (hR a)
    refine hrest.bind fun results => pure fun l s hs => ⟨hs.1.1, ?_⟩
    exact List.forall_mem_cons.2 ⟨hs.2, hs.1.2⟩

end Secures

end Run

/-- What every call and every remark secure, a program that hands every fault on secures. -/
theorem Program.secures_run {Λ σ α : Type} {I : Interface} {w : Monitor Λ}
    {P : Λ → σ → Prop} {C : I.Call → Prop} {handle : (c : I.Call) → Run σ (I.Reply c)}
    (hnote : ∀ l n s, P l s → P (w.step l (.note n)) s)
    (hcall : ∀ c, C c → Run.Secures w P (handle c) fun _ => P) {p : Program I α}
    (hp : p.Propagates) (hcalls : p.Every C) : Run.Secures w P (p.run handle) fun _ => P := by
  induction hp with
  | done a => exact .pure fun _ _ h => h
  -- a program that fails secures anything
  | fail fault =>
    intro l s a s' _ hends _
    exact absurd hends (Run.ends_rethrow fault s s' a)
  | @note n rest _ ih =>
    cases hcalls with
    | note hrest =>
      refine Run.Secures.bind (Q := fun _ => P) ?_ fun _ => ih hrest
      refine Run.Secures.of_recounts (Run.Recounts.emit _) fun l s a s' hs hends _ => ?_
      obtain rfl := (Run.ends_emit ..).1 hends
      exact hnote l n _ hs
  | @call c next ok error ih =>
    cases hcalls with
    | call hc hnext =>
      refine (hcall c hc).attempt_bind (fun r => ih r (hnext (.ok r))) ?_
      exact fun fault => (error fault).not_ends

end CircuitLayout
