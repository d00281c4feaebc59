import CircuitLayout.Proofs.Program.Alike
import CircuitLayout.Proofs.Run.Monitors

namespace CircuitLayout.Run

/-! # Runs that follow others

A refinement matches every success of a run. `Follows` matches only the successes whose journal meets
what a monitor assumes of it, and relates the two states together with the ledger of the monitor.
The rules are those of refinements; `Follows.of_refines` takes a refinement over, where the events do
not move the ledger out of a property. Main statement: `Program.follows_run`.
-/

variable {Λ σ τ α β γ δ : Type} {w : Monitor Λ}

/-- What follows a success is told after it. -/
theorem Ends.events_bind {m : Run σ α} {s t : σ} {a : α} (h : m.Ends s a t) (f : α → Run σ β) :
    ((m >>= f) s).events = (m s).events ++ (f a t).events := by
  rw [h.bind_apply]

/-- A success of two parts, with the journals of both. -/
theorem of_ends_bind {m : Run σ α} {f : α → Run σ β} {s u : σ} {b : β} (h : (m >>= f).Ends s b u) :
    ∃ a t, m.Ends s a t ∧ (f a).Ends t b u ∧
      ((m >>= f) s).events = (m s).events ++ (f a t).events := by
  obtain ⟨a, t, hm, hf⟩ := (ends_bind ..).1 h
  exact ⟨a, t, hm, hf, hm.events_bind f⟩

/-- What the first of two runs tells, both tell. -/
theorem mem_events_bind_left {m : Run σ α} (f : α → Run σ β) {s : σ} {e : Event}
    (he : e ∈ (m s).events) : e ∈ ((m >>= f) s).events := by
  rw [bind_apply]
  rcases houtcome : m s with ⟨_ | a, t, es⟩
  · rwa [houtcome] at he
  · rw [houtcome] at he
    exact List.mem_append_left _ he

/-- What the second of two runs tells, both tell. -/
theorem mem_events_bind_right {m : Run σ α} {f : α → Run σ β} {s t : σ} {a : α} {e : Event}
    (h : m.Ends s a t) (he : e ∈ (f a t).events) : e ∈ ((m >>= f) s).events := by
  rw [h.events_bind]
  exact List.mem_append_right _ he

/-- A run tells what it tells whatever is made of its result. -/
theorem events_map (f : α → β) (m : Run σ α) (s : σ) : ((f <$> m) s).events = (m s).events := by
  rw [map_eq_pure_bind, bind_apply]
  cases h : m s with
  | mk result t es =>
    cases result with
    | error fault => rfl
    | ok a => exact List.append_nil es

/-- Is every success of the first run that meets what is assumed of its journal matched by a success
of the second? -/
def Follows (w : Monitor Λ) (S : Λ → σ → τ → Prop) (m : Run σ α) (n : Run τ β)
    (T : α → β → Λ → σ → τ → Prop) : Prop :=
  ∀ l s t a s', S l s t → m.Ends s a s' → w.Assumed l (m s).events →
    ∃ b t', n.Ends t b t' ∧ T a b (w.after l (m s).events) s' t'

namespace Follows

variable {S : Λ → σ → τ → Prop} {T : α → β → Λ → σ → τ → Prop} {U : γ → δ → Λ → σ → τ → Prop}
  {m : Run σ α} {n : Run τ β}

/-- A weaker relation at the end. -/
theorem imp_right {T' : α → β → Λ → σ → τ → Prop} (h : Follows w S m n T)
    (hT : ∀ a b l s t, T a b l s t → T' a b l s t) : Follows w S m n T' := by
  intro l s t a s' hS hends hassumed
  obtain ⟨b, t', hends', hafter⟩ := h l s t a s' hS hends hassumed
  exact ⟨b, t', hends', hT _ _ _ _ _ hafter⟩

/-- What is known besides of the states and the ledger at the start may be used. -/
theorem of_known {B : Prop} (h : B → Follows w S m n T) :
    Follows w (fun l s t => S l s t ∧ B) m n T :=
  fun l s t a s' hS => h hS.2 l s t a s' hS.1

theorem pure {a : α} {b : β} (h : ∀ l s t, S l s t → T a b l s t) :
    Follows w S (Pure.pure a) (Pure.pure b) T := by
  intro l s t a' s' hS hends _
  obtain ⟨rfl, rfl⟩ := (ends_pure ..).1 hends
  exact ⟨b, t, (ends_pure ..).2 ⟨rfl, rfl⟩, h l _ t hS⟩

/-- One part after another. The second part may assume what the first one leaves. -/
theorem bind {f : α → Run σ γ} {g : β → Run τ δ} (hm : Follows w S m n T)
    (hf : ∀ a b, Follows w (T a b) (f a) (g b) U) : Follows w S (m >>= f) (n >>= g) U := by
  intro l s t c s'' hS hends hassumed
  obtain ⟨a, s', hma, hfa, hevents⟩ := of_ends_bind hends
  rw [hevents, Monitor.Assumed, Monitor.along_append] at hassumed
  obtain ⟨b, t', hnb, hmid⟩ := hm l s t a s' hS hma hassumed.1
  obtain ⟨d, t'', hgd, hend⟩ := hf a b _ _ _ _ _ hmid hfa hassumed.2
  refine ⟨d, t'', (ends_bind ..).2 ⟨b, t', hnb, hgd⟩, ?_⟩
  rw [hevents, Monitor.after_append]
  exact hend

/-- Equal results may be taken for one. -/
theorem of_eq {a b : α} {T : Λ → σ → τ → Prop} {m : Run σ γ} {n : α → Run τ δ}
    (h : Follows w T m (n a) U) : Follows w (fun l s t => a = b ∧ T l s t) m (n b) U := by
  rintro l s t c s' ⟨rfl, hT⟩
  exact h l s t c s' hT

/-- One part after another, where the first parts end with equal results. -/
theorem bind_eq {n : Run τ α} {f : α → Run σ γ} {g : α → Run τ δ} {T : Λ → σ → τ → Prop}
    (hm : Follows w S m n fun a b l s t => a = b ∧ T l s t)
    (hf : ∀ a, Follows w T (f a) (g a) U) : Follows w S (m >>= f) (n >>= g) U :=
  hm.bind fun a _ => of_eq (hf a)

/-- What follows an attempt, if nothing that follows a fault succeeds. -/
theorem attempt_bind {f : Except Fault α → Run σ γ} {g : Except Fault β → Run τ δ}
    (hm : Follows w S m n T) (hf : ∀ a b, Follows w (T a b) (f (.ok a)) (g (.ok b)) U)
    (hfault : ∀ fault s c s', ¬ (f (.error fault)).Ends s c s') :
    Follows w S (m.attempt >>= f) (n.attempt >>= g) U := by
  intro l s t c s'' hS hends hassumed
  obtain ⟨result, s', hattempt, hfa, hevents⟩ := of_ends_bind hends
  obtain ⟨rfl, rfl⟩ := (ends_attempt ..).1 hattempt
  rw [hevents, Monitor.Assumed, Monitor.along_append] at hassumed
  -- what follows a fault never ends well, so there was none
  cases hresult : (m s).result with
  | error fault =>
    rw [hresult] at hfa
    exact absurd hfa (hfault fault _ c s'')
  | ok a =>
    rw [hresult] at hfa hassumed hevents
    obtain ⟨b, t', hnb, hmid⟩ := hm l s t a _ hS ⟨hresult, rfl⟩ hassumed.1
    obtain ⟨d, t'', hgd, hend⟩ := hf a b _ _ _ _ _ hmid hfa hassumed.2
    refine ⟨d, t'', (ends_bind ..).2 ⟨.ok b, t', (ends_attempt ..).2 hnb, hgd⟩, ?_⟩
    rw [hevents, Monitor.after_append]
    exact hend

/-- An event is told on both sides, and what is assumed of it may be used. -/
theorem emit {e : Event} {T : Λ → σ → τ → Prop}
    (h : ∀ l s t, S l s t → w.Assumes l e → T (w.step l e) s t) :
    Follows w S (Run.emit e) (Run.emit e) fun _ _ => T := by
  intro l s t a s' hS hends hassumed
  obtain rfl := (ends_emit ..).1 hends
  exact ⟨(), t, (ends_emit ..).2 rfl, h l s' t hS hassumed.1⟩

/-- What is matched whatever the journal says is matched, if its events leave the ledger in a
property. -/
theorem of_refines {A : Event → Prop} {L : Λ → Prop} {P Q : σ → τ → Prop} {R : α → β → Prop}
    (h : Refines Anywhere P Q R m n) (hm : Emits A m)
    (hA : ∀ l e, A e → L l → L (w.step l e)) :
    Follows w (fun l s t => L l ∧ P s t) m n fun a b l s t => R a b ∧ L l ∧ Q s t := by
  -- what no event takes away, no list of them does
  have hledger : ∀ es : List Event, (∀ e ∈ es, A e) → ∀ l, L l → L (w.after l es) := by
    intro es
    induction es with
    | nil => exact fun _ _ hl => hl
    | cons e es ih =>
      intro hes l hl
      obtain ⟨he, hrest⟩ := List.forall_mem_cons.1 hes
      exact ih hrest _ (hA l e he hl)
  intro l s t a s' hS hends _
  obtain ⟨b, t', hends', hR, hQ⟩ := h s t a s' hS.2 hends trivial
  exact ⟨b, t', hends', hR, hledger _ (hm s) l hS.1, hQ⟩

end Follows

end Run

/-- If the calls on the one side are followed by those on the other with equal answers, so is a
program that hands every fault on. -/
theorem Program.follows_run {Λ σ τ α : Type} {I : Interface} {w : Monitor Λ}
    {S : Λ → σ → τ → Prop} {handle : (c : I.Call) → Run σ (I.Reply c)}
    {handle' : (c : I.Call) → Run τ (I.Reply c)}
    (hnote : ∀ l n s t, S l s t → S (w.step l (.note n)) s t)
    (hcall : ∀ c, Run.Follows w S (handle c) (handle' c) fun a b l s t => a = b ∧ S l s t)
    {p : Program I α} (hp : p.Propagates) :
    Run.Follows w S (p.run handle) (p.run handle') fun a b l s t => a = b ∧ S l s t := by
  induction hp with
  | done a => exact .pure fun _ _ _ hS => ⟨rfl, hS⟩
  | fail fault =>
    intro l s t a s' _ hends _
    exact absurd hends (Run.ends_rethrow fault s s' a)
  | note _ ih => exact (Run.Follows.emit fun l s t hS _ => hnote l _ s t hS).bind fun _ _ => ih
  -- a program that hands faults on does not go on after one
  | @call c next ok error ih =>
    refine (hcall c).attempt_bind (fun r r' => ?_) fun fault => (error fault).not_ends
    exact Run.Follows.of_eq (n := fun r => run handle' (next (.ok r))) (ih r)

end CircuitLayout
