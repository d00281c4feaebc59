import CircuitLayout.Proofs.Run.Follows

namespace CircuitLayout.Run

/-! # What successes tell the journal

Whatever state a run begins in, its successes may all tell the journal the same, up to their result.
Two such runs that match each other tell the same story, and so do programs of such calls. Main
statement: `Program.events_eq`.
-/

variable {σ τ α β : Type} {es : List Event} {L : β → List Event}

/-- What the first step of a loop tells goes before what the others tell. -/
theorem Ends.events_each_cons {f : β → Run σ α} {x : β} {s t : σ} {a : α} (h : (f x).Ends s a t)
    (xs : List β) : (each f (x :: xs) s).events = (f x s).events ++ (each f xs t).events := by
  rw [each_cons, h.events_bind, Run.bind_apply]
  cases each f xs t with
  | mk result u es =>
    cases result with
    | ok more => simp
    | error fault => rfl

/-- A loop of runs on states of their own tells what these tell. -/
theorem events_each_aside (own : β → τ) (m : β → Run τ α) (x : β) (xs : List β) (s : σ) :
    (each (fun x => aside (own x) (m x)) (x :: xs) s).events =
      (m x (own x)).events ++ (each (fun x => aside (own x) (m x)) xs s).events := by
  have haside : (aside (own x) (m x) : Run σ (Except Fault α × τ)).Ends s
      ((m x (own x)).result, (m x (own x)).state) s := (ends_aside ..).2 ⟨⟨rfl, rfl⟩, rfl⟩
  exact Ends.events_each_cons (f := fun x => aside (own x) (m x)) haside xs

/-- Does every success of a run write the events that go with its result, and no others? -/
def Recounts (L : α → List Event) (m : Run σ α) : Prop :=
  ∀ s a t, m.Ends s a t → (m s).events = L a

/-- Does no success of a run write any event? -/
abbrev Silent (m : Run σ α) : Prop := Recounts (fun _ => []) m

namespace Recounts

theorem pure (a : α) : Silent (Pure.pure a : Run σ α) := by
  intro s b t _
  rfl

theorem get : Silent (get : Run σ σ) := by
  intro s a t _
  rfl

theorem set (s : σ) : Silent (set s) := by
  intro s' a t _
  rfl

theorem modify (f : σ → σ) : Silent (modify f) := by
  intro s a t _
  rfl

/-- One event is told. -/
theorem emit (e : Event) : Recounts (fun _ => [e]) (emit e : Run σ Unit) := by
  intro s a t _
  rfl

/-- A run that never succeeds tells anything on success. -/
theorem raise (L : α → List Event) (fault : Fault) : Recounts L (raise fault : Run σ α) := by
  intro s a t hends
  exact absurd hends (ends_raise fault s t a)

theorem ofExcept (result : Except Fault α) : Silent (ofExcept result : Run σ α) := by
  cases result with
  | ok a => exact pure a
  | error fault => exact raise _ fault

theorem refuse (condition : Prop) [Decidable condition] (fault : Fault) :
    Silent (refuse condition fault : Run σ Unit) := by
  unfold Run.refuse
  split
  · exact raise _ fault
  · exact pure ()

/-- One part after another. -/
theorem bind {m : Run σ α} {f : α → Run σ β} (hm : Recounts (fun _ => es) m)
    (hf : ∀ a, Recounts L (f a)) : Recounts (fun b => es ++ L b) (m >>= f) := by
  intro s b u hends
  obtain ⟨a, t, hma, hfa, hevents⟩ := of_ends_bind hends
  rw [hevents, hm s a t hma, hf a t b u hfa]

/-- What comes first may be silent. -/
theorem after {m : Run σ α} {f : α → Run σ β} (hm : Silent m) (hf : ∀ a, Recounts L (f a)) :
    Recounts L (m >>= f) := hm.bind hf

/-- What is made of the answer tells nothing. -/
theorem map {m : Run σ α} (hm : Recounts (fun _ => es) m) (g : α → β) :
    Recounts (fun _ => es) (g <$> m) := by
  intro s b t hends
  obtain ⟨a, hma, rfl⟩ := (ends_map ..).1 hends
  have hevents : ((g <$> m) s).events = (m s).events ++ [] := hma.events_bind fun a => Pure.pure (g a)
  rw [hevents, List.append_nil, hm s a t hma]

/-- Silent steps make a silent loop. -/
theorem each {f : β → Run σ α} {xs : List β} (hf : ∀ x ∈ xs, Silent (f x)) :
    Silent (Run.each f xs) := by
  induction xs with
  | nil => exact pure []
  | cons x xs ih =>
    rw [each_cons]
    refine (hf x (List.mem_cons_self ..)).after fun a => ?_
    exact (ih fun y hy => hf y (List.mem_cons_of_mem _ hy)).after fun _ => pure _

/-- A part tells the same on its own and in the whole. -/
theorem zoom {L : α → List Event} {part : τ → σ} {put : τ → σ → τ} {m : Run σ α}
    (hm : Recounts L m) : Recounts L (Run.zoom part put m) := by
  intro s a t hends
  obtain ⟨u, hma, -⟩ := (ends_zoom ..).1 hends
  exact hm (part s) a u hma

end Recounts

end CircuitLayout.Run

namespace CircuitLayout.Program

open Run (Recounts Refines Keeps)

variable {σ τ α : Type} {I : Interface}

/-- A program tells what its calls and its remarks tell. -/
theorem emits_run {A : Event → Prop} {handle : (c : I.Call) → Run σ (I.Reply c)}
    (hnote : ∀ n, A (.note n)) (hcall : ∀ c, Run.Emits A (handle c)) (p : Program I α) :
    Run.Emits A (p.run handle) := by
  induction p with
  | done a => exact .pure a
  | fail fault => exact .rethrow fault
  | note n rest ih => exact (Run.Emits.emit (hnote n)).bind fun _ => ih
  | call c next ih => exact (hcall c).attempt.bind ih

/-- A call that goes on with its answer tells what the call tells, and then what follows it. -/
theorem of_ends_perform_bind {handle : (c : I.Call) → Run σ (I.Reply c)} {c : I.Call}
    {f : I.Reply c → Program I α} {s t : σ} {a : α} (h : ((perform c >>= f).run handle).Ends s a t) :
    ∃ r u, (handle c).Ends s r u ∧ ((f r).run handle).Ends u a t ∧
      ((perform c >>= f).run handle s).events =
        (handle c s).events ++ ((f r).run handle u).events := by
  obtain ⟨result, u, hcall, hrest, hevents⟩ := Run.of_ends_bind h
  cases result with
  | error fault => exact absurd hrest (Run.ends_rethrow fault u t a)
  | ok r => exact ⟨r, u, (Run.ends_attempt ..).1 hcall, hrest, hevents⟩

/-- A program that hands every fault on tells the same story on two sides, if all its calls do. -/
theorem events_eq {L : (c : I.Call) → I.Reply c → List Event} {F : σ → Prop} {S : σ → τ → Prop}
    {handle : (c : I.Call) → Run σ (I.Reply c)} {handle' : (c : I.Call) → Run τ (I.Reply c)}
    (hrecounts : ∀ c, Recounts (L c) (handle c)) (hrecounts' : ∀ c, Recounts (L c) (handle' c))
    (hkeep : ∀ c, Keeps (fun s => ¬ F s) (handle c))
    (hcall : ∀ c, Refines F S S Eq (handle c) (handle' c)) {p : Program I α} (hp : p.Propagates)
    {s s' : σ} {t : τ} {a : α} (hS : S s t) (hends : (p.run handle).Ends s a s') (hF : F s') :
    (p.run handle' t).events = (p.run handle s).events := by
  induction hp generalizing s t with
  | done | fail => rfl
  | @note n rest _ ih =>
    have hrest : (rest.run handle' t).events = (rest.run handle s).events :=
      ih hS ((Run.ends_emit_bind ..).1 hends)
    exact congrArg (Event.note n :: ·) hrest
  | @call c next ok error ih =>
    obtain ⟨r, u, hfirst, hrest⟩ := (ends_run_call error s a s').1 hends
    have hu : F u := hrest.of_keeps_not (keeps_run hkeep _) hF
    obtain ⟨_, v, hfirst', rfl, huv⟩ := hcall c s t r u hS hfirst hu
    -- the call tells the same on both sides, and so does what comes after its answer
    have hleft := ((Run.ends_attempt ..).2 hfirst).events_bind fun reply => (next reply).run handle
    have hright := ((Run.ends_attempt ..).2 hfirst').events_bind fun reply =>
      (next reply).run handle'
    have hsame : ((handle' c).attempt t).events = ((handle c).attempt s).events :=
      (hrecounts' c t r v hfirst').trans (hrecounts c s r u hfirst).symm
    rw [run, run, hleft, hright, hsame, ih r huv hrest]

end CircuitLayout.Program
