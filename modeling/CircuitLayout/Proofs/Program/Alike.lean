import CircuitLayout.Program
import CircuitLayout.Proofs.Run.Refines

namespace CircuitLayout

/-! # Programs that act alike

Two programs act alike if they make like calls as long as they get like answers, and if neither
handles the fault of a call. What passes for a like call and a like answer is up to a `Kinship`.
Main statement: `refines_run`, by which a refinement between what like calls do is a refinement
between the runs of like programs.
-/

/-- Which calls of an interface are alike, and which answers to them. -/
structure Kinship (I : Interface) where
  call : I.Call → I.Call → Prop
  reply : (c d : I.Call) → I.Reply c → I.Reply d → Prop

namespace Program

variable {I : Interface} {α β γ δ σ τ : Type}

/-- Do two programs make like calls on like answers, end with related results, and hand every
fault on? -/
inductive Alike (K : Kinship I) (A : α → β → Prop) : Program I α → Program I β → Prop where
  | done {a : α} {b : β} (h : A a b) : Alike K A (done a) (done b)
  | fail (fault fault' : Fault) : Alike K A (fail fault) (fail fault')
  | note {n n' : Note} {p : Program I α} {q : Program I β} (h : Alike K A p q) :
      Alike K A (note n p) (note n' q)
  | call {c d : I.Call} {next : Except Fault (I.Reply c) → Program I α}
      {next' : Except Fault (I.Reply d) → Program I β} (h : K.call c d)
      (ok : ∀ r r', K.reply c d r r' → Alike K A (next (.ok r)) (next' (.ok r')))
      (left : ∀ fault, GivesUp fault (next (.error fault)))
      (right : ∀ fault, GivesUp fault (next' (.error fault))) : Alike K A (call c next) (call d next')

/-- A program that gives up has no success. -/
theorem GivesUp.not_ends {handle : (c : I.Call) → Run σ (I.Reply c)} {fault : Fault}
    {p : Program I α} (h : GivesUp fault p) (s : σ) (a : α) (t : σ) :
    ¬ (p.run handle).Ends s a t := by
  induction h with
  | fail => exact Run.ends_rethrow fault s t a
  | note _ ih =>
    intro hends
    simp only [run, Run.ends_bind, Run.ends_emit] at hends
    rcases hends with ⟨_, _, rfl, hrest⟩
    exact ih hrest

/-- A call whose fault is handed on succeeds only if the call itself does. -/
theorem ends_run_call {handle : (c : I.Call) → Run σ (I.Reply c)} {c : I.Call}
    {next : Except Fault (I.Reply c) → Program I α}
    (herror : ∀ fault, GivesUp fault (next (.error fault))) (s : σ) (a : α) (t : σ) :
    ((call c next).run handle).Ends s a t ↔
      ∃ r u, (handle c).Ends s r u ∧ ((next (.ok r)).run handle).Ends u a t := by
  simp only [run, Run.ends_bind, Run.ends_attempt]
  constructor
  · rintro ⟨result, u, hcall, hrest⟩
    cases result with
    | error fault => exact absurd hrest ((herror fault).not_ends u a t)
    | ok r => exact ⟨r, u, hcall, hrest⟩
  · rintro ⟨r, u, hcall, hrest⟩
    exact ⟨.ok r, u, hcall, hrest⟩

/-- If like calls refine each other, so do the runs of like programs. -/
theorem refines_run {K : Kinship I} {A : α → β → Prop} {F : σ → Prop} {S : σ → τ → Prop}
    {handle : (c : I.Call) → Run σ (I.Reply c)} {handle' : (c : I.Call) → Run τ (I.Reply c)}
    (hkeep : ∀ c, Run.Keeps (fun s => ¬ F s) (handle c))
    (hcall : ∀ c d, K.call c d → Run.Refines F S S (K.reply c d) (handle c) (handle' d))
    {p : Program I α} {q : Program I β} (h : Alike K A p q) :
    Run.Refines F S S A (p.run handle) (q.run handle') := by
  induction h with
  | done h => exact Run.Refines.pure h
  | fail fault fault' =>
    intro s t a s' _ hends _
    exact absurd hends (Run.ends_rethrow fault s s' a)
  | note _ ih =>
    exact (Run.Refines.emit _ _).bind (fun _ => keeps_run hkeep _) fun _ _ _ => ih
  | call h ok left right ih =>
    intro s t a s'' hS hends hF
    rw [ends_run_call left] at hends
    rcases hends with ⟨r, s', hc, hrest⟩
    -- a state once ruled out stays so, hence the state after the call is not
    have hmid : F s' := hrest.of_keeps_not (keeps_run hkeep _) hF
    rcases hcall _ _ h s t r s' hS hc hmid with ⟨r', t', hd, hreply, hS'⟩
    rcases ih r r' hreply s' t' a s'' hS' hrest hF with ⟨b, t'', hrest', hA, hS''⟩
    exact ⟨b, t'', (ends_run_call right t b t'').2 ⟨r', t', hd, hrest'⟩, hA, hS''⟩

/-- Like calls, made by programs that hand every fault on. -/
theorem Alike.perform {K : Kinship I} {c d : I.Call} (h : K.call c d) :
    Alike K (K.reply c d) (perform c) (perform d) :=
  .call h (fun _ _ hreply => .done hreply) (fun _ => .fail) fun _ => .fail

/-- What follows a program that gives up is not reached. -/
theorem GivesUp.bind {fault : Fault} {p : Program I α} (h : GivesUp fault p) (f : α → Program I β) :
    GivesUp fault (p.bind f) := by
  induction h with
  | fail => exact .fail
  | note _ ih => exact .note ih

/-- Programs put together from like parts act alike. -/
theorem Alike.bind {K : Kinship I} {A : α → β → Prop} {B : γ → δ → Prop} {p : Program I α}
    {q : Program I β} {f : α → Program I γ} {g : β → Program I δ} (h : Alike K A p q)
    (hfg : ∀ a b, A a b → Alike K B (f a) (g b)) : Alike K B (p.bind f) (q.bind g) := by
  induction h with
  | done h => exact hfg _ _ h
  | fail fault fault' => exact .fail fault fault'
  | note _ ih => exact .note ih
  | call h ok left right ih =>
    exact .call h ih (fun fault => (left fault).bind f) fun fault => (right fault).bind g

/-! ## Programs that hand every fault on -/

theorem Propagates.perform (c : I.Call) : Propagates (perform c) := .call .done fun _ => .fail

theorem Propagates.bind {p : Program I α} {f : α → Program I β} (h : Propagates p)
    (hf : ∀ a, Propagates (f a)) : Propagates (p.bind f) := by
  induction h with
  | done a => exact hf a
  | fail fault => exact .fail fault
  | note _ ih => exact .note ih
  | call _ error ih => exact .call ih fun fault => (error fault).bind f

theorem Every.perform {P : I.Call → Prop} {c : I.Call} (h : P c) : Every P (perform c) := by
  refine .call h fun reply => ?_
  cases reply with
  | ok r => exact .done r
  | error fault => exact .fail fault

theorem Every.bind {P : I.Call → Prop} {p : Program I α} {f : α → Program I β} (h : Every P p)
    (hf : ∀ a, Every P (f a)) : Every P (p.bind f) := by
  induction h with
  | done a => exact hf a
  | fail fault => exact .fail fault
  | note _ ih => exact .note ih
  | call hc _ ih => exact .call hc ih

/-- A program makes only calls. -/
theorem every_true (p : Program I α) : p.Every fun _ => True := by
  induction p with
  | done a => exact .done a
  | fail fault => exact .fail fault
  | note n rest ih => exact .note ih
  | call c next ih => exact .call trivial ih

/-- A program that hands every fault on acts like itself, if its calls are kin to themselves and
like answers to them are equal. -/
theorem Propagates.alike {K : Kinship I} {P : I.Call → Prop} {A : α → α → Prop} {p : Program I α}
    (hp : Propagates p) (hcalls : Every P p) (hcall : ∀ c, P c → K.call c c)
    (hreply : ∀ c, P c → ∀ r r', K.reply c c r r' → r = r') (hA : ∀ a, A a a) : Alike K A p p := by
  induction hp with
  | done a => exact .done (hA a)
  | fail fault => exact .fail fault fault
  | note _ ih =>
    cases hcalls with
    | note h => exact .note (ih h)
  | @call c next ok error ih =>
    cases hcalls with
    | call hc hnext =>
      refine .call (hcall c hc) (fun r r' hrr => ?_) error error
      -- replies that are alike are equal here, so the rest is given the same one
      rcases hreply c hc r r' hrr with rfl
      exact ih r (hnext (.ok r))

/-! ## Answers -/

/-- The answers that the calls of a program get in a run, in order; a call that fails gets none. -/
def answers (handle : (c : I.Call) → Run σ (I.Reply c)) :
    Program I α → σ → List (Σ c : I.Call, I.Reply c)
  | done _, _ => []
  | fail _, _ => []
  | note _ rest, s => answers handle rest s
  | call c next, s =>
    match (handle c s).result with
    | .ok r => ⟨c, r⟩ :: answers handle (next (.ok r)) (handle c s).state
    | .error fault => answers handle (next (.error fault)) (handle c s).state

theorem answers_call {handle : (c : I.Call) → Run σ (I.Reply c)} {c : I.Call}
    {next : Except Fault (I.Reply c) → Program I α} {r : I.Reply c} {s u : σ}
    (h : (handle c).Ends s r u) :
    (call c next).answers handle s = ⟨c, r⟩ :: (next (.ok r)).answers handle u := by
  rw [answers, h.1, h.2]

/-- If calls refine each other with equal answers, a program gets the same answers from both. -/
theorem answers_eq {P : I.Call → Prop} {S : σ → τ → Prop}
    {handle : (c : I.Call) → Run σ (I.Reply c)} {handle' : (c : I.Call) → Run τ (I.Reply c)}
    (hcall : ∀ c, P c → Run.Refines Run.Anywhere S S Eq (handle c) (handle' c)) {p : Program I α}
    (hp : Propagates p) (hevery : Every P p) {s s' : σ} {t : τ} {a : α} (hS : S s t)
    (hends : (p.run handle).Ends s a s') : p.answers handle s = p.answers handle' t := by
  induction hp generalizing s t with
  | done | fail => rfl
  | note _ ih =>
    cases hevery with
    | note hevery =>
      simp only [run, Run.ends_emit_bind] at hends
      exact ih hevery hS hends
  | @call c next ok error ih =>
    cases hevery with
    | call hc hnext =>
      rcases (ends_run_call error s a s').1 hends with ⟨r, u, hfirst, hrest⟩
      -- both sides give the first answer, and go on from it
      rcases hcall c hc s t r u hS hfirst trivial with ⟨_, v, hfirst', rfl, hS'⟩
      rw [answers_call hfirst, answers_call hfirst', ih r (hnext (.ok r)) hS' hrest]

end Program

end CircuitLayout
