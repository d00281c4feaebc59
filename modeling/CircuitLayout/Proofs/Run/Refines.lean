import Mathlib.Data.List.Forall2
import CircuitLayout.Proofs.Run.Ends
import CircuitLayout.Run.Keeps

namespace CircuitLayout.Run

/-! # Refinement between runs

`Refines F S T R m n`: from states that `S` relates, every success of `m` is matched by a success
of `n`, with results that `R` relates and states that `T` relates. Only the successes of `m` that
leave a state in `F` have to be matched. Such an `F` is needed where `m` postpones a check that `n`
makes at once: the runs whose postponed checks are bound to fail are outside `F`, and once a run
has left `F` it stays outside.
-/

variable {σ τ α β γ δ : Type} {F : σ → Prop} {S T U : σ → τ → Prop} {R : α → β → Prop}

/-- Is every success of the first run, if it ends well for `F`, matched by one of the second? -/
def Refines (F : σ → Prop) (S T : σ → τ → Prop) (R : α → β → Prop) (m : Run σ α) (n : Run τ β) :
    Prop :=
  ∀ s t a s', S s t → Ends m s a s' → F s' → ∃ b t', Ends n t b t' ∧ R a b ∧ T s' t'

/-- Every state. -/
def Anywhere (_ : σ) : Prop := True

/-- No run leaves the set of all states. -/
theorem Keeps.not_anywhere {m : Run σ α} : Keeps (fun s => ¬ Anywhere s) m :=
  fun _ h => absurd trivial h

/-- A success that ends in a set whose complement is kept began in that set. -/
theorem Ends.of_keeps_not {m : Run σ α} {s s' : σ} {a : α} (h : Ends m s a s')
    (hkeep : Keeps (fun s => ¬ F s) m) (hs' : F s') : F s := by
  by_contra hs
  have hleft := hkeep s hs
  rw [h.2] at hleft
  exact hleft hs'

/-- A success leaves what the run keeps. -/
theorem Ends.of_keeps {P : σ → Prop} {m : Run σ α} {s s' : σ} {a : α} (h : Ends m s a s')
    (hkeep : Keeps P m) (hs : P s) : P s' := by
  have hleft := hkeep s hs
  rwa [h.2] at hleft

/-- Answers that are related. -/
theorem Refines.pure {a : α} {b : β} (h : R a b) :
    Refines F S S R (Pure.pure a) (Pure.pure b) := by
  intro s t a' s' hS hm _
  rw [ends_pure] at hm
  rcases hm with ⟨rfl, rfl⟩
  exact ⟨b, t, by simp, h, hS⟩

/-- One part after another. A first part that already left `F` need not be matched: the second
part stays outside. -/
theorem Refines.bind {Q : γ → δ → Prop} {m : Run σ α} {n : Run τ β} {f : α → Run σ γ}
    {g : β → Run τ δ} (hm : Refines F S T R m n) (hkeep : ∀ a, Keeps (fun s => ¬ F s) (f a))
    (hf : ∀ a b, R a b → Refines F T U Q (f a) (g b)) :
    Refines F S U Q (m >>= f) (n >>= g) := by
  intro s t c s'' hS hmf hF
  rw [ends_bind] at hmf
  rcases hmf with ⟨a, s', hma, hfa⟩
  have hmid : F s' := hfa.of_keeps_not (hkeep a) hF
  rcases hm s t a s' hS hma hmid with ⟨b, t', hnb, hR, hT⟩
  rcases hf a b hR s' t' c s'' hT hfa hF with ⟨d, t'', hgd, hQ, hU⟩
  exact ⟨d, t'', (ends_bind ..).2 ⟨b, t', hnb, hgd⟩, hQ, hU⟩

/-- One part after another, where every success counts. -/
theorem Refines.andThen {Q : γ → δ → Prop} {m : Run σ α} {n : Run τ β} {f : α → Run σ γ}
    {g : β → Run τ δ} (hm : Refines Anywhere S T R m n)
    (hf : ∀ a b, R a b → Refines Anywhere T U Q (f a) (g b)) :
    Refines Anywhere S U Q (m >>= f) (n >>= g) :=
  hm.bind (fun _ => Keeps.not_anywhere) hf

/-- What is made of the answers, where the results of both are related. -/
theorem Refines.map {Q : γ → δ → Prop} {m : Run σ α} {n : Run τ β} {f : α → γ} {g : β → δ}
    (hm : Refines F S T R m n) (hfg : ∀ a b, R a b → Q (f a) (g b)) :
    Refines F S T Q (f <$> m) (g <$> n) := by
  intro s t c s' hS hmf hF
  rw [ends_map] at hmf
  rcases hmf with ⟨a, hma, rfl⟩
  rcases hm s t a s' hS hma hF with ⟨b, t', hnb, hR, hT⟩
  exact ⟨g b, t', (ends_map ..).2 ⟨b, hnb, rfl⟩, hfg a b hR, hT⟩

/-- Weaker relations between results and between the states at the end. -/
theorem Refines.mono {R' : α → β → Prop} {T' : σ → τ → Prop} {m : Run σ α} {n : Run τ β}
    (h : Refines F S T R m n) (hR : ∀ a b, R a b → R' a b) (hT : ∀ s t, T s t → T' s t) :
    Refines F S T' R' m n := by
  intro s t a s' hS hm hF
  rcases h s t a s' hS hm hF with ⟨b, t', hn, hab, hst⟩
  exact ⟨b, t', hn, hR a b hab, hT s' t' hst⟩

/-- A stronger relation between the states at the start. -/
theorem Refines.start {S' : σ → τ → Prop} {m : Run σ α} {n : Run τ β} (h : Refines F S T R m n)
    (hS : ∀ s t, S' s t → S s t) : Refines F S' T R m n :=
  fun s t a s' hst hm hF => h s t a s' (hS s t hst) hm hF

/-- What every result of the first run satisfies may be added to the relation between results. -/
theorem Refines.and_result {P : α → Prop} {m : Run σ α} {n : Run τ β} (h : Refines F S T R m n)
    (hP : ∀ s a s', Ends m s a s' → P a) : Refines F S T (fun a b => R a b ∧ P a) m n := by
  intro s t a s' hS hm hF
  rcases h s t a s' hS hm hF with ⟨b, t', hn, hab, hT⟩
  exact ⟨b, t', hn, ⟨hab, hP s a s' hm⟩, hT⟩

theorem Refines.get : Refines F S S S (get : Run σ σ) (get : Run τ τ) := by
  intro s t a s' hS hm _
  rw [ends_get] at hm
  rcases hm with ⟨rfl, rfl⟩
  exact ⟨t, t, by simp, hS, hS⟩

theorem Refines.emit (e e' : Event) :
    Refines F S S (fun _ _ => True) (emit e : Run σ Unit) (emit e' : Run τ Unit) := by
  intro s t a s' hS hm _
  rw [ends_emit] at hm
  subst hm
  exact ⟨(), t, by simp, trivial, hS⟩

theorem Refines.emitAll (es es' : List Event) :
    Refines F S S (fun _ _ => True) (emitAll es : Run σ Unit) (emitAll es' : Run τ Unit) := by
  intro s t a s' hS hm _
  rw [ends_emitAll] at hm
  subst hm
  exact ⟨(), t, by simp, trivial, hS⟩

/-- Changes that keep the states related. -/
theorem Refines.modify {f : σ → σ} {g : τ → τ} (h : ∀ s t, S s t → T (f s) (g t)) :
    Refines F S T (fun _ _ => True) (modify f) (modify g) := by
  intro s t a s' hS hm _
  rw [ends_modify] at hm
  subst hm
  exact ⟨(), g t, by simp, trivial, h s t hS⟩

theorem Refines.set {s : σ} {t : τ} (h : T s t) :
    Refines F S T (fun _ _ => True) (set s) (set t) := by
  intro s₀ t₀ a s' _ hm _
  rw [ends_set] at hm
  subst hm
  exact ⟨(), t, by simp, trivial, h⟩

section Zoom

variable {σ' τ' : Type} {part : σ' → σ} {put : σ' → σ → σ'} {part' : τ' → τ}
  {put' : τ' → τ → τ'} {m : Run σ α} {n : Run τ β}

/-- Runs on parts of two states, where more is related than these parts. -/
theorem Refines.zoom_of {S' T' : σ' → τ' → Prop} (h : Refines F S T R m n)
    (hput : ∀ s u, part (put s u) = u) (hS : ∀ {s t}, S' s t → S (part s) (part' t))
    (hT : ∀ {s t u v}, S' s t → T u v → T' (put s u) (put' t v)) :
    Refines (fun s => F (part s)) S' T' R (zoom part put m) (zoom part' put' n) := by
  intro s t a s' hst hm hF
  rw [ends_zoom] at hm
  rcases hm with ⟨u, hm, rfl⟩
  have hu : F u := by rwa [← hput s u]
  rcases h _ _ a u (hS hst) hm hu with ⟨b, v, hn, hR, huv⟩
  exact ⟨b, put' t v, (ends_zoom ..).2 ⟨v, hn, rfl⟩, hR, hT hst huv⟩

/-- Runs on parts of two states. -/
theorem Refines.zoom (h : Refines F S T R m n) (hput : ∀ s u, part (put s u) = u)
    (hput' : ∀ t u, part' (put' t u) = u) :
    Refines (fun s => F (part s)) (fun s t => S (part s) (part' t))
      (fun s t => T (part s) (part' t)) R (zoom part put m) (zoom part' put' n) := by
  refine h.zoom_of hput id ?_
  intro s t u v _ huv
  rwa [hput, hput']

end Zoom

/-- A run that always fails has no success to match. -/
theorem Refines.raise (fault : Fault) (n : Run τ β) :
    Refines F S T R (raise fault : Run σ α) n := by
  intro s t a s' _ hm _
  exact absurd hm (ends_raise fault s s' a)

/-- The second result may be a fault only if the first one is. -/
theorem Refines.ofExcept {result : Except Fault α} {result' : Except Fault β}
    (h : ∀ a, result = .ok a → ∃ b, result' = .ok b ∧ R a b) :
    Refines F S S R (ofExcept result) (ofExcept result') := by
  intro s t a s' hS hm _
  rw [ends_ofExcept] at hm
  rcases hm with ⟨ha, rfl⟩
  rcases h a ha with ⟨b, hb, hR⟩
  exact ⟨b, t, by simp [hb], hR, hS⟩

/-- The second run may refuse only what the first one refuses. -/
theorem Refines.refuse {c d : Prop} [Decidable c] [Decidable d] {fault fault' : Fault}
    (h : d → c) :
    Refines F S S (fun _ _ => True) (refuse c fault : Run σ Unit)
      (refuse d fault' : Run τ Unit) := by
  intro s t a s' hS hm _
  rw [ends_refuse] at hm
  rcases hm with ⟨hc, rfl⟩
  exact ⟨(), t, by simpa using fun hd => hc (h hd), trivial, hS⟩

/-- Steps for the items of two lists that are matched one by one. -/
theorem Refines.each {P : γ → δ → Prop} {f : γ → Run σ α} {g : δ → Run τ β} {xs : List γ}
    {ys : List δ} (hxy : List.Forall₂ P xs ys) (hkeep : ∀ x, Keeps (fun s => ¬ F s) (f x))
    (hstep : ∀ x y, P x y → Refines F S S R (f x) (g y)) :
    Refines F S S (List.Forall₂ R) (each f xs) (each g ys) := by
  induction hxy with
  | nil =>
    rw [each_nil, each_nil]
    exact Refines.pure .nil
  | @cons x y xs ys hx _ ih =>
    -- a run that has left `F` stays outside for all later items
    have hrest : Keeps (fun s => ¬ F s) (Run.each f xs) := Keeps.each fun x _ => hkeep x
    rw [each_cons, each_cons]
    refine (hstep x y hx).bind (fun _ => hrest.bind fun _ => Keeps.pure _) fun a b hab => ?_
    refine ih.bind (fun _ => Keeps.pure _) fun as bs has => ?_
    exact Refines.pure (.cons hab has)

/-- Steps for the items of one list. -/
theorem Refines.each_same {f : γ → Run σ α} {g : γ → Run τ β} (xs : List γ)
    (hkeep : ∀ x, Keeps (fun s => ¬ F s) (f x)) (hstep : ∀ x, Refines F S S R (f x) (g x)) :
    Refines F S S (List.Forall₂ R) (Run.each f xs) (Run.each g xs) := by
  have hsame : List.Forall₂ Eq xs xs := List.forall₂_same.2 fun _ _ => rfl
  refine Refines.each hsame hkeep ?_
  rintro x _ rfl
  exact hstep x

/-- A run matches itself, and both sides go on being one state. -/
theorem Refines.self {I J : σ → Prop} {m : Run σ α} (h : ∀ s a s', I s → Ends m s a s' → J s') :
    Refines F (fun s t => t = s ∧ I s) (fun s t => t = s ∧ J s) Eq m m := by
  rintro s _ a s' ⟨rfl, hI⟩ hm -
  exact ⟨a, s', hm, rfl, rfl, h _ a s' hI hm⟩

/-! ## Steps of one side -/

/-- A run is matched by doing nothing. -/
theorem Refines.of_ends_pure {m : Run σ α} {b : β}
    (h : ∀ s a s', Ends m s a s' → ∀ t, S s t → R a b ∧ T s' t) :
    Refines F S T R m (Pure.pure b) := by
  intro s t a s' hS hm _
  rcases h s a s' hm t hS with ⟨hR, hT⟩
  exact ⟨b, t, by simp, hR, hT⟩

/-- What the first run does at the end is matched by doing nothing. -/
theorem Refines.bind_left {Q : γ → β → Prop} {m : Run σ α} {n : Run τ β} {f : α → Run σ γ}
    (hm : Refines F S T R m n) (hkeep : ∀ a, Keeps (fun s => ¬ F s) (f a))
    (hf : ∀ a b, R a b → ∀ s c s', Ends (f a) s c s' → ∀ t, T s t → Q c b ∧ U s' t) :
    Refines F S U Q (m >>= f) n := by
  have hpair := hm.bind (g := Pure.pure) hkeep fun a b hab => Refines.of_ends_pure (hf a b hab)
  rwa [bind_pure] at hpair

end CircuitLayout.Run
