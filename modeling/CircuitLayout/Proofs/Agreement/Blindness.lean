import CircuitLayout.Proofs.Agreement.Discretion
import CircuitLayout.Proofs.Simulation.Layout

namespace CircuitLayout

/-! # Keys do not depend on the witness

Two circuits that differ in the values of their advice cells alone are laid out for their keys by the
same run. Main statement: `Circuit.verifyingKey_of_sameButAdvice`.
-/

open Desk (onTarget getKept)

variable {σ τ α ρ : Type}

/-! ## Circuits that differ in advice values -/

/-- Do two routines make the same calls as long as they get the same answers, but for the producers of
the values of advice cells? -/
inductive Routine.SameButAdvice : Routine α → Routine α → Prop where
  | done (a : α) : SameButAdvice (.done a) (.done a)
  | fail (fault : Fault) : SameButAdvice (.fail fault) (.fail fault)
  | note (n : Note) {p q : Routine α} (h : SameButAdvice p q) : SameButAdvice (.note n p) (.note n q)
  | call (c : RegionCall) {next next' : Except Fault c.Reply → Routine α}
      (h : ∀ reply, SameButAdvice (next reply) (next' reply)) :
      SameButAdvice (.call c next) (.call c next')
  | advice (label : String) (column offset : Nat) (value value' : Producer)
      {next next' : Except Fault AssignedCell → Routine α}
      (h : ∀ reply, SameButAdvice (next reply) (next' reply)) :
      SameButAdvice (.call (RegionCall.assignAdvice label column offset value) next)
        (.call (RegionCall.assignAdvice label column offset value') next')

/-- Do the programs of two circuits make the same calls as long as they get the same answers, but for
the producers of the values of advice cells in their regions? -/
inductive LayoutCall.SameButAdvice :
    Program (layoutInterface ρ) α → Program (layoutInterface ρ) α → Prop where
  | done (a : α) : SameButAdvice (.done a) (.done a)
  | fail (fault : Fault) : SameButAdvice (.fail fault) (.fail fault)
  | note (n : Note) {p q : Program (layoutInterface ρ) α} (h : SameButAdvice p q) :
      SameButAdvice (.note n p) (.note n q)
  | call (c : LayoutCall ρ) {next next' : Except Fault c.Reply → Program (layoutInterface ρ) α}
      (h : ∀ reply, SameButAdvice (next reply) (next' reply)) :
      SameButAdvice (.call c next) (.call c next')
  | region (name : String) {routine routine' : Pass → Routine ρ}
      (hroutine : ∀ pass, (routine pass).SameButAdvice (routine' pass))
      {next next' : Except Fault ρ → Program (layoutInterface ρ) α}
      (h : ∀ reply, SameButAdvice (next reply) (next' reply)) :
      SameButAdvice (.call (LayoutCall.region name routine) next)
        (.call (LayoutCall.region name routine') next')
  | regions (name : String) {routines routines' : List (Pass → Routine ρ)}
      (hroutines : List.Forall₂ (fun r r' => ∀ pass, (r pass).SameButAdvice (r' pass))
        routines routines')
      {next next' : Except Fault (List ρ) → Program (layoutInterface ρ) α}
      (h : ∀ reply, SameButAdvice (next reply) (next' reply)) :
      SameButAdvice (.call (LayoutCall.regions name routines) next)
        (.call (LayoutCall.regions name routines') next')

/-- Do two circuits differ in the producers of the values of advice cells alone? -/
structure Circuit.SameButAdvice (circuit circuit' : Circuit ρ) : Prop where
  schema_eq : circuit.schema = circuit'.schema
  program : LayoutCall.SameButAdvice circuit.program circuit'.program

namespace Routine.SameButAdvice

theorem refl (p : Routine α) : p.SameButAdvice p := by
  induction p with
  | done a => exact .done a
  | fail fault => exact .fail fault
  | note n rest ih => exact .note n ih
  | call c next ih => exact .call c ih

/-- Routines put together from such routines. -/
theorem bind {β : Type} {p q : Routine α} {f g : α → Routine β} (h : p.SameButAdvice q)
    (hfg : ∀ a, (f a).SameButAdvice (g a)) :
    Routine.SameButAdvice (Program.bind p f) (Program.bind q g) := by
  induction h with
  | done a => exact hfg a
  | fail fault => exact .fail fault
  | note n _ ih => exact .note n ih
  | call c _ ih => exact .call c ih
  | advice label column offset value value' _ ih => exact .advice label column offset value value' ih

theorem assignAdvice (label : String) (column offset : Nat) (value value' : Producer) :
    (Routine.assignAdvice label column offset value).SameButAdvice
      (Routine.assignAdvice label column offset value') := by
  refine .advice label column offset value value' fun reply => ?_
  cases reply with
  | ok cell => exact .done cell
  | error fault => exact .fail fault

end Routine.SameButAdvice

/-! ## Regions -/

/-- Routines that differ in advice values run the same if these do not matter to their calls. -/
theorem Routine.SameButAdvice.run_eq {handle : (c : RegionCall) → Run σ c.Reply}
    (hblind : ∀ label column offset value value',
      handle (.assignAdvice label column offset value) =
        handle (.assignAdvice label column offset value'))
    {p q : Routine α} (h : p.SameButAdvice q) : p.run handle = q.run handle := by
  induction h with
  | done | fail => rfl
  | note n _ ih => simp only [Program.run, ih]
  | call c _ ih =>
    show ((handle c).attempt >>= fun reply => _) = ((handle c).attempt >>= fun reply => _)
    exact congrArg _ (funext ih)
  | advice label column offset value value' _ ih =>
    show ((handle (.assignAdvice label column offset value)).attempt >>= fun reply => _) =
      ((handle (.assignAdvice label column offset value')).attempt >>= fun reply => _)
    rw [hblind label column offset value value']
    exact congrArg _ (funext ih)

/-- A step for every item is the same where it is the same for each. -/
theorem Run.each_congr {β γ : Type} {f : β → Run σ α} {g : γ → Run σ α} {xs : List β} {ys : List γ}
    (h : List.Forall₂ (fun x y => f x = g y) xs ys) : Run.each f xs = Run.each g ys := by
  induction h with
  | nil => rfl
  | cons hxy _ ih => rw [Run.each_cons, Run.each_cons, hxy, ih]

namespace Planner

/-- While a region is measured, nothing is known of its advice. -/
theorem measureAndPlace_blind (name : String) {p q : Routine α} (h : p.SameButAdvice q) :
    (measureAndPlace name p : Run (Layout σ) RowSpan) = measureAndPlace name q := by
  have hmeasure : ∀ region, (Footprint.measure region p : Run (Layout σ) Footprint) =
      Footprint.measure region q := by
    intro region
    refine congrArg
      (fun m : Run Footprint α => Prod.snd <$> Run.within (Footprint.blank region) m) (h.run_eq ?_)
    intro label column offset value value'
    rfl
  unfold measureAndPlace
  simp only [hmeasure]

/-- While a region is written for keys, its advice is passed over. -/
theorem writeRegion_blind (starts : Array Nat) (region : Nat) (name : String) {p q : Routine α}
    (h : p.SameButAdvice q) :
    (writeRegion starts region name p : Run KeyBuilder (α × Requests)) =
      writeRegion starts region name q := by
  unfold writeRegion
  rw [h.run_eq fun _ _ _ _ _ => rfl]

theorem assignRegion_blind (name : String) {routine routine' : Pass → Routine α}
    (h : ∀ pass, (routine pass).SameButAdvice (routine' pass)) :
    (assignRegion name routine : Run (Layout KeyBuilder) α) = assignRegion name routine' := by
  unfold assignRegion
  simp only [measureAndPlace_blind name (h .measuring), writeRegion_blind _ _ name (h .writing)]

variable {routines routines' : List (Pass → Routine α)}
  (h : List.Forall₂ (fun r r' => ∀ pass, (r pass).SameButAdvice (r' pass)) routines routines')

include h

theorem writeSerially_blind (name : String) (starts : Array Nat) (first : Nat) :
    (writeSerially name starts first routines : Run (Layout KeyBuilder) (List (α × Requests))) =
      writeSerially name starts first routines' := by
  unfold writeSerially
  refine congrArg (· >>= _) (Run.each_congr ?_)
  refine (forall₂_zipIdx h 0).imp ?_
  rintro ⟨r, i⟩ ⟨r', j⟩ ⟨hr, rfl⟩
  exact congrArg (fun m => (onTarget m).attempt) (writeRegion_blind _ _ _ (hr .writing))

theorem writeForked_blind (name : String) (starts : Array Nat) (first : Nat)
    (ranges : List RowSpan) :
    (writeForked name starts first ranges routines :
        Run (Layout KeyBuilder) (List (α × Requests))) =
      writeForked name starts first ranges routines' := by
  -- the forks depend on the ranges alone, so both batches are given the same ones
  have hforks : ∀ forks : List KeyBuilder, List.Forall₂
      (fun x y => x.1 = y.1 ∧ ∀ pass, (x.2 pass).SameButAdvice (y.2 pass))
      (forks.zip routines) (forks.zip routines') := by
    intro forks
    induction h generalizing forks with
    | nil => simp
    | cons hr _ ih =>
      cases forks with
      | nil => exact .nil
      | cons fork forks => exact .cons ⟨rfl, hr⟩ (ih forks)
  unfold writeForked
  refine congrArg _ (funext fun forks => congrArg (· >>= _) (Run.each_congr ?_))
  refine (forall₂_zipIdx (hforks forks) 0).imp ?_
  rintro ⟨⟨fork, r⟩, i⟩ ⟨⟨fork', r'⟩, j⟩ ⟨⟨rfl, hr⟩, rfl⟩
  exact congrArg (Run.aside fork) (writeRegion_blind _ _ _ (hr .writing))

theorem assignRegions_blind (name : String) :
    (assignRegions name routines : Run (Layout KeyBuilder) (List α)) =
      assignRegions name routines' := by
  -- measuring asks no producer at all
  have hmeasure : Run.each (fun x : (Pass → Routine α) × Nat =>
        (measureAndPlace (batchName name x.2) (x.1 .measuring) : Run (Layout KeyBuilder) RowSpan))
        routines.zipIdx =
      Run.each (fun x : (Pass → Routine α) × Nat =>
        (measureAndPlace (batchName name x.2) (x.1 .measuring) : Run (Layout KeyBuilder) RowSpan))
        routines'.zipIdx := by
    refine Run.each_congr ((forall₂_zipIdx h 0).imp ?_)
    rintro ⟨r, i⟩ ⟨r', j⟩ ⟨hr, rfl⟩
    exact measureAndPlace_blind _ (hr .measuring)
  unfold assignRegions writeBatch
  simp only [writeSerially_blind h, writeForked_blind h]
  exact congrArg _ (funext fun planner => congrArg (· >>= _) hmeasure)

end Planner

/-! ## Circuits -/

/-- A key builder lays circuits that differ in advice values out by the same run. -/
theorem LayoutCall.SameButAdvice.run_eq {p q : Program (layoutInterface ρ) α}
    (h : SameButAdvice p q) :
    (p.run Planner.perform : Run (Layout KeyBuilder) α) = q.run Planner.perform := by
  induction h with
  | done | fail => rfl
  | note n _ ih => simp only [Program.run, ih]
  | call c _ ih =>
    show ((Planner.perform c).attempt >>= fun reply => _) =
      ((Planner.perform c).attempt >>= fun reply => _)
    exact congrArg _ (funext ih)
  -- two routines that differ in advice only make the same call, with the same reply
  | @region name routine routine' hroutine next next' _ ih =>
    show ((Planner.assignRegion name routine).attempt >>= fun reply => _) =
      ((Planner.assignRegion name routine').attempt >>= fun reply => _)
    rw [Planner.assignRegion_blind name hroutine]
    exact congrArg _ (funext ih)
  | @regions name routines routines' hroutines next next' _ ih =>
    show ((Planner.assignRegions name routines).attempt >>= fun reply => _) =
      ((Planner.assignRegions name routines').attempt >>= fun reply => _)
    rw [Planner.assignRegions_blind hroutines name]
    exact congrArg _ (funext ih)

/-- The verifying keys of two circuits that differ in the producers of advice values alone are made by
the same run: it gives equal keys or the same fault, and asks none of these producers. -/
theorem Circuit.verifyingKey_of_sameButAdvice {circuit circuit' : Circuit ρ}
    (h : circuit.SameButAdvice circuit') (logRows : Nat) (settings : Settings) (s : τ) :
    (circuit.verifyingKey logRows settings s).result =
        (circuit'.verifyingKey logRows settings s).result ∧
      (circuit.verifyingKey logRows settings s).events =
        (circuit'.verifyingKey logRows settings s).events ∧
      ∀ index, .produced (.advice index) ∉ (circuit.verifyingKey logRows settings s).events := by
  have hrun : (circuit.verifyingKey logRows settings : Run τ VerifyingKey) =
      circuit'.verifyingKey logRows settings := by
    unfold verifyingKey buildKeys layOut
    rw [h.schema_eq, h.program.run_eq]
  rw [hrun]
  refine ⟨rfl, rfl, fun index hasked => ?_⟩
  exact circuit'.discreet_verifyingKey logRows settings s _ hasked rfl

/-! ## A circuit with a secret -/

namespace Circuit

/-- A circuit that assigns a fixed cell and a secret, and copies the secret. -/
def veiled (secret : Producer) : Circuit AssignedCell where
  schema := {
    adviceRotations := [[0]]
    fixedCount := 1
    inputCount := 0
    selectorCount := 0
    challengeCount := 0
    constants := []
    equality := [.advice 0] }
  program := do
    let routine : Routine AssignedCell := do
      let _ ← Routine.assignFixed "known" 0 0 (.known (.whole 7))
      let hidden ← Routine.assignAdvice "hidden" 0 0 secret
      Routine.copyAdvice hidden "copy" 0 1
    let _ ← Program.perform (I := layoutInterface AssignedCell) (.region "veiled" fun _ => routine)

theorem veiled_sameButAdvice (secret secret' : Producer) :
    (veiled secret).SameButAdvice (veiled secret') where
  schema_eq := rfl
  program := by
    refine .region "veiled" (fun _ => ?_) fun reply => ?_
    · refine (Routine.SameButAdvice.refl _).bind fun _ => ?_
      exact (Routine.SameButAdvice.assignAdvice ..).bind fun _ => .refl _
    · cases reply with
      | ok cell => exact .done ()
      | error fault => exact .fail fault

/-- A secret that is not to be had leaves a prover without a layout, and the verifying key as it is
with any other secret. -/
theorem verifyingKey_veiled :
    ((veiled (.known (.whole 5))).prove 4 [] ⟨false, 0, 40⟩ ()).result.isOk = true ∧
      ((veiled fun _ => .error .outOfRange).prove 4 [] ⟨false, 0, 40⟩ ()).result.isOk = false ∧
      ∃ vk, ((veiled (.known (.whole 5))).verifyingKey 4 ⟨false, 0, 40⟩ ()).result = .ok vk ∧
        ((veiled fun _ => .error .outOfRange).verifyingKey 4 ⟨false, 0, 40⟩ ()).result = .ok vk ∧
        ∀ index, .produced (.advice index) ∉
          ((veiled (.known (.whole 5))).verifyingKey 4 ⟨false, 0, 40⟩ ()).events := by
  refine ⟨by decide +kernel, by decide +kernel, ?_⟩
  obtain ⟨vk, hends⟩ := Run.exists_ends_unit (m := (veiled (.known (.whole 5))).verifyingKey 4
    ⟨false, 0, 40⟩) (by decide +kernel)
  obtain ⟨hresult, -, hasked⟩ := verifyingKey_of_sameButAdvice
    (veiled_sameButAdvice (.known (.whole 5)) fun _ => .error .outOfRange) 4 ⟨false, 0, 40⟩ ()
  exact ⟨vk, hends.1, hresult ▸ hends.1, hasked⟩

end Circuit

end CircuitLayout
