import CircuitLayout.Proofs.Simulation.Tolerance

namespace CircuitLayout

/-! # Simulation of written regions

A simulation between two assignments says that each call on the one is matched by the same call on
the other. Main statement: `RegionSimulation.writeRegion`, by which like routines, written on
assignments that stand for each other, end alike.
-/

open Tolerance (Passes)

variable {σ τ α β κ κ' : Type} {F : σ → Prop} {S T : σ → τ → Prop} {K : κ → κ' → Prop}
  {R : α → β → Prop}

/-! ## Positions -/

/-- The position of a placed cell is at its row. -/
theorem eq_of_positionOf {starts : Array Nat} {cell : Cell} {a : Position}
    (h : positionOf starts cell = .ok a) :
    a = ⟨cell.column, Word.add (starts.getD cell.region 0) cell.offset⟩ := by
  unfold positionOf rowOf at h
  rw [Array.getD_eq_getD_getElem?]
  cases hstart : starts[cell.region]? with
  | none =>
    rw [hstart] at h
    cases h
  | some start =>
    rw [hstart] at h
    exact (Except.ok.inj h).symm

/-! ## Desks -/

namespace Desk

/-- Are two desks related on the target and beside it? -/
def Rel (S : σ → τ → Prop) (K : κ → κ' → Prop) (d : Desk σ κ) (e : Desk τ κ') : Prop :=
  S d.target e.target ∧ K d.kept e.kept

/-- Does the target of a desk have a property? -/
def OnTarget (F : σ → Prop) (d : Desk σ κ) : Prop := F d.target

@[simp] theorem ends_onTarget (m : Run σ α) (d d' : Desk σ κ) (a : α) :
    (onTarget m).Ends d a d' ↔ ∃ u, m.Ends d.target a u ∧ d' = { d with target := u } := by
  simp [onTarget]

/-- A run that looks first at what is kept. -/
theorem getKept_bind_apply (f : κ → Run (Desk σ κ) α) (d : Desk σ κ) :
    (getKept >>= f) d = f d.kept d := by
  rw [Run.bind_apply]
  rfl

theorem keeps_onTarget {m : Run σ α} (h : Run.Keeps F m) :
    Run.Keeps (OnTarget F) (onTarget m : Run (Desk σ κ) α) :=
  Run.Keeps.zoom fun d hd => h d.target hd

theorem keeps_getKept : Run.Keeps (OnTarget F) (getKept : Run (Desk σ κ) κ) := fun _ h => h

theorem keeps_modifyKept (f : κ → κ) : Run.Keeps (OnTarget F) (modifyKept f : Run (Desk σ κ) Unit) :=
  Run.Keeps.modify fun _ h => h

/-- What the targets match, the desks match. -/
theorem refines_onTarget {m : Run σ α} {n : Run τ β} (h : Run.Refines F S T R m n) :
    Run.Refines (OnTarget F) (Rel S K) (Rel T K) R (onTarget m) (onTarget n) := by
  intro d e a d' hde hm hF
  rw [ends_onTarget] at hm
  rcases hm with ⟨u, hm, rfl⟩
  rcases h d.target e.target a u hde.1 hm hF with ⟨b, v, hn, hR, hT⟩
  exact ⟨b, { e with target := v }, (ends_onTarget ..).2 ⟨v, hn, rfl⟩, hR, hT, hde.2⟩

theorem refines_getKept {F : Desk σ κ → Prop} :
    Run.Refines F (Rel S K) (Rel S K) K (getKept : Run (Desk σ κ) κ)
      (getKept : Run (Desk τ κ') κ') :=
  Run.Refines.get.map fun _ _ h => h.2

theorem refines_modifyKept {F : Desk σ κ → Prop} {f : κ → κ} {g : κ' → κ'}
    (h : ∀ x y, K x y → K (f x) (g y)) :
    Run.Refines F (Rel S K) (Rel S K) (fun _ _ => True) (modifyKept f) (modifyKept g) :=
  Run.Refines.modify fun _ _ hde => ⟨hde.1, h _ _ hde.2⟩

/-- What is done within a region succeeds only if all three parts do. -/
theorem ends_withinRegion [Assignment σ] (name : String) (body : Run (Desk σ κ) α)
    (d d' : Desk σ κ) (a : α) :
    (withinRegion name body).Ends d a d' ↔
      ∃ u v, (onTarget (Assignment.enterRegion name)).Ends d () u ∧ body.Ends u a v ∧
        (onTarget Assignment.exitRegion).Ends v () d' := by
  unfold withinRegion
  simp only [Run.ends_bind, Run.ends_attempt, Run.ends_settle]
  constructor
  · rintro ⟨_, u, henter, result, v, ⟨hresult, hv⟩, _, w, hexit, rfl, rfl⟩
    exact ⟨u, v, henter, ⟨hresult, hv⟩, hexit⟩
  · rintro ⟨u, v, henter, hbody, hexit⟩
    exact ⟨(), u, henter, .ok a, v, hbody, (), d', hexit, rfl, rfl⟩

theorem keeps_withinRegion [Assignment σ] {name : String} {body : Run (Desk σ κ) α}
    (henter : Run.Keeps F (Assignment.enterRegion name : Run σ Unit))
    (hexit : Run.Keeps F (Assignment.exitRegion : Run σ Unit))
    (hbody : Run.Keeps (OnTarget F) body) : Run.Keeps (OnTarget F) (withinRegion name body) := by
  unfold withinRegion
  apply Run.Keeps.bind (keeps_onTarget henter)
  intro _
  apply Run.Keeps.bind hbody.attempt
  intro result
  apply Run.Keeps.bind (keeps_onTarget hexit)
  intro _
  exact Run.Keeps.settle result

/-- What is matched between the opening and the closing of a region is matched with both. -/
theorem refines_withinRegion [Assignment σ] [Assignment τ] {name name' : String} {K' : κ → κ' → Prop}
    {body : Run (Desk σ κ) α} {body' : Run (Desk τ κ') β}
    (henter : Run.Refines F S T (fun _ _ => True) (Assignment.enterRegion name)
      (Assignment.enterRegion name'))
    (hexit : Run.Refines F T S (fun _ _ => True) Assignment.exitRegion Assignment.exitRegion)
    (hkeepExit : Run.Keeps (fun s => ¬ F s) (Assignment.exitRegion : Run σ Unit))
    (hkeepBody : Run.Keeps (fun d => ¬ OnTarget F d) body)
    (hbody : Run.Refines (OnTarget F) (Rel T K) (Rel T K') R body body') :
    Run.Refines (OnTarget F) (Rel S K) (Rel S K') R (withinRegion name body)
      (withinRegion name' body') := by
  intro d e a d' hde h hF
  rw [ends_withinRegion] at h
  rcases h with ⟨u, v, hd, hu, hv⟩
  have hFv : OnTarget F v := hv.of_keeps_not (keeps_onTarget (F := fun s => ¬ F s) hkeepExit) hF
  have hFu : OnTarget F u := hu.of_keeps_not hkeepBody hFv
  rcases refines_onTarget henter d e () u hde hd hFu with ⟨_, u', hd', -, hT⟩
  rcases hbody u u' a v hT hu hFv with ⟨b, v', hu', hR, hT'⟩
  rcases refines_onTarget hexit v v' () d' hT' hv hF with ⟨_, e', hv', -, hS⟩
  exact ⟨b, e', (ends_withinRegion ..).2 ⟨u', v', hd', hu', hv'⟩, hR, hS⟩

end Desk

open Desk (Rel OnTarget onTarget getKept modifyKept withinRegion)

/-! ## Announced calls -/

namespace RegionCall

theorem ends_announce (c : RegionCall) (s s' : σ) (a : Unit) :
    (c.announce : Run σ Unit).Ends s a s' ↔ s' = s := by
  unfold announce
  split
  · exact Run.ends_emit ..
  · simp

theorem ends_acknowledge (c : RegionCall) (reply : c.Reply) (s s' : σ) (a : Unit) :
    (c.acknowledge reply : Run σ Unit).Ends s a s' ↔ s' = s := by
  unfold acknowledge
  split
  · exact Run.ends_emit ..
  · simp

theorem keeps_announce {P : σ → Prop} (c : RegionCall) : Run.Keeps P (c.announce : Run σ Unit) := by
  unfold announce
  split
  · exact Run.Keeps.emit _
  · exact Run.Keeps.pure _

theorem keeps_acknowledge {P : σ → Prop} (c : RegionCall) (reply : c.Reply) :
    Run.Keeps P (c.acknowledge reply : Run σ Unit) := by
  unfold acknowledge
  split
  · exact Run.Keeps.emit _
  · exact Run.Keeps.pure _

/-- What the journal is told is no matter to a refinement. -/
theorem refines_announce (c d : RegionCall) :
    Run.Refines F S S (fun _ _ => True) (c.announce : Run σ Unit) (d.announce : Run τ Unit) := by
  intro s t a s' hS hends _
  rw [ends_announce] at hends
  subst hends
  exact ⟨(), t, (ends_announce ..).2 rfl, trivial, hS⟩

theorem refines_acknowledge {c d : RegionCall} (reply : c.Reply) (reply' : d.Reply) :
    Run.Refines F S S (fun _ _ => True) (c.acknowledge reply : Run σ Unit)
      (d.acknowledge reply' : Run τ Unit) := by
  intro s t a s' hS hends _
  rw [ends_acknowledge] at hends
  subst hends
  exact ⟨(), t, (ends_acknowledge ..).2 rfl, trivial, hS⟩

end RegionCall

/-! ## Simulations -/

section Simulation

variable [Assignment σ] [Assignment τ]

/-- A property of assignments that nothing done within a region takes away. -/
structure CellKeeps (F : σ → Prop) : Prop where
  nameColumn : ∀ label column, Run.Keeps F (Assignment.nameColumn label column : Run σ Unit)
  enableSelector : ∀ label selector row,
    Run.Keeps F (Assignment.enableSelector label selector row : Run σ Unit)
  queryAdvice : ∀ column row, Run.Keeps F (Assignment.queryAdvice column row : Run σ Goldilocks)
  queryFixed : ∀ column row, Run.Keeps F (Assignment.queryFixed column row : Run σ Goldilocks)
  queryInput : ∀ column row,
    Run.Keeps F (Assignment.queryInput column row : Run σ (Option Goldilocks))
  assignAdvice : ∀ label column row value,
    Run.Keeps F (Assignment.assignAdvice label column row value : Run σ (Option Fraction))
  assignFixed : ∀ label column row value,
    Run.Keeps F (Assignment.assignFixed label column row value : Run σ (Option Fraction))
  copy : ∀ left right, Run.Keeps F (Assignment.copy left right : Run σ Unit)

/-- A property of assignments that no call on a region takes away. -/
structure RegionKeeps (F : σ → Prop) : Prop extends CellKeeps F where
  enterRegion : ∀ name, Run.Keeps F (Assignment.enterRegion name : Run σ Unit)
  exitRegion : Run.Keeps F (Assignment.exitRegion : Run σ Unit)

/-- A simulation between the calls on regions of two assignments. Which assignments stand for each
other may depend on whether a region is open. -/
structure RegionSimulation (t : Tolerance) (F : σ → Prop) (S : Bool → σ → τ → Prop) : Prop where
  keeps : RegionKeeps fun s => ¬ F s
  enterRegion : ∀ {n n'}, Passes t.labels n n' →
    Run.Refines F (S false) (S true) (fun _ _ => True) (Assignment.enterRegion n)
      (Assignment.enterRegion n')
  exitRegion : Run.Refines F (S true) (S false) (fun _ _ => True) Assignment.exitRegion
    Assignment.exitRegion
  nameColumn : ∀ {l l'}, Passes t.labels l l' → ∀ column,
    Run.Refines F (S true) (S true) (fun _ _ => True) (Assignment.nameColumn l column)
      (Assignment.nameColumn l' column)
  enableSelector : ∀ {l l'}, Passes t.labels l l' → ∀ selector row,
    Run.Refines F (S true) (S true) (fun _ _ => True) (Assignment.enableSelector l selector row)
      (Assignment.enableSelector l' selector row)
  queryAdvice : ∀ column row,
    Run.Refines F (S true) (S true) (Passes t.answers) (Assignment.queryAdvice column row)
      (Assignment.queryAdvice column row)
  queryFixed : ∀ column row,
    Run.Refines F (S true) (S true) (Passes t.answers) (Assignment.queryFixed column row)
      (Assignment.queryFixed column row)
  queryInput : ∀ column row,
    Run.Refines F (S true) (S true) (Passes t.answers) (Assignment.queryInput column row)
      (Assignment.queryInput column row)
  assignAdvice : ∀ {l l'}, Passes t.labels l l' → ∀ column row {v v'}, Passes t.advice v v' →
    Run.Refines F (S true) (S true) (Passes t.answers) (Assignment.assignAdvice l column row v)
      (Assignment.assignAdvice l' column row v')
  assignFixed : ∀ opened {l l'}, Passes t.labels l l' → ∀ column row value,
    Run.Refines F (S opened) (S opened) Eq (Assignment.assignFixed l column row value)
      (Assignment.assignFixed l' column row value)
  copy : ∀ opened left right,
    Run.Refines F (S opened) (S opened) (fun _ _ => True) (Assignment.copy left right)
      (Assignment.copy left right)

/-! ## Keeping a property -/

namespace CellKeeps

variable (h : CellKeeps F)

include h

/-- A call of a routine makes calls on the target and collects constants. -/
theorem writeCall (starts : Array Nat) (region : Nat) (c : RegionCall) :
    Run.Keeps (OnTarget F) (writeCall starts region c : Run (Desk σ Requests) c.Reply) := by
  cases c with
  | enableSelector label selector offset =>
    exact Desk.keeps_onTarget (h.enableSelector label selector _)
  | nameColumn label column => exact Desk.keeps_onTarget (h.nameColumn label column)
  | queryAdvice column offset => exact Desk.keeps_onTarget (h.queryAdvice column _)
  | queryFixed column offset => exact Desk.keeps_onTarget (h.queryFixed column _)
  | assignAdvice label column offset value =>
    refine Run.Keeps.bind (Desk.keeps_onTarget (h.assignAdvice label column _ value)) fun v => ?_
    exact Run.Keeps.pure _
  | assignFixed label column offset value =>
    refine Run.Keeps.bind (Desk.keeps_onTarget (h.assignFixed label column _ value)) fun v => ?_
    exact Run.Keeps.pure _
  | assignConstant label column offset constant =>
    refine Run.Keeps.bind (Desk.keeps_onTarget (h.assignAdvice label column _ _)) fun _ => ?_
    refine Run.Keeps.bind (Desk.keeps_modifyKept _) fun _ => ?_
    exact Run.Keeps.pure _
  -- the input is read, the cell written, and the two are joined
  | assignInput label input row column offset =>
    refine Run.Keeps.bind (Desk.keeps_onTarget (h.queryInput input row)) fun value => ?_
    refine Run.Keeps.bind (Desk.keeps_onTarget (h.assignAdvice label column _ _)) fun _ => ?_
    refine Run.Keeps.bind (Desk.keeps_onTarget (h.copy _ _)) fun _ => ?_
    exact Run.Keeps.pure _
  | constrainConstant cell constant => exact Desk.keeps_modifyKept _
  | constrainEqual left right =>
    -- both cells are located before anything is joined
    refine Run.Keeps.bind (Run.Keeps.ofExcept (positionOf starts right)) fun r => ?_
    refine Run.Keeps.bind (Run.Keeps.ofExcept (positionOf starts left)) fun l => ?_
    exact Desk.keeps_onTarget (h.copy l r)
  | globalRow offset => exact Run.Keeps.pure _

theorem announcedCall (starts : Array Nat) (region : Nat) (c : RegionCall) :
    Run.Keeps (OnTarget F)
      (announcedCall starts region c : Run (Desk σ Requests) c.Reply) := by
  refine c.keeps_announce.bind fun _ => ?_
  refine (h.writeCall starts region c).bind fun reply => ?_
  exact (c.keeps_acknowledge reply).bind fun _ => Run.Keeps.pure _

end CellKeeps

namespace RegionKeeps

/-- No call leaves the set of all states. -/
theorem not_anywhere : RegionKeeps fun s : σ => ¬ Run.Anywhere s where
  nameColumn _ _ := Run.Keeps.not_anywhere
  enableSelector _ _ _ := Run.Keeps.not_anywhere
  queryAdvice _ _ := Run.Keeps.not_anywhere
  queryFixed _ _ := Run.Keeps.not_anywhere
  queryInput _ _ := Run.Keeps.not_anywhere
  assignAdvice _ _ _ _ := Run.Keeps.not_anywhere
  assignFixed _ _ _ _ := Run.Keeps.not_anywhere
  copy _ _ := Run.Keeps.not_anywhere
  enterRegion _ := Run.Keeps.not_anywhere
  exitRegion := Run.Keeps.not_anywhere

variable (h : RegionKeeps F)

include h

theorem writeRegion (starts : Array Nat) (region : Nat) (name : String) (routine : Routine α) :
    Run.Keeps F (writeRegion starts region name routine : Run σ (α × Requests)) := by
  have hbody := (Run.Keeps.emit (P := OnTarget F) (.pass region .writing)).bind fun _ =>
    Program.keeps_run (h.announcedCall starts region) routine
  have hwithin := Desk.keeps_withinRegion (h.enterRegion name) h.exitRegion hbody
  exact Run.Keeps.zoom fun s hs =>
    (hwithin.bind fun _ => Desk.keeps_getKept.bind fun _ => Run.Keeps.pure _) ⟨s, #[]⟩ hs

end RegionKeeps

/-! ## Calls of routines -/

/-- Are the results of two written regions alike? They must ask for the same constants. -/
def WrittenAlike (A : α → β → Prop) (a : α × Requests) (b : β × Requests) : Prop :=
  A a.1 b.1 ∧ a.2 = b.2

namespace RegionSimulation

variable {t : Tolerance} {F : σ → Prop} {S : Bool → σ → τ → Prop} (h : RegionSimulation t F S)

include h

/-- Like calls of routines are matched, and ask for the same constants. -/
theorem writeCall (starts : Array Nat) (region : Nat) {c d : RegionCall}
    (hcd : RegionCall.Alike t c d) :
    Run.Refines (OnTarget F) (Rel (S true) (Eq (α := Requests))) (Rel (S true) Eq)
      (RegionCall.ReplyAlike t c d) (writeCall starts region c) (writeCall starts region d) := by
  cases hcd with
  | enableSelector hl selector offset =>
    exact Desk.refines_onTarget (h.enableSelector hl selector _)
  | nameColumn hl column => exact Desk.refines_onTarget (h.nameColumn hl column)
  | queryAdvice column offset => exact Desk.refines_onTarget (h.queryAdvice column _)
  | queryFixed column offset => exact Desk.refines_onTarget (h.queryFixed column _)
  | assignAdvice hl column offset hv =>
    refine (Desk.refines_onTarget (h.assignAdvice hl column _ hv)).bind
      (fun _ => Run.Keeps.pure _) fun v v' hvv => ?_
    exact Run.Refines.pure ⟨rfl, hvv⟩
  | assignFixed hl column offset v =>
    refine (Desk.refines_onTarget (h.assignFixed true hl column _ v)).bind
      (fun _ => Run.Keeps.pure _) fun v v' hvv => ?_
    subst hvv
    exact Run.Refines.pure rfl
  -- the request for the constant is kept aside, the same on both sides
  | assignConstant hl column offset constant =>
    refine (Desk.refines_onTarget (h.assignAdvice hl column _ (.refl _))).bind
      (fun _ => (Desk.keeps_modifyKept (F := fun s => ¬ F s) _).bind fun _ => Run.Keeps.pure _)
      fun _ _ _ => ?_
    refine (Desk.refines_modifyKept fun x y hxy => by rw [hxy]).bind
      (fun _ => Run.Keeps.pure _) fun _ _ _ => ?_
    exact Run.Refines.pure rfl
  | assignInput hl input row column offset =>
    have hcopy := Desk.keeps_onTarget (κ := Requests)
      (h.keeps.copy ⟨.advice column, writeCall.row starts region offset⟩ ⟨.input input, row⟩)
    refine (Desk.refines_onTarget (h.queryInput input row)).bind (fun _ => ?_) fun x y hxy => ?_
    · refine (Desk.keeps_onTarget (h.keeps.assignAdvice _ column _ _)).bind fun _ => ?_
      exact hcopy.bind fun _ => Run.Keeps.pure _
    · have hvalue := hxy.map (·.map Fraction.whole)
      -- answers that are alike make producers that are alike
      have hproducer := (hvalue.map Producer.ofOption).imp t.advice_of_answers
      refine (Desk.refines_onTarget (h.assignAdvice hl column _ hproducer)).bind
        (fun _ => hcopy.bind fun _ => Run.Keeps.pure _) fun _ _ _ => ?_
      refine (Desk.refines_onTarget (h.copy true _ _)).bind
        (fun _ => Run.Keeps.pure _) fun _ _ _ => ?_
      exact Run.Refines.pure ⟨rfl, hvalue⟩
  | constrainConstant cell constant =>
    exact Desk.refines_modifyKept fun x y hxy => by rw [hxy]
  | constrainEqual left right =>
    -- where a cell lies depends on the starts alone, which both sides share
    have hplace : ∀ cell, Run.Refines (OnTarget F) (Rel (S true) (Eq (α := Requests)))
        (Rel (S true) Eq) Eq (Run.ofExcept (positionOf starts cell))
        (Run.ofExcept (positionOf starts cell)) := by
      intro cell
      exact Run.Refines.ofExcept fun a ha => ⟨a, ha, rfl⟩
    refine (hplace right).bind (fun r => ?_) fun r r' hr => ?_
    · exact (Run.Keeps.ofExcept _).bind fun l => Desk.keeps_onTarget (h.keeps.copy l r)
    · subst hr
      refine (hplace left).bind (fun l => Desk.keeps_onTarget (h.keeps.copy l r)) fun l l' hl => ?_
      subst hl
      exact Desk.refines_onTarget (h.copy true l r)
  | globalRow offset => exact Run.Refines.pure rfl

theorem announcedCall (starts : Array Nat) (region : Nat) {c d : RegionCall}
    (hcd : RegionCall.Alike t c d) :
    Run.Refines (OnTarget F) (Rel (S true) (Eq (α := Requests))) (Rel (S true) Eq)
      (RegionCall.ReplyAlike t c d) (CircuitLayout.announcedCall starts region c)
      (CircuitLayout.announcedCall starts region d) := by
  have hkeepRest : ∀ reply : c.Reply, Run.Keeps (fun x => ¬ OnTarget F x) (do
      c.acknowledge reply
      return reply : Run (Desk σ Requests) c.Reply) :=
    fun reply => (c.keeps_acknowledge reply).bind fun _ => Run.Keeps.pure _
  refine (RegionCall.refines_announce c d).bind (fun _ => ?_) fun _ _ _ => ?_
  · exact (h.keeps.writeCall starts region c).bind hkeepRest
  · refine (h.writeCall starts region hcd).bind hkeepRest fun reply reply' hreply => ?_
    exact (RegionCall.refines_acknowledge reply reply').bind (fun _ => Run.Keeps.pure _)
      fun _ _ _ => Run.Refines.pure hreply

/-- Like routines, written as one region on assignments that stand for each other, give like
results and ask for the same constants. -/
theorem writeRegion (starts : Array Nat) (region : Nat) {name name' : String}
    (hname : Passes t.labels name name') {A : α → β → Prop} {p : Routine α} {q : Routine β}
    (hpq : Routine.Alike t A p q) :
    Run.Refines F (S false) (S false) (WrittenAlike A)
      (writeRegion starts region name p) (writeRegion starts region name' q) := by
  have hkeepCall := h.keeps.announcedCall starts region
  -- a state that is ruled out stays ruled out through the body
  have hkeepBody : Run.Keeps (fun d => ¬ OnTarget F d) (do
      Run.emit (.pass region .writing)
      p.run (CircuitLayout.announcedCall starts region) : Run (Desk σ Requests) α) :=
    (Run.Keeps.emit _).bind fun _ => Program.keeps_run hkeepCall p
  have hbody := (Run.Refines.emit (.pass region .writing) (.pass region .writing)).bind
    (fun _ => Program.keeps_run hkeepCall p) fun _ _ _ =>
      Program.refines_run hkeepCall (fun _ _ hcd => h.announcedCall starts region hcd) hpq
  have hwithin := Desk.refines_withinRegion (h.enterRegion hname) h.exitRegion h.keeps.exitRegion
    hkeepBody hbody
  have hkeepRest : Run.Keeps (fun d => ¬ OnTarget F d) (getKept : Run (Desk σ Requests) Requests) :=
    Desk.keeps_getKept (F := fun s => ¬ F s)
  -- the requests are read once the region is closed
  have hall := hwithin.bind (fun _ => hkeepRest.bind fun _ => Run.Keeps.pure _)
    fun a b hab => Desk.refines_getKept.bind (fun _ => Run.Keeps.pure _) fun x y hxy =>
      Run.Refines.pure (R := WrittenAlike A) (a := (a, x)) (b := (b, y)) ⟨hab, hxy⟩
  -- the desk of the region begins without requests on both sides
  intro s u a s' hS hends hF
  rw [CircuitLayout.writeRegion, Run.ends_zoom] at hends
  rcases hends with ⟨d, hends, rfl⟩
  rcases hall ⟨s, #[]⟩ ⟨u, #[]⟩ a d ⟨hS, rfl⟩ hends hF with ⟨b, e, hends', hR, hrel⟩
  exact ⟨b, e.target, (Run.ends_zoom ..).2 ⟨e, hends', rfl⟩, hR, hrel.1⟩

end RegionSimulation

end Simulation

end CircuitLayout
