import CircuitLayout.Proofs.Simulation.Region

namespace CircuitLayout

/-! # Simulation of whole layouts

A simulation of the calls on regions is carried on to the planner: to measuring, to constants, to
tables and to batches. Main statements: `LayoutSimulation.perform`, by which like calls of a planner
are matched, and `LayoutSimulation.layOut`, by which like circuits are laid out alike.
-/

open Tolerance (Passes)
open Run (Anywhere)

/-- Are two planners alike, given which settings are? -/
structure Planner.Alike (Q : Settings → Settings → Prop) (p q : Planner) : Prop where
  constants : p.constants = q.constants
  settings : Q p.settings q.settings
  starts : p.starts = q.starts
  frontiers : p.frontiers = q.frontiers
  sealedTables : p.sealedTables = q.sealedTables

/-- A simulation between all that a planner asks of two assignments. Outside of regions every
success has to be matched. How a batch is matched is left open here. -/
structure LayoutSimulation {σ τ : Type} [Assignment σ] [Assignment τ] (t : Tolerance)
    (Q : Settings → Settings → Prop) (S : Bool → σ → τ → Prop) : Prop
    extends RegionSimulation t Anywhere S where
  settings : ∀ s s', Q s s' → Passes t.settings s s'
  start : Run.Refines Anywhere (S false) (S false) (fun _ _ => True) Assignment.start
    Assignment.start
  close : Run.Refines Anywhere (S false) (S false) (fun _ _ => True) Assignment.close
    Assignment.close
  fillFrom : ∀ column row value,
    Run.Refines Anywhere (S false) (S false) (fun _ _ => True)
      (Assignment.fillFrom column row value) (Assignment.fillFrom column row value)
  challenge : ∀ index,
    Run.Refines Anywhere (S false) (S false) (Passes t.answers) (Assignment.challenge index)
      (Assignment.challenge index)
  pushScope : ∀ {n n'}, Passes t.labels n n' →
    Run.Refines Anywhere (S false) (S false) (fun _ _ => True) (Assignment.pushScope n)
      (Assignment.pushScope n')
  popScope : ∀ {n n'}, Passes t.labels n n' →
    Run.Refines Anywhere (S false) (S false) (fun _ _ => True) (Assignment.popScope n)
      (Assignment.popScope n')
  batch : ∀ {α β : Type} {A : α → β → Prop} (d : Layout σ) (e : Layout τ),
    Desk.Rel (S false) (Planner.Alike Q) d e →
    ∀ {n n'}, Passes t.labels n n' → ∀ (starts : Array Nat) (first : Nat) (ranges : List RowSpan)
      {rs : List (Pass → Routine α)} {rs' : List (Pass → Routine β)},
      ranges.length = rs.length →
      List.Forall₂ (fun r r' => ∀ pass, Routine.Alike t A (r pass) (r' pass)) rs rs' →
      Run.Refines Anywhere (fun x y => x = d ∧ y = e) (Desk.Rel (S false) (Planner.Alike Q))
        (List.Forall₂ (WrittenAlike A))
        (Planner.writeBatch (d.kept.settings.parallel && Assignment.canFork d.target) n starts first
          ranges rs)
        (Planner.writeBatch (e.kept.settings.parallel && Assignment.canFork e.target) n' starts
          first ranges rs')

open Desk (Rel OnTarget onTarget getKept modifyKept withinRegion)

variable {σ τ α β ρ : Type} {t : Tolerance} {Q : Settings → Settings → Prop}

/-! ## Measuring -/

namespace Footprint

/-- Like calls are measured alike. -/
theorem refines_observe {c d : RegionCall} (hcd : RegionCall.Alike t c d) :
    Run.Refines Anywhere Eq Eq (RegionCall.ReplyAlike t c d) (observe c) (observe d) := by
  -- what a call adds to a region's shape does not depend on the value it carries
  have hcell : ∀ column offset value, Run.Refines Anywhere Eq Eq Eq
      (touchCell column offset value) (touchCell column offset value) := by
    rintro column offset value f _ a f' rfl h -
    exact ⟨a, f', h, rfl, rfl⟩
  cases hcd with
  | enableSelector hl selector offset =>
    exact Run.Refines.modify fun f g hfg => by rw [hfg]
  | nameColumn hl column => exact Run.Refines.pure trivial
  | queryAdvice column offset => exact Run.Refines.pure (.refl _)
  | queryFixed column offset => exact Run.Refines.pure (.refl _)
  | assignAdvice hl column offset hv =>
    exact (hcell _ offset none).mono (fun a b hab => ⟨congrArg _ hab, .inr (congrArg _ hab)⟩)
      fun _ _ h => h
  | assignFixed hl column offset v => exact hcell _ offset none
  | assignConstant hl column offset constant => exact hcell _ offset _
  | assignInput hl input row column offset =>
    exact (hcell _ offset none).mono (fun a b hab => ⟨congrArg _ hab, .inr (congrArg _ hab)⟩)
      fun _ _ h => h
  | constrainConstant cell constant => exact Run.Refines.pure trivial
  | constrainEqual left right => exact Run.Refines.pure trivial
  | globalRow offset => exact Run.Refines.pure rfl

/-- Like routines have the same footprint. -/
theorem refines_measure {S : σ → τ → Prop} (region : Nat) {A : α → β → Prop} {p : Routine α}
    {q : Routine β} (hpq : Routine.Alike t A p q) :
    Run.Refines Anywhere S S Eq (measure region p : Run σ Footprint) (measure region q) := by
  have hcall : ∀ c d, (regionKinship t).call c d → Run.Refines Anywhere Eq Eq
      (RegionCall.ReplyAlike t c d) (do c.announce; observe c) (do d.announce; observe d) :=
    fun c d hcd => (RegionCall.refines_announce c d).andThen fun _ _ _ => refines_observe hcd
  have hrun := Program.refines_run (fun _ => Run.Keeps.not_anywhere) hcall hpq
  intro s u f s' hS h _
  simp only [measure, Run.ends_map, Prod.exists, Run.ends_within] at h
  rcases h with ⟨a, g, ⟨h, rfl⟩, rfl⟩
  rcases hrun (blank region) (blank region) a _ rfl h trivial with ⟨b, g', h', -, rfl⟩
  refine ⟨_, u, ?_, rfl, hS⟩
  simp only [measure, Run.ends_map, Prod.exists, Run.ends_within]
  exact ⟨b, _, ⟨h', trivial⟩, rfl⟩

end Footprint

/-! ## Placing and constants -/

/-- The relation between the desks of two layouts. -/
abbrev Layout.Rel (Q : Settings → Settings → Prop) (S : Bool → σ → τ → Prop) :
    Layout σ → Layout τ → Prop :=
  Desk.Rel (S false) (Planner.Alike Q)

/-- A run on the state at hand, which it may look at first. -/
theorem Run.Refines.withState {F : σ → Prop} {S T : σ → τ → Prop} {R : α → β → Prop}
    {f : σ → Run σ α} {g : τ → Run τ β}
    (h : ∀ s u, S s u → Run.Refines F (fun x y => x = s ∧ y = u) T R (f s) (g u)) :
    Run.Refines F S T R (Run.get >>= f) (Run.get >>= g) := by
  intro s u a s' hS hends hF
  simp only [Run.ends_bind, Run.ends_get] at hends
  rcases hends with ⟨_, _, ⟨rfl, rfl⟩, hends⟩
  rcases h _ u hS _ u a s' ⟨rfl, rfl⟩ hends hF with ⟨b, u', hends', hR, hT⟩
  exact ⟨b, u', (Run.ends_bind ..).2 ⟨u, u, by simp, hends'⟩, hR, hT⟩

namespace Planner

variable {S : Bool → σ → τ → Prop}

theorem refines_place (name name' : String) (shape : Footprint) :
    Run.Refines Anywhere (Layout.Rel Q S) (Layout.Rel Q S) (fun _ _ => True) (place name shape)
      (place name' shape) := by
  refine Desk.refines_getKept.andThen fun p q hpq => ?_
  refine (Run.Refines.emitAll _ _).andThen fun _ _ _ => ?_
  rw [hpq.frontiers]
  refine (Desk.refines_modifyKept fun x y hxy => ?_).andThen fun _ _ _ => Run.Refines.emit _ _
  exact ⟨hxy.constants, hxy.settings, by rw [hxy.starts], rfl, hxy.sealedTables⟩

/-- Like routines are measured alike and put at one place. -/
theorem refines_measureAndPlace (name name' : String) {A : α → β → Prop} {r : Routine α}
    {r' : Routine β} (hr : Routine.Alike t A r r') :
    Run.Refines Anywhere (Layout.Rel Q S) (Layout.Rel Q S) Eq (measureAndPlace name r)
      (measureAndPlace name' r') := by
  refine Desk.refines_getKept.andThen fun p q hpq => ?_
  refine (Run.Refines.emit _ _).andThen fun _ _ _ => ?_
  rw [hpq.starts]
  refine (Footprint.refines_measure _ hr).andThen fun shape _ hshape => ?_
  subst hshape
  refine (refines_place name name' shape).andThen fun _ _ _ => ?_
  refine Desk.refines_getKept.andThen fun p q hpq => ?_
  rw [hpq.starts]
  exact Run.Refines.pure rfl

end Planner

/-! ## Constants, regions and tables -/

/-- Lists that are matched one by one are so with their numbers. -/
theorem forall₂_zipIdx {P : α → β → Prop} {xs : List α} {ys : List β} (h : List.Forall₂ P xs ys)
    (first : Nat) :
    List.Forall₂ (fun x y => P x.1 y.1 ∧ x.2 = y.2) (xs.zipIdx first) (ys.zipIdx first) := by
  induction h generalizing first with
  | nil => exact .nil
  | cons hxy _ ih => exact .cons ⟨hxy, rfl⟩ (ih (first + 1))

/-- Two pairs of lists that are matched one by one are so when each pair is zipped. -/
theorem forall₂_zip {γ δ : Type} {P : α → β → Prop} {P' : γ → δ → Prop} {xs : List α} {ys : List β}
    {us : List γ} {vs : List δ} (h : List.Forall₂ P xs ys) (h' : List.Forall₂ P' us vs) :
    List.Forall₂ (fun x y => P x.1 y.1 ∧ P' x.2 y.2) (xs.zip us) (ys.zip vs) := by
  induction h generalizing us vs with
  | nil => exact .nil
  | cons hxy _ ih =>
    cases h' with
    | nil => exact .nil
    | cons huv huvs => exact .cons ⟨hxy, huv⟩ (ih huvs)

/-- A step for every fork, with its number, where the forks stand for each other one by one. -/
theorem Run.Refines.each_fork {S P : σ → τ → Prop} {R : α → β → Prop} {f : Nat → Offer σ → Run σ α}
    {g : Nat → Offer τ → Run τ β} {fs : List σ} {gs : List τ} (hfgs : List.Forall₂ P fs gs)
    (hstep : ∀ i x y, P x y → Run.Refines Anywhere S S R (f i (.fork x)) (g i (.fork y))) :
    Run.Refines Anywhere S S (List.Forall₂ R)
      (Run.each (fun x => f x.2 x.1) (fs.map Offer.fork).zipIdx)
      (Run.each (fun y => g y.2 y.1) (gs.map Offer.fork).zipIdx) := by
  have hoffers : List.Forall₂ (fun x y => ∃ f g, P f g ∧ x = .fork f ∧ y = .fork g)
      (fs.map Offer.fork) (gs.map Offer.fork) :=
    List.forall₂_map_left_iff.2 (List.forall₂_map_right_iff.2
      (hfgs.imp fun f g h => ⟨f, g, h, rfl, rfl⟩))
  refine Run.Refines.each (forall₂_zipIdx hoffers 0) (fun _ => Run.Keeps.not_anywhere) ?_
  rintro ⟨_, i⟩ ⟨_, j⟩ ⟨⟨f, g, hfg, rfl, rfl⟩, hij⟩
  obtain rfl : i = j := hij
  exact hstep i f g hfg

namespace RegionSimulation

variable [Assignment σ] [Assignment τ] {S : Bool → σ → τ → Prop} (h : RegionSimulation t Anywhere S)

include h

/-- A constant is written to one row and copied to one cell. -/
theorem assignConstant (column : Nat) (request : Fraction × Cell) :
    Run.Refines Anywhere (Layout.Rel Q S) (Layout.Rel Q S) (fun _ _ => True)
      (Planner.assignConstant column request) (Planner.assignConstant column request) := by
  refine Desk.refines_getKept.andThen fun p q hpq => ?_
  rw [hpq.frontiers, hpq.starts]
  refine (Run.Refines.emit _ _).andThen fun _ _ _ => ?_
  refine (Desk.refines_onTarget (h.assignFixed false (.refl _) _ _ _)).andThen fun _ _ _ => ?_
  refine (Desk.refines_onTarget (h.copy false _ _)).andThen fun _ _ _ => ?_
  refine (Desk.refines_modifyKept fun x y hxy => ?_).andThen fun _ _ _ => Run.Refines.emit _ _
  exact ⟨hxy.constants, hxy.settings, hxy.starts, by rw [hxy.frontiers], hxy.sealedTables⟩

theorem assignConstants (requests : Requests) :
    Run.Refines Anywhere (Layout.Rel Q S) (Layout.Rel Q S) (fun _ _ => True)
      (Planner.assignConstants requests : Run (Layout σ) Unit)
      (Planner.assignConstants requests) := by
  unfold Planner.assignConstants
  split
  · exact Run.Refines.pure trivial
  · refine Desk.refines_getKept.andThen fun p q hpq => ?_
    rw [hpq.constants]
    split
    · exact Run.Refines.raise _ _
    · next column _ _ =>
      have heach := Run.Refines.each_same requests.toList (fun _ => Run.Keeps.not_anywhere)
        (h.assignConstant (Q := Q) column)
      exact heach.andThen fun _ _ _ => Run.Refines.pure trivial

end RegionSimulation

namespace LayoutSimulation

variable [Assignment σ] [Assignment τ] {S : Bool → σ → τ → Prop} (h : LayoutSimulation t Q S)

include h

/-- A region is measured, placed and written alike, and its constants are. -/
theorem assignRegion {n n' : String} (hn : Passes t.labels n n') {A : α → β → Prop}
    {r : Pass → Routine α} {r' : Pass → Routine β} (hr : ∀ pass, Routine.Alike t A (r pass) (r' pass)) :
    Run.Refines Anywhere (Layout.Rel Q S) (Layout.Rel Q S) A (Planner.assignRegion n r)
      (Planner.assignRegion n' r') := by
  refine Desk.refines_getKept.andThen fun p q hpq => ?_
  refine (Planner.refines_measureAndPlace n n' (hr .measuring)).andThen fun _ _ _ => ?_
  refine Desk.refines_getKept.andThen fun p' q' hpq' => ?_
  rw [hpq.starts, hpq'.starts]
  refine (Desk.refines_onTarget (h.writeRegion _ _ hn (hr .writing))).andThen fun a b hab => ?_
  rcases a with ⟨a, requests⟩
  rcases b with ⟨b, requests'⟩
  rcases hab with ⟨hab, rfl⟩
  exact (h.assignConstants requests).andThen fun _ _ _ => Run.Refines.pure hab

/-- The regions of a batch are measured and placed alike, and written as the simulation says. -/
theorem assignRegions {n n' : String} (hn : Passes t.labels n n') {A : α → β → Prop}
    {rs : List (Pass → Routine α)} {rs' : List (Pass → Routine β)}
    (hr : List.Forall₂ (fun r r' => ∀ pass, Routine.Alike t A (r pass) (r' pass)) rs rs') :
    Run.Refines Anywhere (Layout.Rel Q S) (Layout.Rel Q S) (List.Forall₂ A)
      (Planner.assignRegions n rs) (Planner.assignRegions n' rs') := by
  have hnumbered := forall₂_zipIdx hr 0
  refine Desk.refines_getKept.andThen fun p q hpq => ?_
  rw [hpq.starts]
  have hranges := (Run.Refines.each hnumbered (fun _ => Run.Keeps.not_anywhere)
    fun x y hxy => Planner.refines_measureAndPlace (S := S) (Q := Q) (Planner.batchName n x.2)
      (Planner.batchName n' y.2) (hxy.1 .measuring)).and_result
        (P := fun ranges => ranges.length = rs.length) fun s ranges s' hends => by
          simpa using hends.length_each
  refine hranges.andThen fun ranges ranges' hequal => ?_
  rw [List.forall₂_eq_eq_eq] at hequal
  rcases hequal with ⟨rfl, hlength⟩
  refine Run.Refines.withState fun d e hde => ?_
  -- the batch is matched as a whole; which side uses forks is no matter here
  have hwrite := h.batch d e hde hn d.kept.starts q.starts.size ranges hlength hr
  rw [← hde.2.starts]
  refine hwrite.andThen fun written written' hwritten => ?_
  -- regions that are alike ask for the same constants, so all of them together do
  have hrequests : ∀ all, written.foldl (fun all w => all ++ w.2) all =
      written'.foldl (fun all w => all ++ w.2) all := by
    induction hwritten with
    | nil => exact fun _ => rfl
    | cons hab _ ih =>
      intro all
      rw [List.foldl_cons, List.foldl_cons, hab.2]
      exact ih _
  rw [hrequests]
  -- then the constants are placed, the same on both sides
  refine (h.assignConstants _).andThen fun _ _ _ => Run.Refines.pure ?_
  exact List.forall₂_map_left_iff.2 (List.forall₂_map_right_iff.2
    (hwritten.imp fun _ _ hab => hab.1))

/-! ## Tables -/

/-- A cell of a table is assigned alike, and the same is then known of its column. -/
theorem tableCall (sealedTables : List Nat) {c d : TableCall} (hcd : TableCall.Alike t c d) :
    Run.Refines Anywhere (Rel (S true) (Eq (α := TableColumns))) (Rel (S true) Eq)
      (fun _ _ => True) (Planner.tableCall sealedTables c) (Planner.tableCall sealedTables d) := by
  -- both sides keep the same record of the columns
  have hkept : ∀ f : TableColumns → TableColumns,
      Run.Refines Anywhere (Rel (S true) (Eq (α := TableColumns))) (Rel (S true) Eq)
        (fun _ _ => True) (modifyKept f) (modifyKept f) := by
    intro f
    exact Desk.refines_modifyKept fun x y hxy => by rw [hxy]
  cases hcd with
  | assignCell hl index row value =>
    refine (Run.Refines.refuse fun hsealed => hsealed).andThen fun _ _ _ => ?_
    refine Desk.refines_getKept.andThen fun columns _ hcolumns => ?_
    subst hcolumns
    refine (hkept _).andThen fun _ _ _ => ?_
    refine (Desk.refines_onTarget (h.assignFixed true hl index row value)).andThen
      fun v _ hv => ?_
    subst hv
    -- a second value for row 0 is refused on both sides or on neither
    split
    · exact (Run.Refines.refuse fun htwice => htwice).andThen fun _ _ _ => hkept _
    · exact hkept _

/-- Like routines of tables leave the same columns. -/
theorem writeTable {n n' : String} (hn : Passes t.labels n n') {r r' : TableRoutine}
    (hr : Program.Alike (tableKinship t) (fun _ _ => True) r r') :
    Run.Refines Anywhere (Layout.Rel Q S) (Layout.Rel Q S) Eq (Planner.writeTable n r)
      (Planner.writeTable n' r') := by
  refine Desk.refines_getKept.andThen fun p q hpq => ?_
  rw [hpq.sealedTables]
  have hbody := (Run.Refines.emit (F := OnTarget Anywhere)
    (S := Rel (S true) (Eq (α := TableColumns))) (.table n) (.table n')).andThen fun _ _ _ =>
      Program.refines_run (fun _ => Run.Keeps.not_anywhere)
        (fun _ _ hcd => h.tableCall q.sealedTables hcd) hr
  have hwithin := Desk.refines_withinRegion (h.enterRegion hn) h.exitRegion h.keeps.exitRegion
    Run.Keeps.not_anywhere hbody
  have hall := hwithin.andThen fun _ _ _ => Desk.refines_getKept
  -- the record starts empty and its last state is the reply
  refine Desk.refines_onTarget (F := Anywhere) ?_
  intro s u a s' hS hends _
  rw [Run.ends_zoom] at hends
  rcases hends with ⟨d, hends, rfl⟩
  rcases hall ⟨s, ∅⟩ ⟨u, ∅⟩ a d ⟨hS, rfl⟩ hends trivial with ⟨b, e, hends', hR, hrel⟩
  exact ⟨b, e.target, (Run.ends_zoom ..).2 ⟨e, hends', rfl⟩, hR, hrel.1⟩

theorem padColumn (height index : Nat) (c : TableColumn) :
    Run.Refines Anywhere (Layout.Rel Q S) (Layout.Rel Q S) (fun _ _ => True)
      (Planner.padColumn height index c) (Planner.padColumn height index c) := by
  unfold Planner.padColumn
  split
  · exact Run.Refines.raise _ _
  · exact Desk.refines_onTarget (h.fillFrom index height _)

/-- Like tables are written alike, and seal the same columns. -/
theorem assignTable {n n' : String} (hn : Passes t.labels n n') {r r' : TableRoutine}
    (hr : Program.Alike (tableKinship t) (fun _ _ => True) r r') :
    Run.Refines Anywhere (Layout.Rel Q S) (Layout.Rel Q S) (fun _ _ => True)
      (Planner.assignTable n r) (Planner.assignTable n' r') := by
  refine (h.writeTable hn hr).andThen fun columns _ hcolumns => ?_
  subst hcolumns
  refine (Run.Refines.refuse fun hempty => hempty).andThen fun _ _ _ => ?_
  split
  · exact Run.Refines.raise _ _
  · refine (Desk.refines_modifyKept fun x y hxy => ?_).andThen fun _ _ _ => ?_
    · exact ⟨hxy.constants, hxy.settings, hxy.starts, hxy.frontiers, by rw [hxy.sealedTables]⟩
    · have heach := Run.Refines.each_same columns.entries (fun _ => Run.Keeps.not_anywhere)
        fun x => h.padColumn columns.height x.1 x.2
      exact heach.andThen fun _ _ _ => Run.Refines.pure trivial

/-! ## Calls of planners and circuits -/

theorem constrainInput (cell : Cell) (input row : Nat) :
    Run.Refines Anywhere (Layout.Rel Q S) (Layout.Rel Q S) (fun _ _ => True)
      (Planner.constrainInput cell input row) (Planner.constrainInput cell input row) := by
  refine (Run.Refines.emit _ _).andThen fun _ _ _ => ?_
  refine Desk.refines_getKept.andThen fun p q hpq => ?_
  rw [hpq.starts]
  refine (Run.Refines.ofExcept (R := Eq) fun a ha => ⟨a, ha, rfl⟩).andThen fun position _ hp => ?_
  subst hp
  exact Desk.refines_onTarget (h.copy false _ _)

/-- Like calls of a planner are matched, with like answers. -/
theorem perform {A : ρ → ρ → Prop} {c d : LayoutCall ρ} (hcd : LayoutCall.Alike t A c d) :
    Run.Refines Anywhere (Layout.Rel Q S) (Layout.Rel Q S) (LayoutCall.ReplyAlike t A c d)
      (Planner.perform c) (Planner.perform d) := by
  cases hcd with
  | region hn hr => exact h.assignRegion hn hr
  | regions hn hr => exact h.assignRegions hn hr
  | table hn hr => exact h.assignTable hn hr
  | constrainInput cell input row => exact h.constrainInput cell input row
  | challenge index => exact Desk.refines_onTarget (h.challenge index)
  | pushScope hn => exact Desk.refines_onTarget (h.pushScope hn)
  | popScope hn => exact Desk.refines_onTarget (h.popScope hn)
  | starts => exact Desk.refines_getKept.map fun p q hpq => congrArg Array.toList hpq.starts
  | tables => exact Desk.refines_getKept.map fun p q hpq => hpq.sealedTables
  | settings => exact Desk.refines_getKept.map fun p q hpq => h.settings _ _ hpq.settings

/-- Like programs, run between the start and the end of a synthesis. -/
theorem synthesize {A : ρ → ρ → Prop} {B : α → β → Prop} {p : Program (layoutInterface ρ) α}
    {q : Program (layoutInterface ρ) β} (hpq : Program.Alike (layoutKinship t A) B p q) :
    Run.Refines Anywhere (Layout.Rel Q S) (Layout.Rel Q S) B
      (do
        onTarget Assignment.start
        let a ← p.run Planner.perform
        onTarget Assignment.close
        return a)
      (do
        onTarget Assignment.start
        let b ← q.run Planner.perform
        onTarget Assignment.close
        return b) := by
  refine (Desk.refines_onTarget h.start).andThen fun _ _ _ => ?_
  refine (Program.refines_run (fun _ => Run.Keeps.not_anywhere) (fun _ _ hcd => h.perform hcd)
    hpq).andThen fun a b hab => ?_
  exact (Desk.refines_onTarget h.close).andThen fun _ _ _ => Run.Refines.pure hab

end LayoutSimulation

end CircuitLayout
