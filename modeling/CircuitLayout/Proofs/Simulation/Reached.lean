import CircuitLayout.Proofs.Simulation.Keeps

namespace CircuitLayout

/-! # What assignments can come to

An assignment is called, forked and merged into, in any order, and any of this may fail. Main
statements: `Reached.of_keeps`, a property that everything asked of an assignment keeps holds of
whatever comes of it, and `Descends.of_familyKeeps`, the same for its forks and their forks.
-/

/-! ## Calls -/

/-- A call on an assignment that involves no other assignment. -/
inductive AssignmentCall where
  | start
  | close
  | enterRegion (name : String)
  | exitRegion
  | nameColumn (label : String) (column : Column)
  | enableSelector (label : String) (selector : Selector) (row : Nat)
  | queryAdvice (column row : Nat)
  | queryFixed (column row : Nat)
  | queryInput (column row : Nat)
  | assignAdvice (label : String) (column row : Nat) (value : Producer)
  | assignFixed (label : String) (column row : Nat) (value : Producer)
  | copy (left right : Position)
  | fillFrom (column row : Nat) (value : Option Fraction)
  | challenge (index : Nat)
  | pushScope (name : String)
  | popScope (name : Option String)

namespace AssignmentCall

/-- The answer to a call on an assignment. -/
def Reply : AssignmentCall → Type
  | start | close | enterRegion .. | exitRegion | nameColumn .. | enableSelector .. | copy ..
  | fillFrom .. | pushScope .. | popScope .. => Unit
  | queryAdvice .. | queryFixed .. => Goldilocks
  | queryInput .. | challenge .. => Option Goldilocks
  | assignAdvice .. | assignFixed .. => Option Fraction

variable {σ : Type} [Assignment σ]

/-- What a call does. -/
def perform : (c : AssignmentCall) → Run σ c.Reply
  | start => Assignment.start
  | close => Assignment.close
  | enterRegion name => Assignment.enterRegion name
  | exitRegion => Assignment.exitRegion
  | nameColumn label column => Assignment.nameColumn label column
  | enableSelector label selector row => Assignment.enableSelector label selector row
  | queryAdvice column row => Assignment.queryAdvice column row
  | queryFixed column row => Assignment.queryFixed column row
  | queryInput column row => Assignment.queryInput column row
  | assignAdvice label column row value => Assignment.assignAdvice label column row value
  | assignFixed label column row value => Assignment.assignFixed label column row value
  | copy left right => Assignment.copy left right
  | fillFrom column row value => Assignment.fillFrom column row value
  | challenge index => Assignment.challenge index
  | pushScope name => Assignment.pushScope name
  | popScope name => Assignment.popScope name

end AssignmentCall

variable {σ : Type} [Assignment σ] {P : σ → Prop}

/-- What is kept inside regions and by all other calls is kept by every call. -/
theorem AssignmentCall.keeps_perform (hregion : RegionKeeps P) (hcall : CallKeeps P)
    (c : AssignmentCall) : Run.Keeps P (c.perform : Run σ c.Reply) := by
  cases c with
  | start => exact hcall.start
  | close => exact hcall.close
  | enterRegion name => exact hregion.enterRegion name
  | exitRegion => exact hregion.exitRegion
  | nameColumn label column => exact hcall.nameColumn label column
  | enableSelector label selector row => exact hcall.enableSelector label selector row
  | queryAdvice column row => exact hcall.queryAdvice column row
  | queryFixed column row => exact hcall.queryFixed column row
  | queryInput column row => exact hcall.queryInput column row
  | assignAdvice label column row value => exact hcall.assignAdvice label column row value
  | assignFixed label column row value => exact hcall.assignFixed label column row value
  | copy left right => exact hcall.copy left right
  | fillFrom column row value => exact hcall.fillFrom column row value
  | challenge index => exact hcall.challenge index
  | pushScope name => exact hcall.pushScope name
  | popScope name => exact hcall.popScope name

/-! ## Reached assignments -/

mutual

/-- What comes of an assignment by calls, forks, and merges of its own forks, whether they succeed
or fail. The forks may be merged in any order, not all of them need be, and whatever may have been
done to them. -/
inductive Reached : σ → σ → Prop where
  | refl (a : σ) : Reached a a
  | call {a b : σ} (h : Reached a b) (c : AssignmentCall) : Reached a (c.perform b).state
  | fork {a b : σ} (h : Reached a b) (ranges : List RowSpan) :
      Reached a ((Assignment.fork ranges : Run σ (List σ)) b).state
  | merge {a b : σ} {forks : List σ} (h : Reached a b) (hforks : ∀ f ∈ forks, Forked a f) :
      Reached a ((Assignment.merge (forks.map .fork) : Run σ Unit) b).state

/-- What comes of a fork of an assignment, or of a fork of what comes of that assignment. -/
inductive Forked : σ → σ → Prop where
  | fork {a b c f g : σ} {ranges : List RowSpan} {forks : List σ} (h : Reached a b)
      (hforks : (Assignment.fork ranges : Run σ (List σ)).Ends b forks c) (hf : f ∈ forks)
      (hg : Reached f g) : Forked a g

end

/-- What comes of an assignment, of its forks, of their forks, and so on. -/
inductive Descends (a : σ) : σ → Prop where
  | reached {b : σ} (h : Reached a b) : Descends a b
  | forked {b f : σ} (h : Descends a b) (hf : Forked b f) : Descends a f

/-- What is left of an assignment after some calls, whether they succeed or fail. -/
def AssignmentCall.performAll (calls : List AssignmentCall) (a : σ) : σ :=
  calls.foldl (fun b c => (c.perform b).state) a

theorem Reached.performAll {a b : σ} (h : Reached a b) (calls : List AssignmentCall) :
    Reached a (AssignmentCall.performAll calls b) := by
  induction calls generalizing b with
  | nil => exact h
  | cons c calls ih => exact ih (h.call c)

mutual

/-- What comes of what comes of an assignment comes of the assignment. -/
theorem Reached.trans {a b c : σ} (h : Reached a b) : Reached b c → Reached a c
  | .refl _ => h
  | .call hc c => .call (h.trans hc) c
  | .fork hc ranges => .fork (h.trans hc) ranges
  | .merge hc hforks => .merge (h.trans hc) fun f hf => (hforks f hf).of_reached h

theorem Forked.of_reached {a b f : σ} (h : Reached a b) : Forked b f → Forked a f
  | .fork hb hforks hf hg => .fork (h.trans hb) hforks hf hg

end

/-- What everything that is asked of an assignment keeps holds of all that comes of it. -/
theorem Reached.of_keeps {a b : σ} (hkeeps : LayoutKeeps P) : Reached a b → P a → P b
  | refl _, ha => ha
  | call h c, ha => c.keeps_perform hkeeps.toRegionKeeps hkeeps.toCallKeeps _ (h.of_keeps hkeeps ha)
  | fork h ranges, ha => hkeeps.fork ranges _ (h.of_keeps hkeeps ha)
  | merge h _, ha => hkeeps.merge _ _ (h.of_keeps hkeeps ha)

/-! ## Families of forks -/

/-- A property of assignments over some rows that nothing takes away which is asked of them, if the
forks that are merged have it, each over its rows; forks have it from the beginning. -/
structure FamilyKeeps (I : RowSpan → σ → Prop) : Prop where
  call : ∀ rows (c : AssignmentCall), Run.Keeps (I rows) (c.perform : Run σ c.Reply)
  fork : ∀ rows ranges, Run.Keeps (I rows) (Assignment.fork ranges : Run σ (List σ))
  forked : ∀ {rows : RowSpan} {ranges : List RowSpan} {b c : σ} {forks : List σ}, I rows b →
    (Assignment.fork ranges : Run σ (List σ)).Ends b forks c → ∀ f ∈ forks, ∃ range, I range f
  merge : ∀ {rows : RowSpan} {b : σ} {forks : List σ}, I rows b →
    (∀ f ∈ forks, ∃ range, I range f) →
      I rows ((Assignment.merge (forks.map .fork) : Run σ Unit) b).state

variable {I : RowSpan → σ → Prop}

mutual

theorem Reached.of_familyKeeps (h : FamilyKeeps I) {rows : RowSpan} {a b : σ} :
    Reached a b → I rows a → I rows b
  | .refl _, ha => ha
  | .call hb c, ha => h.call rows c _ (hb.of_familyKeeps h ha)
  | .fork hb ranges, ha => h.fork rows ranges _ (hb.of_familyKeeps h ha)
  | .merge hb hforks, ha =>
    h.merge (hb.of_familyKeeps h ha) fun f hf => (hforks f hf).of_familyKeeps h ha

theorem Forked.of_familyKeeps (h : FamilyKeeps I) {rows : RowSpan} {a f : σ} :
    Forked a f → I rows a → ∃ range, I range f
  | .fork hb hforks hf hg, ha => by
    obtain ⟨range, hrange⟩ := h.forked (hb.of_familyKeeps h ha) hforks _ hf
    exact ⟨range, hg.of_familyKeeps h hrange⟩

end

/-- What a family of forks keeps holds of all its members, if it does of the root. -/
theorem Descends.of_familyKeeps (h : FamilyKeeps I) {rows : RowSpan} {a b : σ} (hb : Descends a b)
    (ha : I rows a) :
    ∃ range, I range b := by
  induction hb with
  | reached hb => exact ⟨rows, hb.of_familyKeeps h ha⟩
  | forked _ hf ih =>
    obtain ⟨range, hrange⟩ := ih
    exact hf.of_familyKeeps h hrange

end CircuitLayout
