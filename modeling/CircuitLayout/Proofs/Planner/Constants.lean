import CircuitLayout.Proofs.Planner.Boarded
import CircuitLayout.Proofs.Planner.Taken

namespace CircuitLayout

/-! # Constants that are consolidated

The constants that the steps of a layout ask for go to the first column for constants, in the order
in which they are asked for. Each gets the first row of the column that is free at the time, is copied
to its cell, and is there for good. Main statements: `Consolidated.assignConstant`, what one constant
leaves, `Consolidated.run`, what a whole program leaves, and `Circuit.constants_consolidated`.
-/

open Ledger (monitor)

variable {σ φ α ρ : Type}

/-! ## Constants -/

/-- A constant that was asked for, with the cell that is to equal it, and the row that it got. -/
structure FinishedConstant where
  value : Fraction
  cell : Cell
  row : Nat

namespace FinishedConstant

/-- What was asked for. -/
def request (c : FinishedConstant) : Fraction × Cell := (c.value, c.cell)

/-- The copy between a constant and its cell, given where the regions start. -/
def tie (column : Nat) (starts : Array Nat) (c : FinishedConstant) : Position × Position :=
  (⟨.fixed column, c.row⟩, ⟨c.cell.column, Word.add (starts.getD c.cell.region 0) c.cell.offset⟩)

section Written

variable [Inhabited φ] (board : σ → Board φ) (keep : Fraction → φ) (column : Nat)

/-- Is a constant what was written from one layout to the next: to the first free row of its column,
which is taken from then on, with a copy to its cell behind the copies that there were? -/
structure Written (d : Layout σ) (c : FinishedConstant) (d' : Layout σ) : Prop where
  row_eq : c.row = d.kept.frontiers.frontier (.column (.fixed column))
  value : (board d'.target).fixed.get column c.row = .ok (keep c.value)
  copies : (board d'.target).copies = (board d.target).copies.push (c.tie column d.kept.starts)
  kept : d'.kept =
    { d.kept with frontiers := (d.kept.frontiers.takeRow (.column (.fixed column))).2 }

/-- Were some constants written from one layout to the next, and nothing else, one after another? -/
inductive WrittenInOrder : Layout σ → List FinishedConstant → Layout σ → Prop where
  | nil (d : Layout σ) : WrittenInOrder d [] d
  | cons {d e d' : Layout σ} {c : FinishedConstant} {constants : List FinishedConstant}
      (first : Written board keep column d c e) (rest : WrittenInOrder e constants d') :
      WrittenInOrder d (c :: constants) d'

variable {board keep column} {d d' : Layout σ} {constants : List FinishedConstant}

/-- The copies of constants come behind the others, in the order of the constants. -/
theorem WrittenInOrder.copies (h : WrittenInOrder board keep column d constants d') :
    (board d'.target).copies.toList =
      (board d.target).copies.toList ++ constants.map (tie column d.kept.starts) := by
  induction h with
  | nil d => exact (List.append_nil _).symm
  | cons first rest ih =>
    rw [ih, first.copies, first.kept, Array.toList_push, List.append_assoc]
    rfl

end Written

/-- The fixed cells of constants. -/
def cells (column : Nat) (keep : Fraction → φ) (constants : List FinishedConstant) : Board.Cells φ :=
  fun i row v => i = column ∧ ∃ c ∈ constants, c.row = row ∧ keep c.value = v

theorem cells_of_mem (column : Nat) (keep : Fraction → φ) {constants : List FinishedConstant}
    {c : FinishedConstant} (hc : c ∈ constants) :
    cells column keep constants column c.row (keep c.value) := ⟨rfl, c, hc, rfl, rfl⟩

/-- One more constant has one more cell. -/
theorem cells_append {column i row : Nat} {keep : Fraction → φ} {constants : List FinishedConstant}
    {c : FinishedConstant} {v : φ} (h : cells column keep (constants ++ [c]) i row v) :
    cells column keep constants i row v ∨ i = column ∧ row = c.row ∧ v = keep c.value := by
  obtain ⟨rfl, c', hc', rfl, rfl⟩ := h
  rcases List.mem_append.1 hc' with hold | hlast
  · exact .inl (cells_of_mem i keep hold)
  · obtain rfl := List.mem_singleton.1 hlast
    exact .inr ⟨rfl, rfl, rfl⟩

end FinishedConstant

open FinishedConstant (Written WrittenInOrder cells cells_of_mem cells_append)

/-! ## Steps -/

/-- What becomes of the constants that a call of a planner asks for: the call is materialised, and
behind the copies that this makes all of them are written, in order. -/
structure LayoutCall.Finished [Assignment σ] [Inhabited φ] (board : σ → Board φ)
    (keep : Fraction → φ) (column : Nat) (d : Layout σ) (c : LayoutCall ρ)
    (constants : List FinishedConstant) : Prop where
  requests : constants.map (·.request) = c.asked d
  before : (board d.target).copies.toList <+: (board (c.materialise d).state.target).copies.toList
  written : WrittenInOrder board keep column (c.materialise d).state constants
    (Planner.perform c d).state
  copies : (board (Planner.perform c d).state.target).copies.toList =
    (board (c.materialise d).state.target).copies.toList ++
      constants.map (FinishedConstant.tie column (c.materialise d).state.kept.starts)

/-- What is known while constants are consolidated: the books are in order, the constants that were
written are where they were written, on rising rows, and these rows are taken. -/
structure Consolidated (F : σ → Prop) (rows : RowSpan) (board : σ → Board φ) (keep : Fraction → φ)
    (column : Nat) (constants : List FinishedConstant) (l : Ledger) (d : Layout σ) : Prop where
  order : InOrder .any F l d
  taken : ∀ c ∈ constants, ⟨.column (.fixed column), c.row⟩ ∈ l.taken
  holds : (board d.target).fixed.Holds (cells column keep constants) false
  inside : ∀ c ∈ constants, c.row ∈ rows
  rising : (constants.map (·.row)).Pairwise (· < ·)

namespace Consolidated

variable {F : σ → Prop} {rows : RowSpan} {board : σ → Board φ} {keep : Fraction → φ} {column : Nat}
  {constants : List FinishedConstant} {l l' : Ledger} {d d' : Layout σ} {c : FinishedConstant}

/-- The rows that constants got lie below the frontier of their column. -/
theorem below (h : Consolidated F rows board keep column constants l d) :
    ∀ c ∈ constants, c.row < d.kept.frontiers.frontier (.column (.fixed column)) :=
  fun c hc => (h.order.1.taken _ (h.taken c hc)).2.1

/-- No region claims the row of a constant, and none has written there. -/
theorem apart (h : Consolidated F rows board keep column constants l d) (hc : c ∈ constants)
    (region : Nat) : ¬ l.Claims d.kept.starts region (.column (.fixed column)) c.row ∧
      (region, ⟨.column (.fixed column), c.row⟩) ∉ l.written := by
  have hfree := (h.order.1.taken _ (h.taken c hc)).2.2
  exact ⟨hfree region, fun hwritten => hfree region (h.order.1.written _ hwritten)⟩

/-- The rows of constants are kept for them. -/
theorem keeps (h : Consolidated F rows board keep column constants l d) :
    l.Keeps fun i row => ∃ v, cells column keep constants i row v := by
  rintro i row ⟨v, rfl, c, hc, rfl, -⟩
  exact h.taken c hc

/-- Whatever happens, what is taken stays taken. -/
theorem taken_after (h : Consolidated F rows board keep column constants l d) (es : List Event) :
    ∀ c ∈ constants, ⟨.column (.fixed column), c.row⟩ ∈ ((monitor .any).after l es).taken :=
  fun c hc => h.keeps.after es column c.row ⟨_, cells_of_mem column keep hc⟩

variable [Assignment σ] (hb : Boarded F rows board keep)

include hb

/-- A step that is materialised leaves the constants that there are where they are. -/
theorem materialise (h : Consolidated F rows board keep column constants l d) {c : LayoutCall ρ}
    {w : c.Reply × Requests} (hends : c.materialise.Ends d w d')
    (hassumed : (monitor .any).Assumed l (c.materialise d).events)
    (htables : column ∉ d'.kept.sealedTables) :
    Consolidated F rows board keep column constants
      ((monitor .any).after l (c.materialise d).events) d' := by
  have haccountable : Run.Upholds (monitor .any) (InOrder .any F)
      (c.materialise : Run (Layout σ) (c.Reply × Requests)) (fun _ => InOrder .any F)
      (InOrder .any F) := hb.accountable.materialise c
  constructor
  case order => exact haccountable.of_ends h.order hends hassumed
  case taken => exact h.taken_after _
  case holds =>
    have htrusted := Monitor.assumed_trusting hassumed (haccountable l d h.order hassumed).1
    refine (hb.lasting _).materialise hb.accountable.reports hends htrusted ?_ h.keeps h.holds
    -- the column of constants is no table, so no table fills it
    rintro index hindex row ⟨v, rfl, -⟩
    exact htables hindex
  case inside => exact h.inside
  case rising => exact h.rising

variable [Inhabited φ]

/-- A constant is read where it was written. -/
theorem get (h : Consolidated F rows board keep column constants l d) (hc : c ∈ constants) :
    (board d.target).fixed.get column c.row = .ok (keep c.value) :=
  h.holds.get (cells_of_mem column keep hc) (hb.window_eq h.order.2 ▸ h.inside c hc)

/-- One more constant is written, and those before it stay where they are. -/
theorem assignConstant (h : Consolidated F rows board keep column constants l d)
    (hrow : c.row = d.kept.frontiers.frontier (.column (.fixed column)))
    (hends : (Planner.assignConstant column c.request).Ends d () d')
    (hassumed : (monitor .any).Assumed l (Planner.assignConstant column c.request d).events) :
    Written board keep column d c d' ∧ Consolidated F rows board keep column (constants ++ [c])
      ((monitor .any).after l (Planner.assignConstant column c.request d).events) d' := by
  have horder := (hb.accountable.assignConstant column c.request).of_ends h.order hends hassumed
  obtain ⟨label, v, s, t, hassign, hcopy, rfl, htaken⟩ := Planner.of_ends_assignConstant hends
  rw [← hrow] at hassign hcopy htaken
  obtain ⟨hset, hcopies⟩ := hb.assigned hassign
  obtain ⟨hfixed, hpush⟩ := hb.copied hcopy
  -- the frontier of the column lies behind all rows that are taken
  have hbelow : ∀ c' ∈ constants, c'.row < c.row := fun c' hc' => hrow ▸ h.below c' hc'
  -- the constant lands behind the others, and is one of them from now on
  have hconsolidated : Consolidated F rows board keep column (constants ++ [c])
      ((monitor .any).after l (Planner.assignConstant column c.request d).events)
      ⟨t, { d.kept with frontiers := (d.kept.frontiers.takeRow (.column (.fixed column))).2 }⟩ := by
    constructor
    case order => exact horder
    case taken =>
      have hlast := Ledger.mem_taken_after htaken l
      exact List.forall_mem_append.2 ⟨h.taken_after _, List.forall_mem_singleton.2 hlast⟩
    case holds =>
      -- no constant was promised this row before
      have hnew : ∀ w, ¬ cells column keep constants column c.row w := by
        rintro w ⟨-, c', hc', hsame, -⟩
        exact absurd hsame (Nat.ne_of_lt (hbelow c' hc'))
      rw [hfixed]
      exact (h.holds.add hnew hset).of_imp fun _ _ _ => cells_append
    case inside =>
      obtain ⟨i, hplace, -⟩ := Store.set_eq_ok_iff.1 hset
      have hinside := ((Store.place_eq_ok_iff ..).1 hplace).2.1
      rw [hb.window_eq h.order.2] at hinside
      exact List.forall_mem_append.2 ⟨h.inside, List.forall_mem_singleton.2 hinside⟩
    case rising =>
      rw [List.map_append, List.pairwise_append]
      refine ⟨h.rising, List.pairwise_singleton .., fun row hmem last hlast => ?_⟩
      obtain ⟨c', hc', rfl⟩ := List.mem_map.1 hmem
      obtain rfl := List.mem_singleton.1 hlast
      exact hbelow c' hc'
  refine ⟨⟨hrow, ?_, ?_, rfl⟩, hconsolidated⟩
  · exact hconsolidated.get hb (List.mem_append_right _ (List.mem_singleton_self _))
  · rw [hpush, hcopies]
    rfl

/-- So are several constants, one after another. -/
theorem assignAll (h : Consolidated F rows board keep column constants l d)
    {requests : List (Fraction × Cell)} {results : List Unit}
    (hends : (Run.each (Planner.assignConstant column) requests).Ends d results d')
    (hassumed :
      (monitor .any).Assumed l (Run.each (Planner.assignConstant column) requests d).events) :
    ∃ more : List FinishedConstant, more.map (·.request) = requests ∧
      WrittenInOrder board keep column d more d' ∧
      Consolidated F rows board keep column (constants ++ more)
        ((monitor .any).after l (Run.each (Planner.assignConstant column) requests d).events) d' := by
  induction requests generalizing constants l d results with
  | nil =>
    obtain ⟨-, rfl⟩ := (Run.ends_each_nil ..).1 hends
    exact ⟨[], rfl, .nil _, by rwa [List.append_nil]⟩
  | cons request requests ih =>
    rw [Run.each_cons] at hends hassumed ⊢
    obtain ⟨_, e, hfirst, hrest, hevents⟩ := Run.of_ends_bind hends
    obtain ⟨_, e', hrest, hpure, hevents'⟩ := Run.of_ends_bind hrest
    obtain ⟨-, rfl⟩ := (Run.ends_pure ..).1 hpure
    rw [hevents, hevents', Monitor.Assumed, Monitor.along_append, Monitor.along_append] at hassumed
    -- the first request is met at the frontier, the others behind it
    obtain ⟨hwritten, hone⟩ :=
      h.assignConstant hb (c := ⟨request.1, request.2, _⟩) rfl hfirst hassumed.1
    obtain ⟨more, hrequests, hmore, hall⟩ := ih hone hrest hassumed.2.1
    refine ⟨_ :: more, ?_, .cons hwritten hmore, ?_⟩
    · rw [List.map_cons, hrequests]
      rfl
    rw [hevents, hevents', Monitor.after_append, Monitor.after_append]
    rw [List.append_assoc] at hall
    exact hall

/-- What a call asked for is written to the first column for constants. -/
theorem finish {others : List Nat} {β : Type} {w : β × Requests} {b : β}
    (h : Consolidated F rows board keep column constants l d)
    (hcolumns : d.kept.constants = column :: others) (hends : (Planner.finish w).Ends d b d')
    (hassumed : (monitor .any).Assumed l (Planner.finish w d).events) :
    ∃ more : List FinishedConstant, more.map (·.request) = w.2.toList ∧
      WrittenInOrder board keep column d more d' ∧
      Consolidated F rows board keep column (constants ++ more)
        ((monitor .any).after l (Planner.finish w d).events) d' := by
  obtain ⟨_, e, hassign, hpure, hevents⟩ := Run.of_ends_bind hends
  obtain ⟨-, rfl⟩ := (Run.ends_pure ..).1 hpure
  have hsame : (Planner.finish w d).events = (Planner.assignConstants w.2 d).events :=
    hevents.trans (List.append_nil _)
  rw [hsame] at hassumed ⊢
  rw [Planner.assignConstants_apply hcolumns, Run.events_map] at hassumed ⊢
  rw [Run.Ends, Planner.assignConstants_apply hcolumns, ← Run.Ends] at hassign
  obtain ⟨results, hloop, -⟩ := (Run.ends_map ..).1 hassign
  exact h.assignAll hb hloop hassumed

/-- A step that succeeds leaves the constants that there were where they are, and those that it asked
for behind them. -/
theorem perform {others : List Nat} (h : Consolidated F rows board keep column constants l d)
    (hcolumns : d.kept.constants = column :: others) {c : LayoutCall ρ} {reply : c.Reply}
    (hends : (Planner.perform c).Ends d reply d')
    (hassumed : (monitor .any).Assumed l (Planner.perform c d).events)
    (htables : column ∉ d'.kept.sealedTables) :
    ∃ more, c.Finished board keep column d more ∧
      Consolidated F rows board keep column (constants ++ more)
        ((monitor .any).after l (Planner.perform c d).events) d' := by
  rw [c.perform_eq] at hends hassumed ⊢
  obtain ⟨⟨r, requests⟩, m, hmaterialise, hfinish, hevents⟩ := Run.of_ends_bind hends
  rw [hevents, Monitor.Assumed, Monitor.along_append] at hassumed
  -- what is sealed when the call is done was not unsealed on the way
  have hsealed : column ∉ m.kept.sealedTables := fun hm =>
    htables (hfinish.of_keeps ((Planner.settled_mem_sealedTables column).finish _) hm)
  have hm := h.materialise hb hmaterialise hassumed.1 hsealed
  -- the column of constants is chosen once, by the circuit
  have hcolumns' : m.kept.constants = column :: others :=
    hmaterialise.of_keeps ((Planner.settled_constants _).materialise c) hcolumns
  obtain ⟨more, hrequests, hwritten, hall⟩ := hm.finish hb hcolumns' hfinish hassumed.2
  rw [hevents, Monitor.after_append]
  refine ⟨more, ⟨?_, ?_, ?_, ?_⟩, hall⟩
  · exact hrequests.trans (LayoutCall.asked_of_ends hmaterialise)
  · have hgrows := (hb.copies (board d.target).copies.toList).batchKeeps.materialise c
    exact hgrows d (List.prefix_refl _)
  · rw [c.perform_eq, hends.2, hmaterialise.2]
    exact hwritten
  · rw [c.perform_eq, hends.2, hmaterialise.2]
    exact hwritten.copies

/-- Along a program whose calls all succeed, the constants of every call are written behind those of
the calls before it. -/
theorem run {others : List Nat} (h : Consolidated F rows board keep column constants l d)
    (hcolumns : d.kept.constants = column :: others) (program : Program (layoutInterface ρ) α)
    (hsucceeds : ∀ v ∈ program.visits Planner.perform d, (Planner.perform v.2 v.1).result.isOk = true)
    (hassumed : (monitor .any).Assumed l (program.run Planner.perform d).events)
    (htables : column ∉ (program.run Planner.perform d).state.kept.sealedTables) :
    ∃ steps : List (List FinishedConstant),
      List.Forall₂ (fun v more => v.2.Finished board keep column v.1 more)
        (program.visits Planner.perform d) steps ∧
      Consolidated F rows board keep column (constants ++ steps.flatten)
        ((monitor .any).after l (program.run Planner.perform d).events)
        (program.run Planner.perform d).state := by
  induction program generalizing constants l d with
  | done a => exact ⟨[], .nil, (List.append_nil constants).symm ▸ h⟩
  | fail fault => exact ⟨[], .nil, (List.append_nil constants).symm ▸ h⟩
  | note n rest ih => exact ih h hcolumns hsucceeds hassumed.2 htables
  | call c next ih =>
    obtain ⟨hfirst, hrest⟩ := List.forall_mem_cons.1 hsucceeds
    obtain ⟨reply, hends⟩ := Run.exists_ends_of_isOk hfirst
    have hevents : ((Program.call c next).run Planner.perform d).events =
        (Planner.perform c d).events ++ ((next (Planner.perform c d).result).run Planner.perform
          (Planner.perform c d).state).events := rfl
    rw [hevents, Monitor.Assumed, Monitor.along_append] at hassumed
    -- nothing is unsealed later, so the column is no table after this call either
    have hsealed : column ∉ (Planner.perform c d).state.kept.sealedTables := fun hmem =>
      htables ((Planner.settled_mem_sealedTables column).run (next _) _ hmem)
    obtain ⟨more, hfinished, hone⟩ := h.perform hb hcolumns hends hassumed.1 hsealed
    have hcolumns' := (Planner.settled_constants (column :: others)).perform c d hcolumns
    -- the rest begins with the constants of this call behind those before
    obtain ⟨steps, hsteps, hall⟩ := ih _ hone hcolumns' hrest hassumed.2 htables
    refine ⟨more :: steps, .cons hfinished hsteps, ?_⟩
    rw [hevents, Monitor.after_append, List.flatten_cons, ← List.append_assoc]
    exact hall

end Consolidated

/-! ## Runs -/

section Runs

variable [Assignment σ]

/-- A run of a program on which constants rely: all its calls succeed, its regions take up while they
are written only what they took up while they were measured, the rows of the regions are words, and
no table has the column for constants. -/
structure Planner.Orderly (column : Nat) (program : Program (layoutInterface ρ) α) (d : Layout σ) :
    Prop where
  succeeds : ∀ v ∈ program.visits Planner.perform d, (Planner.perform v.2 v.1).result.isOk = true
  assumed : (monitor .any).Assumed .blank (program.run Planner.perform d).events
  untabled : column ∉ (program.run Planner.perform d).state.kept.sealedTables

/-- Are these the constants of the calls of a run? Each call writes those that it asked for; their
rows rise from the first constant of the run to the last one; no region claims any of these rows or
writes there; and after the run all the constants are where they were written. -/
structure Planner.Consolidates [Inhabited φ] (board : σ → Board φ) (keep : Fraction → φ) (column : Nat)
    (program : Program (layoutInterface ρ) α) (d : Layout σ) (steps : List (List FinishedConstant)) :
    Prop where
  finished : List.Forall₂ (fun v constants => v.2.Finished board keep column v.1 constants)
    (program.visits Planner.perform d) steps
  rising : (steps.flatten.map (·.row)).Pairwise (· < ·)
  apart : ∀ c ∈ steps.flatten, ∀ region,
    ¬ ((monitor .any).after .blank (program.run Planner.perform d).events).Claims
        (program.run Planner.perform d).state.kept.starts region (.column (.fixed column)) c.row ∧
      (region, ⟨.column (.fixed column), c.row⟩) ∉
        ((monitor .any).after .blank (program.run Planner.perform d).events).written
  lasts : ∀ c ∈ steps.flatten,
    (board (program.run Planner.perform d).state.target).fixed.get column c.row = .ok (keep c.value)

/-- Without a column for constants, a call that asks for some fails once it is materialised. -/
theorem Planner.visits_without_constants (program : Program (layoutInterface ρ) α) {d : Layout σ}
    (hcolumns : d.kept.constants = []) :
    ∀ v ∈ program.visits Planner.perform d, ∀ w m, v.2.materialise.Ends v.1 w m →
      v.2.asked v.1 ≠ [] →
        Planner.perform v.2 v.1 = ⟨.error (.noConstantsColumn (v.2.asked v.1).length), m,
          (v.2.materialise v.1).events ++ [.raised (.noConstantsColumn (v.2.asked v.1).length)]⟩ := by
  rintro v hv ⟨reply, requests⟩ m hends hasked
  have hnone : v.1.kept.constants = [] :=
    program.forall_visits (P := fun d : Layout σ => d.kept.constants = [])
      (Planner.settled_constants []).perform hcolumns v hv
  rw [← LayoutCall.asked_of_ends hends] at hasked ⊢
  rw [Array.length_toList]
  refine Planner.perform_without_constants hnone hends ?_
  rintro rfl
  exact hasked rfl

end Runs

/-! ## Circuits -/

namespace Circuit

/-- The layout of a circuit on an assignment at the start of the synthesis, before the first call. -/
def opened [Assignment σ] (circuit : Circuit ρ) (settings : Settings) (target : σ) : Layout σ :=
  ⟨((Assignment.start : Run σ Unit) target).state, .fresh circuit.schema.constants settings⟩

/-- On a new assignment whose board lends nothing, every orderly run consolidates its constants. -/
theorem consolidates [Assignment σ] [Inhabited φ] {F : σ → Prop} {rows : RowSpan} {board : σ → Board φ}
    {keep : Fraction → φ} (hb : Boarded F rows board keep) {circuit : Circuit ρ} {column : Nat}
    {others : List Nat} (hcolumns : circuit.schema.constants = column :: others) {settings : Settings}
    {target : σ} (htarget : F target)
    (hholds : (board target).fixed.Holds (fun _ _ _ => False) false)
    (horderly : Planner.Orderly column circuit.program (circuit.opened settings target)) :
    ∃ steps, Planner.Consolidates board keep column circuit.program
      (circuit.opened settings target) steps := by
  have hstart : Run.Keeps (fun s => (board s).fixed.Holds (fun _ _ _ => False) false)
      (Assignment.start : Run σ Unit) := (hb.lasting _).call .start id
  -- at the start there is no constant, and no row is taken
  have hnone : Consolidated F rows board keep column [] .blank (circuit.opened settings target) := by
    refine ⟨⟨Books.fresh .., hb.accountable.keeps.start target htarget⟩, by simp, ?_, by simp, .nil⟩
    refine (hstart target hholds).of_imp ?_
    rintro _ _ _ ⟨-, c, hc, -⟩
    exact List.not_mem_nil hc
  obtain ⟨steps, hfinished, hall⟩ := hnone.run hb hcolumns circuit.program horderly.succeeds
    horderly.assumed horderly.untabled
  exact ⟨steps, hfinished, hall.rising, fun c hc => hall.apart hc, fun c hc => hall.get hb hc⟩

/-- The constants of a circuit are consolidated. Along every orderly run on a new prover or on a new
key builder every constant that is asked for is written, in the order of the calls and, in a call, in
the order of its regions and of their requests: to the row of the first column for constants that is
free at the time, with a copy to its cell, behind the copies of the call. The rows rise along the run,
no region shares one of them, and at the end each still has its constant. Without a column for
constants every call that asks for some fails once it is materialised, and writes none. -/
theorem constants_consolidated (circuit : Circuit ρ) (logRows : Nat) (settings : Settings) :
    (∀ column others, circuit.schema.constants = column :: others →
      (∀ inputs prover, Prover.create logRows circuit.schema inputs = .ok prover →
        Planner.Orderly column circuit.program (circuit.opened settings prover) →
          ∃ steps, Planner.Consolidates (·.board) Content.keep column circuit.program
            (circuit.opened settings prover) steps) ∧
        ∀ builder, KeyBuilder.create logRows circuit.schema = .ok builder →
          Planner.Orderly column circuit.program (circuit.opened settings builder) →
            ∃ steps, Planner.Consolidates (·.board) id column circuit.program
              (circuit.opened settings builder) steps) ∧
      (circuit.schema.constants = [] → ∀ (σ : Type) [Assignment σ] (target : σ),
        ∀ v ∈ circuit.program.visits Planner.perform (circuit.opened settings target),
          ∀ w m, v.2.materialise.Ends v.1 w m → v.2.asked v.1 ≠ [] →
            Planner.perform v.2 v.1 = ⟨.error (.noConstantsColumn (v.2.asked v.1).length), m,
              (v.2.materialise v.1).events ++
                [.raised (.noConstantsColumn (v.2.asked v.1).length)]⟩) := by
  refine ⟨fun column others hcolumns => ⟨fun inputs prover hnew horderly => ?_,
    fun builder hnew horderly => ?_⟩, fun hcolumns σ _ target => ?_⟩
  · obtain ⟨⟨hgrid, -⟩, -, rfl⟩ := Prover.create_eq_ok_iff.1 hnew
    exact consolidates (Prover.boarded hgrid) hcolumns (Prover.isRoot_unused inputs) (.replicate ..)
      horderly
  · obtain ⟨⟨hgrid, -⟩, rfl⟩ := KeyBuilder.create_eq_ok_iff.1 hnew
    exact consolidates (KeyBuilder.boarded hgrid) hcolumns KeyBuilder.isRoot_unused (.replicate ..)
      horderly
  · exact Planner.visits_without_constants circuit.program hcolumns

/-- The two regions of the circuit are written on forks, and each asks for a five. The run is orderly,
so both fives are consolidated, in a witness and in keys. Without a column for constants the batch
fails once it is materialised. -/
theorem fives_consolidated :
    let prover := fives.opened ⟨true, 0, 10⟩ (Prover.unused 3 fives.schema [[5, 5]])
    let builder := fives.opened ⟨true, 0, 10⟩ (KeyBuilder.unused 3 fives.schema)
    let columnless : Circuit AssignedCell :=
      { fives with schema := { fives.schema with constants := [] } }
    let stuck := columnless.opened ⟨true, 0, 10⟩ (Prover.unused 3 columnless.schema [[5, 5]])
    ((fives.program.visits Planner.perform prover).flatMap fun v => v.2.asked v.1) =
        [(.whole 5, ⟨0, 0, .advice 0⟩), (.whole 5, ⟨1, 0, .advice 0⟩)] ∧
      (Planner.Orderly 0 fives.program prover ∧
        ∃ steps, Planner.Consolidates (·.board) Content.keep 0 fives.program prover steps) ∧
      (Planner.Orderly 0 fives.program builder ∧
        ∃ steps, Planner.Consolidates (·.board) id 0 fives.program builder steps) ∧
      (columnless.program.visits Planner.perform stuck).length = 1 ∧
        ∀ v ∈ columnless.program.visits Planner.perform stuck,
          (Planner.perform v.2 v.1).result = .error (.noConstantsColumn 2) ∧
            (Planner.perform v.2 v.1).state = (v.2.materialise v.1).state := by
  intro prover builder columnless stuck
  have hprover : Planner.Orderly 0 fives.program prover :=
    ⟨by decide +kernel, by decide +kernel, by decide +kernel⟩
  have hbuilder : Planner.Orderly 0 fives.program builder :=
    ⟨by decide +kernel, by decide +kernel, by decide +kernel⟩
  -- without a column the two regions are written, and two requests remain
  have hstuck : ∀ v ∈ columnless.program.visits Planner.perform stuck,
      (v.2.materialise v.1).result.isOk = true ∧ (v.2.asked v.1).length = 2 := by decide +kernel
  have hfives := (constants_consolidated fives 3 ⟨true, 0, 10⟩).1 0 [] rfl
  have hcolumnless := (constants_consolidated columnless 3 ⟨true, 0, 10⟩).2 rfl
  refine ⟨by decide +kernel, ⟨hprover, ?_⟩, ⟨hbuilder, ?_⟩, by decide +kernel, fun v hv => ?_⟩
  · exact hfives.1 _ _ (Prover.create_eq_ok_iff.2 ⟨by decide, by decide, rfl⟩) hprover
  · exact hfives.2 _ (KeyBuilder.create_eq_ok_iff.2 ⟨by decide, rfl⟩) hbuilder
  · obtain ⟨hok, hlength⟩ := hstuck v hv
    obtain ⟨w, hends⟩ := Run.exists_ends_of_isOk hok
    have hasked : v.2.asked v.1 ≠ [] := by
      intro hnone
      rw [hnone] at hlength
      exact absurd hlength (by decide)
    rw [hcolumnless Prover _ v hv w _ hends hasked, hlength]
    exact ⟨rfl, rfl⟩

end Circuit

end CircuitLayout
