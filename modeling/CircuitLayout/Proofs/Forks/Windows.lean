import CircuitLayout.Proofs.Forks.FailedBatches
import CircuitLayout.Proofs.Planner.Requests

namespace CircuitLayout

/-! # Writes within a window

The stores of a fork lie over the rows that it may write, so a write on one of these rows passes all
checks of windows. Main statement: `Heeds.faultsAt_announcedCall`, a call that takes up an offset of
such a row does not fail for its row; if its fault says so, its producer gave it.
-/

open Run (Keeps)
open Desk (OnTarget onTarget modifyKept)

variable {σ τ α β : Type} {K L : Fault → Prop}

/-! ## Faults of a run from a state -/

namespace Run

/-- Does a run from a state fail, if it fails, with a fault that has a property? -/
def FaultsAt (K : Fault → Prop) (m : Run σ α) (s : σ) : Prop :=
  ∀ fault, (m s).result = .error fault → K fault

namespace FaultsAt

variable {m : Run σ α} {f : α → Run σ β} {s : σ}

/-- What faults are known of may be weakened. -/
theorem imp (h : FaultsAt K m s) (hKL : ∀ fault, K fault → L fault) : FaultsAt L m s :=
  fun fault hfault => hKL fault (h fault hfault)

/-- What ends well has no fault. -/
theorem of_ends (h : ∃ a t, m.Ends s a t) : FaultsAt K m s := by
  obtain ⟨a, t, hends⟩ := h
  intro fault hfault
  rw [hends.1] at hfault
  cases hfault

/-- What follows a run need only have the right faults where that run ended well. -/
theorem bind (hm : FaultsAt K m s) (hf : ∀ a t, m.Ends s a t → FaultsAt K (f a) t) :
    FaultsAt K (m >>= f) s := by
  intro fault hfault
  rcases of_bind_error hfault with ⟨hfirst, -⟩ | ⟨a, t, hends, hrest, -⟩
  · exact hm fault hfirst
  · exact hf a t hends fault hrest

/-- To change the answer raises no faults. -/
theorem map (hm : FaultsAt K m s) (g : α → β) : FaultsAt K (g <$> m) s := by
  rw [map_eq_pure_bind]
  exact hm.bind fun a t _ => of_ends ⟨g a, t, (ends_pure ..).2 ⟨rfl, rfl⟩⟩

/-- Reading the state raises no faults. -/
theorem get_bind {f : σ → Run σ β} (h : FaultsAt K (f s) s) : FaultsAt K (Run.get >>= f) s := by
  intro fault hfault
  rw [get_bind_apply] at hfault
  exact h fault hfault

/-- A fault that is raised is the one there is. -/
theorem raise {fault : Fault} (h : K fault) : FaultsAt K (Run.raise fault : Run σ α) s := by
  intro fault' hfault
  obtain rfl : fault = fault' := Except.error.inj hfault
  exact h

/-- A check raises its own fault, and only where it refuses. -/
theorem refuse {condition : Prop} [Decidable condition] {fault : Fault} (h : condition → K fault) :
    FaultsAt K (Run.refuse condition fault) s := by
  unfold Run.refuse
  split
  · next hcondition => exact raise (h hcondition)
  · exact of_ends ⟨(), s, (ends_pure ..).2 ⟨rfl, rfl⟩⟩

/-- A result raises its own fault. -/
theorem ofExcept {result : Except Fault α} (h : ∀ fault, result = .error fault → K fault) :
    FaultsAt K (Run.ofExcept result) s := by
  cases result with
  | ok a => exact of_ends ⟨a, s, (ends_pure ..).2 ⟨rfl, rfl⟩⟩
  | error fault => exact raise (h fault rfl)

/-- On a part of the state. -/
theorem zoom {part : τ → σ} {put : τ → σ → τ} {t : τ} (h : FaultsAt K m (part t)) :
    FaultsAt K (Run.zoom part put m) t := h

end FaultsAt

end Run

open Run (FaultsAt)

/-- Does a fault say that a row lies outside a window? -/
def Fault.IsOutsideWindow : Fault → Prop
  | writeOutsideWindow .. | fillOutsideWindow .. | rowOutsideWindow .. => True
  | _ => False

/-- Is a fault that says so the producer's own? -/
def Producer.Gives (value : Producer) (fault : Fault) : Prop :=
  fault.IsOutsideWindow → value () = .error fault

/-- A fault that says nothing of windows need not be given. -/
theorem Producer.gives_of_not (value : Producer) (fault : Fault) (h : ¬ fault.IsOutsideWindow) :
    value.Gives fault := fun hfault => absurd hfault h

/-- A producer that is asked raises only its own faults. -/
theorem faultsAt_askProducer (column : Column) (value : Producer) (s : σ) :
    FaultsAt value.Gives (askProducer column value) s := by
  refine FaultsAt.bind (.of_ends ⟨(), s, (Run.ends_emit ..).2 rfl⟩) fun _ t _ => .ofExcept ?_
  intro fault hfault _
  exact hfault

/-! ## Stores -/

/-- A cell on a row of the window is refused for its column or because the row is lent. -/
theorem Store.not_outside_of_set {s : Store α} {column row : Nat} {value : α} {fault : Fault}
    (hrow : row ∈ s.window) (h : s.set column row value = .error fault) :
    ¬ fault.IsOutsideWindow := by
  -- a write fails only in looking for the place
  have hplace : s.place column row = .error fault := by
    cases hplace : s.place column row with
    | error fault' =>
      rw [set, hplace] at h
      exact congrArg Except.error (Except.error.inj h)
    | ok i =>
      rw [set, hplace] at h
      cases h
  -- the row lies in the window, so the column or what is lent is at fault
  rw [place, if_neg (not_not_intro hrow)] at hplace
  split at hplace
  · cases hplace
    exact id
  · split at hplace
    · cases hplace
      exact id
    · cases hplace

/-- A copy is refused for its columns, or because its rows are not those of the permutation. -/
theorem Permutation.not_outside_of_copy (p : Permutation) {left right : Position} {fault : Fault}
    (h : p.copy left right = .error fault) : ¬ fault.IsOutsideWindow := by
  simp only [copy, slots, columnIndex] at h
  -- a copy fails for a column or for a row, and never for a window
  cases hleft : p.columns.idxOf? left.column with
  | none =>
    rw [hleft] at h
    cases h
    exact id
  | some l =>
    cases hright : p.columns.idxOf? right.column with
    | none =>
      rw [hleft, hright] at h
      cases h
      exact id
    | some r =>
      rw [hleft, hright] at h
      by_cases hrows : p.rows ≤ left.row ∨ p.rows ≤ right.row
      · simp only [hrows, if_true] at h
        cases h
        exact id
      · simp only [hrows, if_false] at h
        cases h

/-! ## Boards -/

namespace Board

variable {φ : Type} {b : Board φ} {range : RowSpan} {row : Nat}

/-- Do the stores of a board lie over the rows that may be written? -/
structure Over (range : RowSpan) (b : Board φ) : Prop where
  window_eq : b.window = range
  fixed : b.fixed.window = range
  selectors : b.selectors.window = range

/-- No step moves a window. -/
theorem Over.stable (range : RowSpan) : Stable (Over range : Board φ → Prop) := by
  intro b c hstep hb
  -- what is written leaves the outline of its store
  cases hstep with
  | selector h =>
    have hsame := congrArg (·.window) (Store.outline_of_set h)
    exact { hb with selectors := hsame.trans hb.selectors }
  | cell h =>
    have hsame := congrArg (·.window) (Store.outline_of_set h)
    exact { hb with fixed := hsame.trans hb.fixed }
  | filled h =>
    have hsame := congrArg (·.window) (Store.outline_of_fill h)
    exact { hb with fixed := hsame.trans hb.fixed }
  | phase | joined | kept => exact { hb with }

/-- The windows of a fork are over its range. -/
theorem over_forkOver (b : Board φ) (range : RowSpan) : (b.forkOver range).Over range :=
  ⟨rfl, rfl, rfl⟩

/-- The check of the phase finds no row outside of a window. -/
theorem faultsAt_requireSynthesizing (operation : String) (b : Board φ) :
    FaultsAt (¬ ·.IsOutsideWindow) (requireSynthesizing operation) b :=
  .get_bind (.refuse fun _ => id)

/-- The check of a row finds it usable or not, whatever the window. -/
theorem faultsAt_requireUsable (row : Nat) (b : Board φ) :
    FaultsAt (¬ ·.IsOutsideWindow) (requireUsable row) b :=
  .get_bind (.refuse fun _ => id)

/-- A row of the window is not found outside of it. -/
theorem faultsAt_requireWritable (operation : String) (hrow : row ∈ b.window) :
    FaultsAt (¬ ·.IsOutsideWindow) (requireWritable operation row) b := by
  refine (faultsAt_requireUsable row b).bind fun _ c hc => ?_
  obtain ⟨-, rfl⟩ := (ends_requireUsable ..).1 hc
  exact .get_bind (.refuse fun hout => absurd hrow hout)

/-- Enabling a selector of a row of the range finds no row outside of a window. -/
theorem faultsAt_enableSelector (h : b.Over range) (hrow : row ∈ range) (selector : Selector) :
    FaultsAt (¬ ·.IsOutsideWindow) (enableSelector selector row) b := by
  refine (faultsAt_requireSynthesizing _ b).bind fun _ c hc => ?_
  obtain ⟨-, rfl⟩ := (ends_requireSynthesizing ..).1 hc
  refine (faultsAt_requireWritable _ (h.window_eq ▸ hrow)).bind fun _ d hd => ?_
  obtain ⟨-, rfl⟩ := (ends_requireWritable ..).1 hd
  refine .get_bind (.bind (.ofExcept fun fault => ?_) fun selectors e he => ?_)
  · exact Store.not_outside_of_set (h.selectors ▸ hrow)
  · exact .of_ends ⟨(), _, (Run.ends_set_bind ..).2 ((Run.ends_emit ..).2 rfl)⟩

/-- Assigning a fixed cell of a row of the range finds no row outside of a window. -/
theorem faultsAt_assignFixed (h : b.Over range) (hrow : row ∈ range) (keep : Fraction → φ)
    (label : String) (column : Nat) (value : Producer) :
    FaultsAt value.Gives (assignFixed keep label column row value) b := by
  have hgives := value.gives_of_not
  refine ((faultsAt_requireSynthesizing _ b).imp hgives).bind fun _ c hc => ?_
  obtain ⟨-, rfl⟩ := (ends_requireSynthesizing ..).1 hc
  refine ((faultsAt_requireWritable _ (h.window_eq ▸ hrow)).imp hgives).bind fun _ d hd => ?_
  obtain ⟨-, rfl⟩ := (ends_requireWritable ..).1 hd
  refine (faultsAt_askProducer _ value _).bind fun v e he => ?_
  obtain rfl : e = d := he.2.symm.trans (keeps_askProducer (P := (· = d)) _ value d rfl)
  -- the producer has answered; only the store is left
  cases v with
  | none => exact .raise fun hout => hout.elim
  | some v =>
    refine .get_bind (.bind (.ofExcept fun fault hset => ?_) fun fixed f _ => ?_)
    · exact hgives fault (Store.not_outside_of_set (h.fixed ▸ hrow) hset)
    · exact .of_ends ⟨v, _, (Run.ends_set_bind ..).2
        ((Run.ends_emit_bind ..).2 ((Run.ends_pure ..).2 ⟨rfl, rfl⟩))⟩

/-- Copies know of no windows. -/
theorem faultsAt_copy (left right : Position) (b : Board φ) :
    FaultsAt (¬ ·.IsOutsideWindow) (copy left right) b := by
  refine (faultsAt_requireSynthesizing _ b).bind fun _ c _ => ?_
  refine .get_bind (.bind (.refuse fun _ => id) fun _ d _ => .get_bind ?_)
  cases d.permutation with
  | none => exact .of_ends ⟨(), _, (Run.ends_set ..).2 rfl⟩
  | some p =>
    refine .bind (.ofExcept fun fault => p.not_outside_of_copy) fun q e _ => ?_
    exact .of_ends ⟨(), _, (Run.ends_set ..).2 rfl⟩

end Board

/-! ## Assignments -/

/-- The producer that a call asks, if it is the routine's. -/
def RegionCall.producer? : RegionCall → Option Producer
  | assignAdvice _ _ _ value | assignFixed _ _ _ value => some value
  | enableSelector .. | nameColumn .. | queryAdvice .. | queryFixed .. | assignConstant ..
  | assignInput .. | constrainConstant .. | constrainEqual .. | globalRow .. => none

/-- Is a fault that says that a row lies outside a window given by the producer of a call? -/
def RegionCall.Gives (c : RegionCall) (fault : Fault) : Prop :=
  fault.IsOutsideWindow → ∃ value, c.producer? = some value ∧ value () = .error fault

/-- Do the windows of an assignment stay over their rows, and fail no write there? The windows of a fork
are over its range. -/
structure Heeds {σ : Type} [Assignment σ] (Over : RowSpan → σ → Prop) : Prop where
  keeps : ∀ range, RegionKeeps (Over range)
  queryInput : ∀ (s : σ) column row,
    FaultsAt (¬ ·.IsOutsideWindow) (Assignment.queryInput column row) s
  copy : ∀ (s : σ) left right, FaultsAt (¬ ·.IsOutsideWindow) (Assignment.copy left right) s
  enableSelector : ∀ {range row} {s : σ}, Over range s → row ∈ range → ∀ label selector,
    FaultsAt (¬ ·.IsOutsideWindow) (Assignment.enableSelector label selector row) s
  assignAdvice : ∀ {range row} {s : σ}, Over range s → row ∈ range → ∀ label column value,
    FaultsAt value.Gives (Assignment.assignAdvice label column row value) s
  assignFixed : ∀ {range row} {s : σ}, Over range s → row ∈ range → ∀ label column value,
    FaultsAt value.Gives (Assignment.assignFixed label column row value) s
  forked : ∀ {ranges} {forks : List σ} {s t : σ}, (Assignment.fork ranges).Ends s forks t →
    List.Forall₂ Over ranges forks

namespace Heeds

variable {t : Desk σ Requests}

/-- What follows a call on the assignment and does not fail. -/
theorem faultsAt_onTarget_bind {m : Run σ α} {f : α → Run (Desk σ Requests) β}
    (hm : FaultsAt K m t.target) (hf : ∀ a u, ∃ b v, (f a).Ends u b v) :
    FaultsAt K (onTarget m >>= f) t :=
  .bind (.zoom hm) fun a u _ => .of_ends (hf a u)

variable [Assignment σ] {Over : RowSpan → σ → Prop} {range : RowSpan} {starts : Array Nat}
  {region offset : Nat} {lane : Lane} {c : RegionCall}

/-- A call that takes up an offset writes within windows that are over the row it comes to. -/
theorem faultsAt_writeCall (h : Heeds Over) (ht : Over range t.target)
    (htakes : c.takes? = some (lane, offset))
    (hrow : Word.add (starts.getD region 0) offset ∈ range) :
    FaultsAt c.Gives (writeCall starts region c) t := by
  -- a known value is no fault of its producer
  have hknown : ∀ {value : Producer} {v : Option Fraction}, value () = .ok v →
      ∀ fault, value.Gives fault → c.Gives fault := by
    intro value v hvalue fault hgives hout
    have herror := hgives hout
    rw [hvalue] at herror
    cases herror
  cases c with
  | enableSelector label selector offset =>
    cases htakes
    exact (FaultsAt.zoom (h.enableSelector ht hrow label selector)).imp
      fun fault hnot hout => absurd hout hnot
  | assignAdvice label column offset value =>
    cases htakes
    refine .imp (K := value.Gives) (faultsAt_onTarget_bind (h.assignAdvice ht hrow label column value) ?_)
      fun fault hgives hout => ⟨value, rfl, hgives hout⟩
    exact fun v u => ⟨_, u, (Run.ends_pure ..).2 ⟨rfl, rfl⟩⟩
  | assignFixed label column offset value =>
    cases htakes
    refine .imp (K := value.Gives) (faultsAt_onTarget_bind (h.assignFixed ht hrow label column value) ?_)
      fun fault hgives hout => ⟨value, rfl, hgives hout⟩
    exact fun v u => ⟨_, u, (Run.ends_pure ..).2 ⟨rfl, rfl⟩⟩
  | assignConstant label column offset constant =>
    cases htakes
    have hwrite := h.assignAdvice ht hrow label column (.known constant)
    refine faultsAt_onTarget_bind (hwrite.imp (hknown rfl)) fun v u => ?_
    exact ⟨_, _, (Run.ends_modify_bind ..).2 ((Run.ends_pure ..).2 ⟨rfl, rfl⟩)⟩
  | assignInput label input inputRow column offset =>
    cases htakes
    -- reading the input and joining the cells look at no window
    have hnever : ∀ fault : Fault, ¬ fault.IsOutsideWindow →
        (RegionCall.assignInput label input inputRow column offset).Gives fault :=
      fun fault hnot hout => absurd hout hnot
    refine .bind (.zoom ((h.queryInput t.target input inputRow).imp hnever)) fun value u hquery => ?_
    obtain ⟨s, hends, rfl⟩ := (Desk.ends_onTarget ..).1 hquery
    -- reading the input moves no window
    have hs : Over range s := hends.2 ▸ (h.keeps range).queryInput input inputRow _ ht
    have hwrite := h.assignAdvice hs hrow label column (.ofOption (value.map .whole))
    refine .bind (.zoom (hwrite.imp (hknown rfl))) fun _ v _ => ?_
    refine faultsAt_onTarget_bind ((h.copy v.target _ _).imp hnever) fun _ w => ?_
    exact ⟨_, w, (Run.ends_pure ..).2 ⟨rfl, rfl⟩⟩
  | nameColumn | queryAdvice | queryFixed | constrainConstant | constrainEqual | globalRow => cases htakes

/-- A call on a row of the range finds no row outside of a window. -/
theorem faultsAt_announcedCall (h : Heeds Over) (ht : Over range t.target)
    (htakes : c.takes? = some (lane, offset))
    (hrow : Word.add (starts.getD region 0) offset ∈ range) :
    FaultsAt c.Gives (announcedCall starts region c) t := by
  intro fault hfault
  rw [(announcedCall_apply starts region c t).1] at hfault
  exact h.faultsAt_writeCall ht htakes hrow fault hfault

/-- The windows stay over their rows while a routine writes its region. -/
theorem over_visits (h : Heeds Over) {target : σ} (ht : Over range target) (routine : Routine α) :
    ∀ v ∈ routine.visits (announcedCall starts region) (⟨target, #[]⟩ : Desk σ Requests),
      Over range v.1.target := by
  have hcalls := (h.keeps range).toCellKeeps.announcedCall starts region
  exact Program.forall_visits (P := OnTarget (Over range)) hcalls routine ht

end Heeds

/-! ## Provers and key builders -/

namespace Prover

/-- Do all stores of a prover lie over the rows that may be written? -/
structure Over (range : RowSpan) (p : Prover) : Prop where
  board : p.board.Over range
  advice : p.advice.window = range

/-- No step moves a window of a prover. -/
theorem Over.stable (range : RowSpan) : Stable (Over range) := by
  intro p q hstep hp
  cases hstep with
  | board hstep => exact { hp with board := Board.Over.stable range hstep hp.board }
  | cell h =>
    have hsame := congrArg (·.window) (Store.outline_of_set h)
    exact { hp with advice := hsame.trans hp.advice }
  | record | scopes => exact { hp with }

/-- The windows of a fork of a prover are over its range. -/
theorem over_sliver (p : Prover) (range : RowSpan) : (p.sliver range).Over range :=
  ⟨p.board.over_forkOver range, rfl⟩

/-- Assigning an advice cell of a row of the range finds no row outside of a window. -/
theorem faultsAt_assignAdvice {range : RowSpan} {row : Nat} {p : Prover} (h : p.Over range)
    (hrow : row ∈ range) (label : String) (column : Nat) (value : Producer) :
    FaultsAt value.Gives (assignAdvice label column row value) p := by
  have hgives := value.gives_of_not
  refine .bind (.zoom ((Board.faultsAt_requireSynthesizing _ p.board).imp hgives)) fun _ q hq => ?_
  obtain ⟨b, hb, rfl⟩ := (ends_onBoard ..).1 hq
  obtain ⟨-, rfl⟩ := (Board.ends_requireSynthesizing ..).1 hb
  -- the row passes the check, for it lies in the window
  have hwindow : row ∈ p.board.window := h.board.window_eq ▸ hrow
  refine .bind (.zoom ((Board.faultsAt_requireWritable _ hwindow).imp hgives)) fun _ q hq => ?_
  obtain ⟨b, hb, rfl⟩ := (ends_onBoard ..).1 hq
  obtain ⟨-, rfl⟩ := (Board.ends_requireWritable ..).1 hb
  refine (faultsAt_askProducer _ value _).bind fun v q hq => ?_
  obtain rfl : q = p := hq.2.symm.trans (keeps_askProducer (P := (· = p)) _ value p rfl)
  -- the producer has answered; only the store is left
  cases v with
  | none => exact .raise fun hout => hout.elim
  | some v =>
    refine .get_bind (.bind (.ofExcept fun fault hset => ?_) fun advice r _ => ?_)
    · exact hgives fault (Store.not_outside_of_set (h.advice ▸ hrow) hset)
    · exact .of_ends ⟨v, _, (Run.ends_set_bind ..).2 ((Run.ends_emit_bind ..).2
        ((Run.ends_bind ..).2 ⟨(), _, ends_record_self .., (Run.ends_pure ..).2 ⟨rfl, rfl⟩⟩))⟩

/-- A prover over a range finds no row of the range outside of its windows. -/
theorem heeds : Heeds Over where
  keeps range := (Over.stable range).regionKeeps fun _ _ _ hp => { hp with }
  queryInput p column row := by
    refine .bind (.zoom (Board.faultsAt_requireUsable row p.board)) fun _ q _ => .get_bind ?_
    -- an input that is missing is no matter of windows
    cases q.inputs[column]? with
    | none => exact .raise id
    | some cells => exact .of_ends ⟨_, q, (Run.ends_pure ..).2 ⟨rfl, rfl⟩⟩
  copy p left right := .zoom (Board.faultsAt_copy left right p.board)
  enableSelector hp hrow label selector := by
    refine .bind (.zoom (Board.faultsAt_enableSelector hp.board hrow selector)) fun _ q _ => ?_
    exact .of_ends ⟨(), _, ends_record_self _ q⟩
  assignAdvice hp hrow label column value := (faultsAt_assignAdvice hp hrow label column value).map _
  -- the record is made last and cannot fail
  assignFixed hp hrow label column value := by
    have hwrite := Board.faultsAt_assignFixed hp.board hrow .keep label column value
    refine .map (.bind (.zoom hwrite) fun v q _ => ?_) _
    exact .of_ends ⟨v, _, (Run.ends_bind ..).2
      ⟨(), _, ends_record_self _ q, (Run.ends_pure ..).2 ⟨rfl, rfl⟩⟩⟩
  forked hends := by
    obtain ⟨-, rfl⟩ := Even.of_ends_fork hends
    exact List.forall₂_map_right_iff.2 (List.forall₂_same.2 fun range _ => over_sliver _ range)

end Prover

/-- What a key builder does not store leaves no window. -/
theorem KeyBuilder.heeds : Heeds fun range (k : KeyBuilder) => k.board.Over range where
  keeps range := regionKeeps (Board.Over.stable range)
  queryInput k _ row :=
    .bind (.zoom (Board.faultsAt_requireUsable row k.board)) fun _ l _ =>
      .of_ends ⟨none, l, (Run.ends_pure ..).2 ⟨rfl, rfl⟩⟩
  copy k left right := .zoom (Board.faultsAt_copy left right k.board)
  enableSelector hk hrow _ selector := .zoom (Board.faultsAt_enableSelector hk hrow selector)
  assignAdvice _ _ _ _ _ := .of_ends ⟨none, _, (Run.ends_pure ..).2 ⟨rfl, rfl⟩⟩
  assignFixed hk hrow label column value :=
    .map (.zoom (Board.faultsAt_assignFixed hk hrow id label column value)) _
  forked hends := by
    obtain ⟨-, rfl⟩ := Even.of_ends_fork hends
    exact List.forall₂_map_right_iff.2 (List.forall₂_same.2 fun range _ => Board.over_forkOver _ range)

end CircuitLayout
