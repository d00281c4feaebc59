import CircuitLayout.Proofs.Prover.Journals
import CircuitLayout.Proofs.Simulation.Region
import CircuitLayout.Proofs.Witness.Sound

namespace CircuitLayout

/-! # Regions of sound witnesses

What a region that is written does to a sound witness, if the circuit is sound by construction: what
it assigns is pinned, what it copies was pinned before, and the constants that it asks for are to
equal cells that its routine was answered with. Main statement: `secures_writeRegion`.
-/

open Run (Secures Recounts Silent Keeps)
open Register (monitor)
open Desk (onTarget getKept modifyKept withinRegion)

variable {σ κ α β Λ : Type} {logRows : Nat} {schema : Schema} {starts : Array Nat} {region : Nat}
  {due : Option AssignedCell} {l k : Register} {p q : Prover}

/-- What a run on the assignment of a desk secures, and what no event takes away from what is kept
beside it. -/
theorem Run.Secures.onTarget {w : Monitor Λ} {P : Λ → σ → Prop} {m : Run σ α} {Q : α → Λ → σ → Prop}
    {I : κ → Λ → Prop} (hm : Secures w P m Q) (hI : ∀ kept l e, I kept l → I kept (w.step l e)) :
    Secures w (fun l d => P l d.target ∧ I d.kept l) (Desk.onTarget m : Run (Desk σ κ) α)
      (fun a l d => Q a l d.target ∧ I d.kept l) := by
  intro l d a d' hd hends hassumed
  obtain ⟨t, hma, rfl⟩ := (Desk.ends_onTarget ..).1 hends
  exact (hm.and_lasting (hI d.kept)) l d.target a t hd hma hassumed

/-! ## Prover and register while a region is written -/

/-- The cell at an offset of a placed region is at the row that the start moves the offset to. -/
theorem positionOf_of_lt (hregion : region < starts.size) (offset : Nat) (column : Column) :
    positionOf starts ⟨region, offset, column⟩ =
      .ok ⟨column, Word.add (starts.getD region 0) offset⟩ := by
  simp [positionOf, rowOf, hregion, Except.map]

/-- A sound witness while a region is written, whose routine may be due a cell. -/
structure AtWork (logRows : Nat) (schema : Schema) (starts : Array Nat) (region : Nat)
    (due : Option AssignedCell) (l : Register) (p : Prover) : Prop where
  sound : Sound logRows schema true starts l p
  worker : l.ledger.worker = .region region
  due : ∀ cell, due = some cell → ∃ v a, cell.value = some v ∧
    positionOf starts cell.cell = .ok a ∧ Pinned l p a v.evaluate

namespace AtWork

/-- Nothing that counts happened. -/
theorem stay (h : AtWork logRows schema starts region due l p)
    (hready : q.Ready logRows schema true) (hsame : p.SameValues q) (hagrees : l.Agrees k)
    (hworker : k.ledger.worker = l.ledger.worker) :
    AtWork logRows schema starts region due k q := by
  refine ⟨h.sound.stay hready hsame hagrees, hworker.trans h.worker, ?_⟩
  intro cell hcell
  obtain ⟨v, a, hvalue, hposition, hsettled, hheld⟩ := h.due cell hcell
  refine ⟨v, a, hvalue, hposition, (hagrees.settled a).2 hsettled, ?_⟩
  rw [hsame.values]
  exact hheld

/-- A cell that is written is due to the routine. -/
theorem assign (h : AtWork logRows schema starts region none l p)
    (hregion : region < starts.size) {column : Column} (hkind : column.kind ≠ .input) {offset : Nat}
    {v : Fraction} (hready : q.Ready logRows schema true)
    (hsets : Prover.Sets ⟨column, Word.add (starts.getD region 0) offset⟩ v.evaluate p q)
    (hassumed : monitor.trusting.Assumed l
      [.produced column, .wrote (.column column) (Word.add (starts.getD region 0) offset)]) :
    AtWork logRows schema starts region (some ⟨⟨region, offset, column⟩, some v⟩)
      (l.step (.wrote (.column column) (Word.add (starts.getD region 0) offset))) q := by
  obtain ⟨hsound, hpinned⟩ := h.sound.write hready hsets h.worker hassumed.2.1 hkind
  refine ⟨hsound, ?_, ?_⟩
  · simp only [Register.step, Ledger.step, Ledger.write, h.worker]
  · intro cell hcell
    cases hcell
    exact ⟨v, _, rfl, positionOf_of_lt hregion offset column, hpinned⟩

/-- A copy of what is pinned leaves what a routine is due. -/
theorem copy (h : AtWork logRows schema starts region due l p) {a b : Position} {v : Goldilocks}
    (hleft : Pinned l p a v) (hright : Pinned l p b v)
    (hends : (Prover.onBoard (Board.copy a b)).Ends p () q) :
    AtWork logRows schema starts region due l q := by
  have hready : q.Ready logRows schema true :=
    hends.of_keeps (Prover.Ready.stable.callKeeps.copy a b) h.sound.ready
  refine ⟨h.sound.copy hready hleft hright hends, h.worker, ?_⟩
  intro cell hcell
  obtain ⟨v, a, hvalue, hposition, hsettled, hheld⟩ := h.due cell hcell
  refine ⟨v, a, hvalue, hposition, hsettled, ?_⟩
  rw [(Prover.of_ends_copy hends).1]
  exact hheld

/-- An advice cell that is assigned is due, with the value that was produced for it. -/
theorem assignAdvice (h : AtWork logRows schema starts region none l p)
    (hregion : region < starts.size) {label : String} {column offset : Nat} {value : Producer}
    {x : Option Fraction}
    (hends : (Assignment.assignAdvice label column (Word.add (starts.getD region 0) offset) value :
      Run Prover (Option Fraction)).Ends p x q)
    (hassumed : monitor.trusting.Assumed l [.produced (.advice column),
      .wrote (.column (.advice column)) (Word.add (starts.getD region 0) offset)]) :
    ∃ v, x = some v ∧ value () = .ok (some v) ∧
      Prover.Sets ⟨.advice column, Word.add (starts.getD region 0) offset⟩ v.evaluate p q ∧
      AtWork logRows schema starts region (some ⟨⟨region, offset, .advice column⟩, some v⟩)
        (l.step (.wrote (.column (.advice column)) (Word.add (starts.getD region 0) offset))) q := by
  have hready := hends.of_keeps
    (Prover.Ready.stable.callKeeps.assignAdvice label column _ value) h.sound.ready
  obtain ⟨v, hassigned, rfl⟩ := (Run.ends_map ..).1 hends
  have hsets := Prover.sets_of_assignAdvice h.sound.ready.idle.advice h.sound.ready.idle.lent_advice
    hassigned
  exact ⟨v, rfl, ((Prover.ends_assignAdvice ..).1 hassigned).1.2, hsets,
    h.assign hregion (by simp [Column.advice]) hready hsets hassumed⟩

theorem assignFixed (h : AtWork logRows schema starts region none l p)
    (hregion : region < starts.size) {label : String} {column offset : Nat} {value : Producer}
    {x : Option Fraction}
    (hends : (Assignment.assignFixed label column (Word.add (starts.getD region 0) offset) value :
      Run Prover (Option Fraction)).Ends p x q)
    (hassumed : monitor.trusting.Assumed l [.produced (.fixed column),
      .wrote (.column (.fixed column)) (Word.add (starts.getD region 0) offset)]) :
    ∃ v, x = some v ∧
      AtWork logRows schema starts region (some ⟨⟨region, offset, .fixed column⟩, some v⟩)
        (l.step (.wrote (.column (.fixed column)) (Word.add (starts.getD region 0) offset))) q := by
  have hready := hends.of_keeps
    (Prover.Ready.stable.callKeeps.assignFixed label column _ value) h.sound.ready
  obtain ⟨v, hassigned, rfl⟩ := (Run.ends_map ..).1 hends
  have hidle := h.sound.ready.idle
  have hsets := Prover.sets_of_assignFixed hidle.board.root.fixed hidle.board.lent_fixed hassigned
  exact ⟨v, rfl, h.assign hregion (by simp [Column.fixed]) hready hsets hassumed⟩

/-- A cell that is assigned a public input may be copied from it: the input is where it was. -/
theorem assignInput (h : AtWork logRows schema starts region none l p)
    (hregion : region < starts.size) {label : String} {input row column offset : Nat}
    {value : Option Goldilocks} {x : Option Fraction} {p' p'' : Prover}
    (hquery : (Assignment.queryInput input row : Run Prover (Option Goldilocks)).Ends p value p')
    (hassign : (Assignment.assignAdvice label column (Word.add (starts.getD region 0) offset)
      (.ofOption (value.map Fraction.whole)) : Run Prover (Option Fraction)).Ends p' x p'')
    (hcopy : (Assignment.copy ⟨.advice column, Word.add (starts.getD region 0) offset⟩
      ⟨.input input, row⟩ : Run Prover Unit).Ends p'' () q)
    (hassumed : monitor.trusting.Assumed l [.produced (.advice column),
      .wrote (.column (.advice column)) (Word.add (starts.getD region 0) offset)]) :
    AtWork logRows schema starts region
      (some ⟨⟨region, offset, .advice column⟩, value.map Fraction.whole⟩)
      (l.step (.wrote (.column (.advice column)) (Word.add (starts.getD region 0) offset))) q := by
  obtain ⟨rfl, i, rfl, hi⟩ := h.sound.ready.valueAt?_of_queryInput hquery
  obtain ⟨v, rfl, hproduced, hsets, hwritten⟩ := h.assignAdvice hregion hassign hassumed
  obtain rfl : v = .whole i := (Option.some.inj (Except.ok.inj hproduced)).symm
  obtain ⟨v, a, hv, hposition, hleft⟩ := hwritten.due _ rfl
  obtain rfl := Option.some.inj hv
  rw [positionOf_of_lt hregion] at hposition
  obtain rfl := Except.ok.inj hposition
  refine hwritten.copy hleft ⟨.inl rfl, ?_⟩ hcopy
  rw [hsets.values, Function.update_of_ne (by simp [Column.input, Column.advice]), hi]
  rfl

/-- An equality may be demanded of cells of one value that the routine was answered with. -/
theorem constrainEqual (h : AtWork logRows schema starts region due l p) {left right : Cell}
    (hgranted : l.Grants (.equal left right)) {a b : Position}
    (hleft : positionOf starts left = .ok a) (hright : positionOf starts right = .ok b)
    (hcopy : (Assignment.copy a b : Run Prover Unit).Ends p () q) :
    AtWork logRows schema starts region due l q := by
  obtain ⟨source, hsource, rfl, hlast⟩ := hgranted (by rw [h.worker]; rfl)
  obtain ⟨v, b', hvalue, hright', hpinned⟩ := h.sound.handles source hsource
  obtain ⟨v', a', hvalue', hleft', hpinned'⟩ := h.sound.handles _ (List.mem_of_getLast? hlast)
  obtain rfl : v' = v := Option.some.inj (hvalue'.symm.trans hvalue)
  obtain rfl : b = b' := Except.ok.inj (hright.symm.trans hright')
  obtain rfl : a = a' := Except.ok.inj (hleft.symm.trans hleft')
  exact h.copy hpinned' hpinned hcopy

end AtWork

/-- Is every constant that was asked for to equal a cell that the routine was answered with, or that
it is due? -/
def Known (due : Option AssignedCell) (requests : Requests) (l : Register) : Prop :=
  ∀ x ∈ requests, AssignedCell.mk x.2 (some x.1) ∈ l.handles ∨ due = some ⟨x.2, some x.1⟩

theorem known_step {requests : Requests} {e : Event} (h : Known none requests l) :
    Known none requests (l.step e) := by
  intro x hx
  exact .inl (Register.mem_handles_step ((h x hx).resolve_right (by simp)))

/-! ## Calls -/

/-- What a call tells the journal while it is carried out. -/
def RegionCall.strokes (c : RegionCall) (start : Nat) : List Event :=
  match c with
  | enableSelector _ selector offset => [.wrote (.selector selector) (Word.add start offset)]
  | assignAdvice _ column offset _ | assignConstant _ column offset _
  | assignInput _ _ _ column offset =>
    [.produced (.advice column), .wrote (.column (.advice column)) (Word.add start offset)]
  | assignFixed _ column offset _ =>
    [.produced (.fixed column), .wrote (.column (.fixed column)) (Word.add start offset)]
  | nameColumn .. | queryAdvice .. | queryFixed .. | constrainConstant .. | constrainEqual ..
  | globalRow .. => []

theorem recounts_writeCall (c : RegionCall) :
    Recounts (fun _ => c.strokes (starts.getD region 0))
      (writeCall starts region c : Run (Desk Prover Requests) c.Reply) := by
  cases c with
  | enableSelector label selector offset => exact (Prover.recounts_enableSelector _ _).zoom
  | nameColumn label column => exact (Prover.silent_record _).zoom
  | queryAdvice column offset => exact (Prover.silent_queryAdvice _ _).zoom
  | queryFixed column offset => exact (Prover.silent_queryFixed _ _).zoom
  | assignAdvice label column offset value =>
    exact ((Prover.recounts_assignAdvice label column _ value).map some).zoom.bind fun v =>
      Recounts.pure _
  | assignFixed label column offset value =>
    exact ((Prover.recounts_assignFixed label column _ value).map some).zoom.bind fun v =>
      Recounts.pure _
  | assignConstant label column offset constant =>
    exact ((Prover.recounts_assignAdvice label column _ _).map some).zoom.bind fun _ =>
      (Recounts.modify _).after fun _ => Recounts.pure _
  | assignInput label input row column offset =>
    -- reading the public input and the copy are silent
    refine Recounts.after (Prover.silent_queryInput input row).zoom fun value => ?_
    exact ((Prover.recounts_assignAdvice label column _ _).map some).zoom.bind fun _ =>
      Recounts.after (Prover.recounts_onBoard (Board.silent_copy _ _)).zoom fun _ => Recounts.pure _
  | constrainConstant cell constant => exact Recounts.modify _
  | constrainEqual left right =>
    exact (Recounts.ofExcept _).after fun _ => (Recounts.ofExcept _).after fun _ =>
      (Prover.recounts_onBoard (Board.silent_copy _ _)).zoom
  | globalRow offset => exact Recounts.pure _

theorem Known.mono {requests : Requests} (h : Known none requests l) (due : Option AssignedCell) : Known due requests l :=
  fun x hx => .inl ((h x hx).resolve_right (by simp))

/-- Does a call leave prover and register at work when it is carried out, with the cell due that it
assigns? Of what it demands it is known that it may be demanded. -/
def RegionCall.Advances (logRows : Nat) (schema : Schema) (starts : Array Nat) (region : Nat)
    (c : RegionCall) : Prop :=
  ∀ {l d reply d'}, AtWork logRows schema starts region none l d.target → Known none d.kept l →
    (∀ demand, c.announces? = some (.demanded demand) → l.Grants demand) →
    (writeCall starts region c : Run (Desk Prover Requests) c.Reply).Ends d reply d' →
    monitor.trusting.Assumed l (c.strokes (starts.getD region 0)) →
    AtWork logRows schema starts region (c.cell? reply)
        (monitor.trusting.after l (c.strokes (starts.getD region 0))) d'.target ∧
      Known (c.cell? reply) d'.kept (monitor.trusting.after l (c.strokes (starts.getD region 0)))

namespace RegionCall

theorem advances_enableSelector (label : String) (selector : Selector) (offset : Nat) :
    (enableSelector label selector offset).Advances logRows schema starts region := by
  intro l d _ d' hwork hknown _ hends _
  obtain ⟨t, ht, rfl⟩ := (Desk.ends_onTarget ..).1 hends
  have hready := ht.of_keeps
    (Prover.Ready.stable.callKeeps.enableSelector label selector _) hwork.sound.ready
  obtain ⟨-, selectors, -, rfl⟩ := (Prover.ends_enableSelector ..).1 ht
  refine ⟨hwork.stay hready ⟨rfl, rfl⟩ (Register.agrees_of_idles trivial) ?_, hknown⟩
  -- who is at work stays so when a square is written
  have hworker : (l.ledger.write (.selector selector)
      (Word.add (starts.getD region 0) offset)).worker = l.ledger.worker := by
    simp only [Ledger.write, hwork.worker]
  exact hworker

theorem advances_nameColumn (label : String) (column : Column) :
    (nameColumn label column).Advances logRows schema starts region := by
  intro l d _ d' hwork hknown _ hends _
  obtain ⟨t, ht, rfl⟩ := (Desk.ends_onTarget ..).1 hends
  have hready := ht.of_keeps
    (Prover.Ready.stable.callKeeps.nameColumn label column) hwork.sound.ready
  obtain rfl := (Prover.ends_record ..).1 ht
  exact ⟨hwork.stay hready ⟨rfl, rfl⟩ (.refl l) rfl, hknown⟩

theorem advances_queryAdvice (column offset : Nat) :
    (queryAdvice column offset).Advances logRows schema starts region := by
  intro l d _ d' hwork hknown _ hends _
  obtain ⟨t, ht, rfl⟩ := (Desk.ends_onTarget ..).1 hends
  obtain ⟨-, content, -, -, rfl⟩ := (Prover.ends_queryAdvice ..).1 ht
  exact ⟨hwork, hknown⟩

theorem advances_queryFixed (column offset : Nat) :
    (queryFixed column offset).Advances logRows schema starts region := by
  intro l d _ d' hwork hknown _ hends _
  obtain ⟨t, ht, rfl⟩ := (Desk.ends_onTarget ..).1 hends
  obtain ⟨-, content, -, -, rfl⟩ := (Prover.ends_queryFixed ..).1 ht
  exact ⟨hwork, hknown⟩

theorem advances_assignAdvice (hregion : region < starts.size) (label : String)
    (column offset : Nat) (value : Producer) :
    (assignAdvice label column offset value).Advances logRows schema starts region := by
  intro l d _ d' hwork hknown _ hends hassumed
  obtain ⟨_, _, hassign, hpure⟩ := (Run.ends_bind ..).1 hends
  obtain ⟨t, ht, rfl⟩ := (Desk.ends_onTarget ..).1 hassign
  obtain ⟨rfl, rfl⟩ := (Run.ends_pure ..).1 hpure
  obtain ⟨v, rfl, -, -, hwritten⟩ := hwork.assignAdvice hregion ht hassumed
  exact ⟨hwritten, hknown.mono _⟩

theorem advances_assignFixed (hregion : region < starts.size) (label : String)
    (column offset : Nat) (value : Producer) :
    (assignFixed label column offset value).Advances logRows schema starts region := by
  intro l d _ d' hwork hknown _ hends hassumed
  obtain ⟨_, _, hassign, hpure⟩ := (Run.ends_bind ..).1 hends
  obtain ⟨t, ht, rfl⟩ := (Desk.ends_onTarget ..).1 hassign
  obtain ⟨rfl, rfl⟩ := (Run.ends_pure ..).1 hpure
  obtain ⟨v, rfl, hwritten⟩ := hwork.assignFixed hregion ht hassumed
  exact ⟨hwritten, hknown.mono _⟩

/-- The constant that is asked for is the value of the cell that is due. -/
theorem advances_assignConstant (hregion : region < starts.size) (label : String)
    (column offset : Nat) (constant : Fraction) :
    (assignConstant label column offset constant).Advances logRows schema starts region := by
  intro l d _ d' hwork hknown _ hends hassumed
  obtain ⟨_, _, hassign, hrest⟩ := (Run.ends_bind ..).1 hends
  obtain ⟨t, ht, rfl⟩ := (Desk.ends_onTarget ..).1 hassign
  obtain ⟨_, _, hpush, hpure⟩ := (Run.ends_bind ..).1 hrest
  obtain rfl := (Run.ends_modify ..).1 hpush
  obtain ⟨rfl, rfl⟩ := (Run.ends_pure ..).1 hpure
  obtain ⟨v, rfl, hproduced, -, hwritten⟩ := hwork.assignAdvice hregion ht hassumed
  obtain rfl : v = constant := (Option.some.inj (Except.ok.inj hproduced)).symm
  refine ⟨hwritten, ?_⟩
  intro x hx
  -- the requests are the old ones and the one of this cell
  rcases Array.mem_push.1 hx with hx | rfl
  · exact hknown.mono _ x hx
  · exact .inr rfl

theorem advances_assignInput (hregion : region < starts.size) (label : String)
    (input row column offset : Nat) :
    (assignInput label input row column offset).Advances logRows schema starts region := by
  intro l d _ d' hwork hknown _ hends hassumed
  obtain ⟨value, _, hquery, hrest⟩ := (Run.ends_bind ..).1 hends
  obtain ⟨t, hinput, rfl⟩ := (Desk.ends_onTarget ..).1 hquery
  obtain ⟨_, _, hassign, hmore⟩ := (Run.ends_bind ..).1 hrest
  obtain ⟨u, ht, rfl⟩ := (Desk.ends_onTarget ..).1 hassign
  obtain ⟨_, _, hcopy, hpure⟩ := (Run.ends_bind ..).1 hmore
  obtain ⟨v, hconnect, rfl⟩ := (Desk.ends_onTarget ..).1 hcopy
  obtain ⟨rfl, rfl⟩ := (Run.ends_pure ..).1 hpure
  exact ⟨hwork.assignInput hregion hinput ht hconnect hassumed, hknown.mono _⟩

/-- While a region is written no constant may be demanded. -/
theorem advances_constrainConstant (cell : Cell) (constant : Fraction) :
    (constrainConstant cell constant).Advances logRows schema starts region := by
  intro l d _ d' hwork hknown hgranted hends _
  have hnone := hgranted _ rfl
  simp only [Register.Grants, hwork.worker, Worker.isRegion, Bool.true_eq_false] at hnone

theorem advances_constrainEqual (left right : Cell) :
    (constrainEqual left right).Advances logRows schema starts region := by
  intro l d _ d' hwork hknown hgranted hends _
  obtain ⟨b, hright, hrest⟩ := (Run.ends_ofExcept_bind ..).1 hends
  obtain ⟨a, hleft, hcopy⟩ := (Run.ends_ofExcept_bind ..).1 hrest
  obtain ⟨t, hconnect, rfl⟩ := (Desk.ends_onTarget ..).1 hcopy
  exact ⟨hwork.constrainEqual (hgranted _ rfl) hleft hright hconnect, hknown⟩

theorem advances_globalRow (offset : Nat) :
    (globalRow offset).Advances logRows schema starts region := by
  intro l d _ d' hwork hknown _ hends _
  obtain ⟨rfl, rfl⟩ := (Run.ends_pure ..).1 hends
  exact ⟨hwork, hknown⟩

/-- Every call does, while the region is one of those that are placed. -/
theorem advances (hregion : region < starts.size) (c : RegionCall) :
    c.Advances logRows schema starts region := by
  cases c with
  | enableSelector label selector offset => exact advances_enableSelector label selector offset
  | nameColumn label column => exact advances_nameColumn label column
  | queryAdvice column offset => exact advances_queryAdvice column offset
  | queryFixed column offset => exact advances_queryFixed column offset
  | assignAdvice label column offset value =>
    exact advances_assignAdvice hregion label column offset value
  | assignFixed label column offset value =>
    exact advances_assignFixed hregion label column offset value
  | assignConstant label column offset constant =>
    exact advances_assignConstant hregion label column offset constant
  | assignInput label input row column offset =>
    exact advances_assignInput hregion label input row column offset
  | constrainConstant cell constant => exact advances_constrainConstant cell constant
  | constrainEqual left right => exact advances_constrainEqual left right
  | globalRow offset => exact advances_globalRow offset

end RegionCall

/-- A call on a region, which demands no equality but one of copied cells, assigns cells that are
pinned from then on. -/
theorem secures_writeCall (hregion : region < starts.size) (c : RegionCall) :
    Secures monitor.trusting
      (fun l d => AtWork logRows schema starts region none l d.target ∧ Known none d.kept l ∧
        ∀ demand, c.announces? = some (.demanded demand) → l.Grants demand)
      (writeCall starts region c : Run (Desk Prover Requests) c.Reply)
      (fun reply l d => AtWork logRows schema starts region (c.cell? reply) l d.target ∧
        Known (c.cell? reply) d.kept l) := by
  refine .of_recounts (recounts_writeCall c) fun l d reply d' h hends hassumed => ?_
  exact c.advances hregion h.1 h.2.1 h.2.2 hends hassumed

/-- What a routine announces while its region is written leaves the register as it is. -/
theorem RegionCall.step_of_announces {c : RegionCall} {e : Event} (hannounces : c.announces? = some e)
    (hworker : l.ledger.worker = .region region) : l.step e = l := by
  have htouch : ∀ lane offset, l.step (.touched lane offset) = l := by
    intro lane offset
    simp only [Register.step, Ledger.step, Ledger.touch, hworker, Register.answer, Register.tabulate]
  cases c with
  | enableSelector | assignAdvice | assignFixed | assignConstant | assignInput =>
    cases hannounces
    exact htouch _ _
  | queryAdvice | queryFixed | constrainConstant | constrainEqual =>
    cases hannounces
    rfl
  | nameColumn | globalRow => cases hannounces

/-- A call that is announced demands only what may be demanded. -/
theorem secures_announce (c : RegionCall) :
    Secures monitor.trusting
      (fun l d => AtWork logRows schema starts region none l d.target ∧ Known none d.kept l)
      (c.announce : Run (Desk Prover Requests) Unit)
      (fun _ l d => AtWork logRows schema starts region none l d.target ∧ Known none d.kept l ∧
        ∀ demand, c.announces? = some (.demanded demand) → l.Grants demand) := by
  unfold RegionCall.announce
  cases hannounces : c.announces? with
  | none => exact .pure fun l d h => ⟨h.1, h.2, by simp⟩
  | some e =>
    refine .of_recounts (Recounts.emit e) fun l d _ d' h hends hassumed => ?_
    obtain rfl := (Run.ends_emit ..).1 hends
    -- announcing moves the register only where it measures
    have hsame : monitor.trusting.after l [e] = l := c.step_of_announces hannounces h.1.worker
    rw [hsame]
    refine ⟨h.1, h.2, ?_⟩
    -- a demand that was let pass is one the register grants
    rintro demand hdemand
    obtain rfl := Option.some.inj hdemand
    exact hassumed.1.1.2

/-- The routine is told of the cell that it is due. -/
theorem secures_acknowledge (c : RegionCall) (reply : c.Reply) :
    Secures monitor.trusting
      (fun l d => AtWork logRows schema starts region (c.cell? reply) l d.target ∧
        Known (c.cell? reply) d.kept l)
      (c.acknowledge reply : Run (Desk Prover Requests) Unit)
      (fun _ l d => AtWork logRows schema starts region none l d.target ∧ Known none d.kept l) := by
  unfold RegionCall.acknowledge
  cases hcell : c.cell? reply with
  | none => exact .pure fun l d h => h
  | some cell =>
    refine .of_recounts (Recounts.emit _) fun l d _ d' h hends _ => ?_
    obtain rfl := (Run.ends_emit ..).1 hends
    -- the cell that is due becomes a handle, with the value pinned at its square
    obtain ⟨v, a, hvalue, hposition, hpinned⟩ := h.1.due cell rfl
    refine ⟨⟨h.1.sound.answer hvalue hposition hpinned, h.1.worker, by simp⟩, ?_⟩
    intro x hx
    left
    rcases h.2 x hx with hold | hdue
    · exact List.mem_append_left _ hold
    · rw [← Option.some.inj hdue]
      exact List.mem_append_right _ (List.mem_singleton_self _)

theorem secures_announcedCall (hregion : region < starts.size) (c : RegionCall) :
    Secures monitor.trusting
      (fun l d => AtWork logRows schema starts region none l d.target ∧ Known none d.kept l)
      (announcedCall starts region c : Run (Desk Prover Requests) c.Reply)
      (fun _ l d => AtWork logRows schema starts region none l d.target ∧ Known none d.kept l) := by
  refine (secures_announce c).bind fun _ => ?_
  refine (secures_writeCall hregion c).bind fun reply => ?_
  exact (secures_acknowledge c reply).bind fun _ => .pure fun _ _ h => h

/-! ## Regions -/

/-- The opening and the closing of a region change no value. -/
theorem secures_enterRegion (name : String) :
    Secures monitor.trusting (Sound logRows schema false starts) (Prover.enterRegion name)
      fun _ => Sound logRows schema true starts := by
  refine .of_silent (Prover.silent_enterRegion name) fun l p a q h hends => ?_
  obtain ⟨-, rfl⟩ := (Prover.ends_enterRegion ..).1 hends
  exact h.stay ⟨{ h.ready.idle with opened_eq := rfl }, h.ready.supplied⟩ ⟨rfl, rfl⟩ (.refl l)

theorem secures_exitRegion :
    Secures monitor.trusting (Sound logRows schema true starts) Prover.exitRegion
      fun _ => Sound logRows schema false starts := by
  refine .of_silent Prover.silent_exitRegion fun l p a q h hends => ?_
  obtain ⟨record, -, rfl⟩ := (Prover.ends_exitRegion ..).1 hends
  exact h.stay ⟨{ h.ready.idle with opened_eq := rfl }, h.ready.supplied⟩ ⟨rfl, rfl⟩ (.refl l)

/-- What is done between the opening and the closing of a region may use that the region is open. -/
theorem secures_withinRegion {I : κ → Register → Prop}
    (hI : ∀ kept l e, I kept l → I kept (l.step e)) (name : String) {body : Run (Desk Prover κ) α}
    (hbody : Secures monitor.trusting (fun l d => Sound logRows schema true starts l d.target ∧ I d.kept l)
      body fun _ l d => Sound logRows schema true starts l d.target ∧ I d.kept l) :
    Secures monitor.trusting (fun l d => Sound logRows schema false starts l d.target ∧ I d.kept l)
      (withinRegion name body)
      fun _ l d => Sound logRows schema false starts l d.target ∧ I d.kept l := by
  refine ((secures_enterRegion name).onTarget hI).bind fun _ => ?_
  refine hbody.attempt_bind (fun a => ?_) ?_
  · exact (secures_exitRegion.onTarget hI).bind fun _ => .pure fun _ _ h => h
  · intro fault d a d' hends
    obtain ⟨_, u, -, hsettle⟩ := (Run.ends_bind ..).1 hends
    obtain ⟨herror, -⟩ := (Run.ends_settle ..).1 hsettle
    cases herror

/-- A region of a circuit that is sound by construction leaves a sound witness, and the constants
that it asks for are to equal cells that its routine was answered with. -/
theorem secures_writeRegion (hregion : region < starts.size) (name : String) {routine : Routine α}
    (hroutine : routine.Propagates) :
    Secures monitor.trusting (Sound logRows schema false starts)
      (writeRegion starts region name routine)
      fun w l p => Sound logRows schema false starts l p ∧ Known none w.2 l := by
  have hcalls := Program.secures_run
    (P := fun l (d : Desk Prover Requests) =>
      AtWork logRows schema starts region none l d.target ∧ Known none d.kept l)
    (C := fun _ => True) (fun l n d h => h) (fun c _ => secures_announcedCall hregion c) hroutine
    (Program.every_true _)
  -- the body begins with its region named and no cell due
  have hbody : Secures monitor.trusting
      (fun l d => Sound logRows schema true starts l d.target ∧ Known none d.kept l)
      (do
        Run.emit (.pass region .writing)
        routine.run (announcedCall starts region) : Run (Desk Prover Requests) α)
      (fun _ l d => Sound logRows schema true starts l d.target ∧ Known none d.kept l) := by
    refine Secures.bind (Q := fun _ l d =>
      AtWork logRows schema starts region none l d.target ∧ Known none d.kept l) ?_ fun _ => ?_
    · refine .of_recounts (Recounts.emit _) fun l d _ d' h hends _ => ?_
      obtain rfl := (Run.ends_emit ..).1 hends
      exact ⟨⟨h.1.stay h.1.ready ⟨rfl, rfl⟩ (Register.agrees_of_idles trivial), rfl, by simp⟩, h.2⟩
    · exact hcalls.imp_post fun _ l d h => ⟨h.1.sound, h.2⟩
  -- opening and closing the region keep what is known
  have hwithin := secures_withinRegion (I := Known none) (fun _ _ _ => known_step) name hbody
  refine Secures.zoom (P := fun l d => Sound logRows schema false starts l d.target ∧
      Known none d.kept l) (Q := fun w l d => Sound logRows schema false starts l d.target ∧
      Known none w.2 l) ?_ ?_ fun _ _ _ _ _ _ h => h
  · refine hwithin.bind fun a => ?_
    refine Secures.of_silent ?_ ?_
    · exact (Recounts.get.map _).after fun _ => Recounts.pure _
    · intro l d w d' h hends
      obtain ⟨_, _, hkept, hpure⟩ := (Run.ends_bind ..).1 hends
      obtain ⟨_, hget, rfl⟩ := (Run.ends_map ..).1 hkept
      obtain ⟨rfl, rfl⟩ := (Run.ends_get ..).1 hget
      obtain ⟨rfl, rfl⟩ := (Run.ends_pure ..).1 hpure
      exact h
  · -- at the start nothing was requested
    exact fun l p h => ⟨h, by simp [Known]⟩

end CircuitLayout
