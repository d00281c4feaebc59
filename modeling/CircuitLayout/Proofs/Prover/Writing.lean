import CircuitLayout.Proofs.Planner.Requests
import CircuitLayout.Proofs.Prover.Underway

namespace CircuitLayout

/-! # Regions written on provers under way

A region is written if it can be opened, if its routine succeeds, and if it can be closed. On a prover
under way that is up to the routine, and a routine succeeds if its calls do, one after another. Main
statements: `ends_writeRegion`, and what calls of routines do to a prover under way.
-/

variable {σ α : Type}

/-! ## Routines and their calls -/

/-- A program that goes on with another one succeeds if it does and then the other one. -/
theorem Program.ends_run_bind {I : Interface} {β : Type} {handle : (c : I.Call) → Run σ (I.Reply c)}
    {p : Program I α} {f : α → Program I β} {s t : σ} {b : β} :
    ((p >>= f).run handle).Ends s b t ↔
      ∃ a u, (p.run handle).Ends s a u ∧ ((f a).run handle).Ends u b t := by
  show ((p.bind f).run handle).Ends s b t ↔ _
  rw [run_bind, Run.ends_bind]

/-- A call on its own succeeds if it does. -/
theorem Program.ends_perform {I : Interface} {handle : (c : I.Call) → Run σ (I.Reply c)} {c : I.Call}
    {s t : σ} {r : I.Reply c} : ((perform c).run handle).Ends s r t ↔ (handle c).Ends s r t := by
  refine (ends_run_call (fun _ => .fail) s r t).trans ⟨?_, fun h => ⟨r, t, h, rfl, rfl⟩⟩
  rintro ⟨_, _, h, hdone⟩
  obtain ⟨rfl, rfl⟩ := (Run.ends_pure ..).1 hdone
  exact h

section Regions

variable [Assignment σ] {starts : Array Nat} {region : Nat}

/-- A call succeeds whatever is told of it. -/
theorem ends_announcedCall {c : RegionCall} {d e : Desk σ Requests} {reply : c.Reply} :
    (announcedCall starts region c).Ends d reply e ↔ (writeCall starts region c).Ends d reply e := by
  obtain ⟨hresult, hstate⟩ := announcedCall_apply starts region c d
  rw [Run.Ends, hresult, hstate, ← Run.Ends]

/-- A region is written if it is opened, its routine succeeds, and it is closed. -/
theorem ends_writeRegion {name : String} {routine : Routine α} {s t : σ} {a : α}
    {requests : Requests} :
    (writeRegion starts region name routine).Ends s (a, requests) t ↔
      ∃ u v, (Assignment.enterRegion name).Ends s () u ∧
        (routine.run (announcedCall starts region)).Ends ⟨u, #[]⟩ a ⟨v, requests⟩ ∧
        Assignment.exitRegion.Ends v () t := by
  rw [writeRegion, Run.ends_zoom]
  constructor
  · rintro ⟨e, hends, rfl⟩
    obtain ⟨b, d, hwithin, hrest⟩ := (Run.ends_bind ..).1 hends
    -- the requests read back are those of the desk as the region left it
    rw [Run.Ends, Desk.getKept_bind_apply, ← Run.Ends] at hrest
    obtain ⟨hpair, rfl⟩ := (Run.ends_pure ..).1 hrest
    obtain ⟨rfl, rfl⟩ := Prod.mk.inj hpair
    obtain ⟨_, v, henter, hbody, hexit⟩ := (Desk.ends_withinRegion ..).1 hwithin
    obtain ⟨u, hopen, rfl⟩ := (Desk.ends_onTarget ..).1 henter
    obtain ⟨w, hclose, rfl⟩ := (Desk.ends_onTarget ..).1 hexit
    exact ⟨u, v.target, hopen, (Run.ends_emit_bind ..).1 hbody, hclose⟩
  · rintro ⟨u, v, hopen, hroutine, hclose⟩
    -- conversely, the three parts make up the run
    refine ⟨⟨t, requests⟩, (Run.ends_bind ..).2 ⟨a, ⟨t, requests⟩, ?_, ?_⟩, rfl⟩
    · exact (Desk.ends_withinRegion ..).2 ⟨⟨u, #[]⟩, ⟨v, requests⟩,
        (Desk.ends_onTarget ..).2 ⟨u, hopen, rfl⟩, (Run.ends_emit_bind ..).2 hroutine,
        (Desk.ends_onTarget ..).2 ⟨t, hclose, rfl⟩⟩
    · rw [Run.Ends, Desk.getKept_bind_apply, ← Run.Ends]
      exact (Run.ends_pure ..).2 ⟨rfl, rfl⟩

end Regions

namespace Prover.Underway

open Desk (onTarget)

variable {logRows : Nat} {schema : Schema} {inputs : Array (Array Content)} {starts : Array Nat}
  {region : Nat} {d : Desk Prover Requests}

/-! ## Calls of routines -/

/-- The row of a cell is that of its place. -/
theorem row_of_positionOf {offset : Nat} {column : Column} {a : Position}
    (h : positionOf starts ⟨region, offset, column⟩ = .ok a) :
    Word.add (starts.getD region 0) offset = a.row :=
  (congrArg Position.row (eq_of_positionOf h)).symm

/-- What a prover does, it does on a desk. -/
theorem ends_onTarget {κ : Type} {m : Run Prover α} {d : Desk Prover κ} {a : α} {q : Prover}
    (h : m.Ends d.target a q) : (onTarget m).Ends d a { d with target := q } :=
  (Desk.ends_onTarget ..).2 ⟨q, h, rfl⟩

/-- Naming a column succeeds and changes nothing that is held. -/
theorem nameColumn (h : d.target.Underway logRows schema inputs true) (starts : Array Nat)
    (region : Nat) (label : String) (column : Column) :
    ∃ q, (announcedCall starts region (.nameColumn label column)).Ends d () { d with target := q } ∧
      q.Underway logRows schema inputs true ∧ d.target.SameValues q := by
  obtain ⟨q, hends, hq, hsame⟩ := h.record (·.nameColumn column label)
  exact ⟨q, ends_announcedCall.2 (ends_onTarget hends), hq, hsame⟩

/-- So does enabling a selector of the schema on a usable row. -/
theorem callSelector (h : d.target.Underway logRows schema inputs true) (label : String)
    {selector : Selector} {offset row : Nat} (hselector : selector.index < schema.selectorCount)
    (hat : Word.add (starts.getD region 0) offset = row)
    (hrow : row ∈ Board.usableRows logRows schema) :
    ∃ q, (announcedCall starts region (.enableSelector label selector offset)).Ends d ()
        { d with target := q } ∧
      q.Underway logRows schema inputs true ∧ d.target.SameValues q := by
  subst hat
  obtain ⟨q, hends, hq, hsame⟩ := h.enableSelector hselector hrow
  exact ⟨q, ends_announcedCall.2 (ends_onTarget hends), hq, hsame⟩

/-- No other row is accepted. -/
theorem usable_of_callSelector (h : d.target.Underway logRows schema inputs true) {label : String}
    {selector : Selector} {offset row : Nat} {e : Desk Prover Requests}
    (hat : Word.add (starts.getD region 0) offset = row)
    (hends : (announcedCall starts region (.enableSelector label selector offset)).Ends d () e) :
    row ∈ Board.usableRows logRows schema := by
  subst hat
  obtain ⟨q, hends, -⟩ := (Desk.ends_onTarget ..).1 (ends_announcedCall.1 hends)
  exact (h.writable_iff _).1 ((ends_enableSelector ..).1 hends).1

/-- An advice cell that a value is given for is written, and the call is answered with it. -/
theorem callAdvice (h : d.target.Underway logRows schema inputs true) (label : String)
    {column offset row : Nat} {value : Producer} {v : Fraction} (hcolumn : column < schema.adviceCount)
    (hat : Word.add (starts.getD region 0) offset = row)
    (hrow : row ∈ Board.usableRows logRows schema) (hvalue : value () = .ok (some v)) :
    ∃ q, (announcedCall starts region (.assignAdvice label column offset value)).Ends d
        (AssignedCell.mk ⟨region, offset, .advice column⟩ (some v)) { d with target := q } ∧
      q.Underway logRows schema inputs true ∧
      Sets ⟨.advice column, row⟩ v.evaluate d.target q := by
  subst hat
  obtain ⟨q, hends, hq, hsets⟩ := h.assignAdvice label hcolumn hrow hvalue
  have hcall : (Assignment.assignAdvice label column (Word.add (starts.getD region 0) offset)
      value).Ends d.target (some v) q := (Run.ends_map ..).2 ⟨v, hends, rfl⟩
  refine ⟨q, ends_announcedCall.2 ((Run.ends_bind ..).2 ⟨_, _, ends_onTarget hcall, ?_⟩), hq, hsets⟩
  exact (Run.ends_pure ..).2 ⟨rfl, rfl⟩

/-- A constant is written, and asked for. -/
theorem callConstant (h : d.target.Underway logRows schema inputs true) (label : String)
    {column offset row : Nat} (constant : Fraction) (hcolumn : column < schema.adviceCount)
    (hat : Word.add (starts.getD region 0) offset = row)
    (hrow : row ∈ Board.usableRows logRows schema) :
    ∃ q, (announcedCall starts region (.assignConstant label column offset constant)).Ends d
        (AssignedCell.mk ⟨region, offset, .advice column⟩ (some constant))
        ⟨q, d.kept.push (constant, ⟨region, offset, .advice column⟩)⟩ ∧
      q.Underway logRows schema inputs true ∧
      Sets ⟨.advice column, row⟩ constant.evaluate d.target q := by
  subst hat
  have hknown : Producer.known constant () = .ok (some constant) := rfl
  obtain ⟨q, hends, hq, hsets⟩ := h.assignAdvice label hcolumn hrow hknown
  have hcall : (Assignment.assignAdvice label column (Word.add (starts.getD region 0) offset)
      (.known constant)).Ends d.target (some constant) q := (Run.ends_map ..).2 ⟨_, hends, rfl⟩
  refine ⟨q, ends_announcedCall.2 ((Run.ends_bind ..).2 ⟨_, _, ends_onTarget hcall, ?_⟩), hq, hsets⟩
  exact (Run.ends_bind ..).2 ⟨(), _, (Run.ends_modify ..).2 rfl, (Run.ends_pure ..).2 ⟨rfl, rfl⟩⟩

/-- Two placed cells of columns that take part in copies are made equal. -/
theorem callEqual (h : d.target.Underway logRows schema inputs true) (region : Nat)
    {left right : Cell} {a b : Position} (hleft : positionOf starts left = .ok a)
    (hright : positionOf starts right = .ok b)
    (ha : a.column ∈ schema.equality ∧ a.row ∈ Board.usableRows logRows schema)
    (hb : b.column ∈ schema.equality ∧ b.row ∈ Board.usableRows logRows schema) :
    ∃ q, (announcedCall starts region (.constrainEqual left right)).Ends d ()
        { d with target := q } ∧
      q.Underway logRows schema inputs true ∧ q.valueAt? = d.target.valueAt? ∧
      q.board.copies = d.target.board.copies.push (a, b) := by
  obtain ⟨q, hends, hq, hvalues, hcopies⟩ := h.copy a b ha hb
  refine ⟨q, ends_announcedCall.2 ?_, hq, hvalues, hcopies⟩
  exact (Run.ends_ofExcept_bind ..).2 ⟨b, hright, (Run.ends_ofExcept_bind ..).2
    ⟨a, hleft, ends_onTarget hends⟩⟩

/-- The value of a placed cell is written to another one, and the two are made equal. -/
theorem copyAdvice (h : d.target.Underway logRows schema inputs true) {source : AssignedCell}
    {v : Fraction} {a : Position} (hvalue : source.value = some v)
    (hsource : positionOf starts source.cell = .ok a)
    (ha : a.column ∈ schema.equality ∧ a.row ∈ Board.usableRows logRows schema) (label : String)
    {column offset row : Nat} (hcolumn : column < schema.adviceCount)
    (hequality : .advice column ∈ schema.equality)
    (hplace : positionOf starts ⟨region, offset, .advice column⟩ = .ok ⟨.advice column, row⟩)
    (hrow : row ∈ Board.usableRows logRows schema) :
    ∃ q r, ((Routine.copyAdvice source label column offset).run (announcedCall starts region)).Ends d
        (AssignedCell.mk ⟨region, offset, .advice column⟩ (some v)) { d with target := r } ∧
      (q.Underway logRows schema inputs true ∧ Sets ⟨.advice column, row⟩ v.evaluate d.target q) ∧
      r.Underway logRows schema inputs true ∧ r.valueAt? = q.valueAt? ∧
      r.board.copies = q.board.copies.push (⟨.advice column, row⟩, a) := by
  have hgiven : Producer.ofOption source.value () = .ok (some v) := congrArg Except.ok hvalue
  obtain ⟨q, hassign, hq, hsets⟩ := h.callAdvice label hcolumn (row_of_positionOf hplace) hrow hgiven
  obtain ⟨r, hequal, hr, hvalues, hcopies⟩ := callEqual (d := { d with target := q }) hq region hplace
    hsource ⟨hequality, hrow⟩ ha
  refine ⟨q, r, ?_, ⟨hq, hsets⟩, hr, hvalues, hcopies⟩
  refine Program.ends_run_bind.2 ⟨_, _, Program.ends_perform.2 hassign, ?_⟩
  exact Program.ends_run_bind.2 ⟨_, _, Program.ends_perform.2 hequal, (Run.ends_pure ..).2 ⟨rfl, rfl⟩⟩

end Prover.Underway

end CircuitLayout
