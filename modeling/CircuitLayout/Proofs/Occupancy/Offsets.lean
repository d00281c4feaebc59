import CircuitLayout.Proofs.Forks.Batches
import CircuitLayout.Proofs.Occupancy.Regions
import CircuitLayout.Proofs.Prover.Effects

namespace CircuitLayout

/-! # Offsets and rows

An offset of a region becomes a row in three sums of words: the row behind it while the region is
measured, the row behind the region when it is placed, and the row itself when it is written. Main
statement: `Planner.row_of_write`, a call that takes up a square writes the row that is the sum of the
two numbers, which lies in the window of the region, unless this sum is no word; then it writes a row
before the region.
-/

open Desk (onTarget getKept modifyKept)

variable {σ α β : Type}

/-! ## Sums of words -/

/-- A sum that is no word wraps below the first number. -/
theorem Word.add_lt_of_le {a b : Nat} (hb : b < size) (hsum : size ≤ a + b) : add a b < a := by
  have hwrap : (a + b) % size = (a + b - size) % size := Nat.mod_eq_sub_mod hsum
  have hle : (a + b - size) % size ≤ a + b - size := Nat.mod_le _ _
  have hadd : add a b = (a + b) % size := rfl
  omega

/-! ## Measured offsets -/

/-- A run on a state of its own tells the same events. -/
theorem Run.events_within {τ : Type} (own : τ) (m : Run τ α) (s : σ) :
    (Run.within own m s).events = (m own).events := by
  unfold Run.within
  cases h : m own with
  | mk result t es =>
    cases result with
    | error fault => rfl
    | ok a => rfl

namespace Footprint

/-- Does a run on a footprint lower no height, and leave a height above each offset that it tells of?
An offset without a word behind it does not count. -/
def Covers (m : Run Footprint α) : Prop :=
  ∀ f, f.height ≤ (m f).state.height ∧ ∀ lane offset, .touched lane offset ∈ (m f).events →
    offset + 1 < Word.size → offset < (m f).state.height

/-- A run that tells nothing is covered. -/
theorem Covers.pure (a : α) : Covers (Pure.pure a : Run Footprint α) :=
  fun _ => ⟨Nat.le_refl _, fun _ _ h => absurd h List.not_mem_nil⟩

/-- Of two runs after each other, the second only adds to what the first has covered. -/
theorem Covers.bind {m : Run Footprint α} {n : α → Run Footprint β} (hm : Covers m)
    (hn : ∀ a, Covers (n a)) : Covers (m >>= n) := by
  intro f
  have hfirst := hm f
  rw [Run.bind_apply]
  cases h : m f with
  | mk result g es =>
    rw [h] at hfirst
    cases result with
    | error fault => exact hfirst
    | ok a =>
      have hrest := hn a g
      refine ⟨Nat.le_trans hfirst.1 hrest.1, fun lane offset htouched hoffset => ?_⟩
      -- the height only grows, so what the first run touched stays below it
      rcases List.mem_append.1 htouched with hbefore | hafter
      · have hbelow := hfirst.2 lane offset hbefore hoffset
        exact Nat.lt_of_lt_of_le hbelow hrest.1
      · -- and what the second run touched does so by itself
        exact hrest.2 lane offset hafter hoffset

/-- A call that is measured raises the height above the offset that it takes up. -/
theorem covers_observe (c : RegionCall) :
    Covers (do
      c.announce
      observe c : Run Footprint c.Reply) := by
  intro f
  obtain ⟨hsilent, hstate⟩ := observe_eq c f
  cases htakes : c.takes? with
  | none =>
    rw [htakes] at hstate
    -- what is announced is no offset, and the footprint stays as it is
    obtain ⟨hok, hsame⟩ := (c.ends_announce f f ()).2 rfl
    have hquiet : ∀ lane offset, .touched lane offset ∉
        ((c.announce : Run Footprint Unit) f).events := fun lane offset htouched =>
      absurd (RegionCall.quiet_announce htakes f _ htouched) id
    rw [Run.bind_apply]
    cases h : (c.announce : Run Footprint Unit) f with
    | mk result g es =>
      rw [h] at hok hsame hquiet
      subst hok hsame
      simp only [hsilent, hstate, List.append_nil]
      exact ⟨Nat.le_refl _, fun lane offset htouched => absurd htouched (hquiet lane offset)⟩
  | some t =>
    obtain ⟨lane, offset⟩ := t
    rw [htakes] at hstate
    rw [RegionCall.announce_of_takes htakes, Run.bind_apply]
    simp only [Run.emit, hsilent, hstate, List.append_nil, List.mem_singleton]
    -- the one touch that is announced is the one that the footprint keeps
    refine ⟨height_le_touch f lane offset, fun other taken htouched hoffset => ?_⟩
    obtain ⟨rfl, rfl⟩ := Event.touched.inj htouched
    exact offset_lt_touch f other hoffset

/-- A footprint covers every offset its routine touches. -/
theorem covers_run (routine : Routine α) :
    Covers (routine.run fun (c : RegionCall) => do
      c.announce
      observe c : Run Footprint α) := by
  induction routine with
  | done a => exact .pure a
  | fail fault => exact fun _ => ⟨Nat.le_refl _, fun _ _ h => absurd h List.not_mem_nil⟩
  | note n rest ih =>
    refine Covers.bind (fun _ => ⟨Nat.le_refl _, fun _ _ h => ?_⟩) fun _ => ih
    cases List.mem_singleton.1 h
  | call c next ih => exact Covers.bind (covers_observe c) fun reply => ih reply

/-- The height of a measured region lies above the offsets that its routine takes up. -/
theorem offset_lt_of_touched {region : Nat} {routine : Routine α} {shape : Footprint} {s s' : σ}
    (hmeasured : (measure region routine : Run σ Footprint).Ends s shape s') {lane : Lane}
    {offset : Nat} (htouched : .touched lane offset ∈ (measure region routine s).events)
    (hoffset : offset + 1 < Word.size) : offset < shape.height := by
  have hrun := covers_run routine (blank region)
  obtain ⟨⟨a, own⟩, hends, rfl⟩ := (Run.ends_map ..).1 hmeasured
  obtain ⟨hown, -⟩ := (Run.ends_within ..).1 hends
  rw [hown.2] at hrun
  rw [measure, Run.events_map, Run.events_within] at htouched
  exact hrun.2 lane offset htouched hoffset

end Footprint

/-! ## Written squares -/

namespace Board

variable {φ : Type}

/-- Does a board have, besides the copies of another one, only copies that begin on a square? -/
def CopiesFrom (lane : Lane) (row : Nat) (b c : Board φ) : Prop :=
  ∃ copies, c.copies.toList = b.copies.toList ++ copies ∧
    ∀ x ∈ copies, lane = .column x.1.column ∧ x.1.row = row

/-- Where no copy is made, no copy is made from elsewhere. -/
theorem CopiesFrom.same {lane : Lane} {row : Nat} {b c : Board φ} (h : c.copies = b.copies) :
    b.CopiesFrom lane row c := ⟨[], by rw [h, List.append_nil], fun _ hx => absurd hx List.not_mem_nil⟩

/-- A copy that is made changes no cell and begins on its left square. -/
theorem of_ends_copy_from {b c : Board φ} {left right : Position}
    (hends : (copy left right).Ends b () c) :
    b.SameCells c ∧ b.CopiesFrom (.column left.column) left.row c := by
  refine ⟨sameCells_of_copy hends, [(left, right)], ?_, fun x hx => ?_⟩
  · rw [copies_of_copy hends, Array.toList_push]
  · obtain rfl := List.mem_singleton.1 hx
    exact ⟨rfl, rfl⟩

end Board

section Calls

variable {starts : Array Nat} {region offset : Nat} {lane : Lane} {c : RegionCall} {reply : c.Reply}

/-- A call on a prover that takes up a square writes it, at the row that the offset comes to. -/
theorem Prover.writes_of_ends_writeCall (htakes : c.takes? = some (lane, offset))
    {t t' : Desk Prover Requests} (hends : (writeCall starts region c).Ends t reply t') :
    let row := Word.add (starts.getD region 0) offset
    row ∈ t.target.board.usable ∧ t.target.Writes lane row t'.target ∧
      t.target.board.CopiesFrom lane row t'.target.board := by
  cases c with
  | enableSelector label selector offset =>
    -- a selector is switched on
    cases htakes
    obtain ⟨p, hcall, rfl⟩ := (Desk.ends_onTarget ..).1 hends
    obtain ⟨hrow, selectors, hset, rfl⟩ := (ends_enableSelector ..).1 hcall
    exact ⟨hrow.2.1, ⟨⟨hset, rfl⟩, rfl⟩, .same rfl⟩
  | assignAdvice label column offset value =>
    cases htakes
    obtain ⟨_, u, hwrite, hpure⟩ := (Run.ends_bind ..).1 hends
    obtain ⟨-, rfl⟩ := (Run.ends_pure ..).1 hpure
    obtain ⟨p, hcall, rfl⟩ := (Desk.ends_onTarget ..).1 hwrite
    obtain ⟨v, hassign, -⟩ := (Run.ends_map ..).1 hcall
    obtain ⟨hrow, advice, hset, rfl⟩ := (ends_assignAdvice ..).1 hassign
    exact ⟨hrow.1.2.1, ⟨⟨rfl, rfl⟩, v, hset⟩, .same rfl⟩
  | assignFixed label column offset value =>
    cases htakes
    obtain ⟨_, u, hwrite, hpure⟩ := (Run.ends_bind ..).1 hends
    obtain ⟨-, rfl⟩ := (Run.ends_pure ..).1 hpure
    obtain ⟨p, hcall, rfl⟩ := (Desk.ends_onTarget ..).1 hwrite
    obtain ⟨v, hassign, -⟩ := (Run.ends_map ..).1 hcall
    obtain ⟨hrow, fixed, hset, rfl⟩ := (ends_assignFixed ..).1 hassign
    exact ⟨hrow.1.2.1, ⟨⟨⟨v, hset⟩, rfl⟩, rfl⟩, .same rfl⟩
  | assignConstant label column offset constant =>
    cases htakes
    obtain ⟨_, u, hwrite, hrest⟩ := (Run.ends_bind ..).1 hends
    obtain ⟨p, hcall, rfl⟩ := (Desk.ends_onTarget ..).1 hwrite
    obtain ⟨v, hassign, -⟩ := (Run.ends_map ..).1 hcall
    obtain ⟨hrow, advice, hset, rfl⟩ := (ends_assignAdvice ..).1 hassign
    -- what is kept beside the prover is no matter
    obtain ⟨_, w, hkept, hpure⟩ := (Run.ends_bind ..).1 hrest
    obtain ⟨-, rfl⟩ := (Run.ends_pure ..).1 hpure
    obtain rfl := (Run.ends_modify ..).1 hkept
    exact ⟨hrow.1.2.1, ⟨⟨rfl, rfl⟩, v, hset⟩, .same rfl⟩
  -- an input is looked up, written and joined to its cell, in that order
  | assignInput label input inputRow column offset =>
    cases htakes
    obtain ⟨x, u, hquery, hrest⟩ := (Run.ends_bind ..).1 hends
    obtain ⟨p, hinput, rfl⟩ := (Desk.ends_onTarget ..).1 hquery
    obtain ⟨-, cells, -, -, rfl⟩ := (ends_queryInput ..).1 hinput
    obtain ⟨_, u', hwrite, hrest⟩ := (Run.ends_bind ..).1 hrest
    obtain ⟨p', hcall, rfl⟩ := (Desk.ends_onTarget ..).1 hwrite
    obtain ⟨v, hassign, -⟩ := (Run.ends_map ..).1 hcall
    obtain ⟨hrow, advice, hset, rfl⟩ := (ends_assignAdvice ..).1 hassign
    obtain ⟨_, w, hcopy, hpure⟩ := (Run.ends_bind ..).1 hrest
    obtain ⟨-, rfl⟩ := (Run.ends_pure ..).1 hpure
    obtain ⟨q, honto, rfl⟩ := (Desk.ends_onTarget ..).1 hcopy
    obtain ⟨b, hconnect, rfl⟩ := (ends_onBoard ..).1 honto
    obtain ⟨hcells, hcopies⟩ := Board.of_ends_copy_from hconnect
    exact ⟨hrow.1.2.1, ⟨hcells, v, hset⟩, hcopies⟩
  | nameColumn | queryAdvice | queryFixed | constrainConstant | constrainEqual | globalRow => cases htakes

/-- A selector or a fixed cell that a call on a key builder takes up is written, at the row that the
offset comes to. -/
theorem KeyBuilder.writes_of_ends_writeCall (htakes : c.takes? = some (lane, offset))
    (hlane : ∀ index, lane ≠ .column (.advice index)) {t t' : Desk KeyBuilder Requests}
    (hends : (writeCall starts region c).Ends t reply t') :
    let row := Word.add (starts.getD region 0) offset
    row ∈ t.target.board.usable ∧ t.target.board.Writes id lane row t'.target.board ∧
      t.target.board.CopiesFrom lane row t'.target.board := by
  cases c with
  | enableSelector label selector offset =>
    cases htakes
    obtain ⟨k, hcall, rfl⟩ := (Desk.ends_onTarget ..).1 hends
    obtain ⟨hrow, selectors, hset, hboard⟩ :=
      (Board.ends_enableSelector ..).1 ((ends_onBoard ..).1 hcall)
    rw [hboard]
    exact ⟨hrow.2.1, ⟨hset, rfl⟩, .same rfl⟩
  | assignFixed label column offset value =>
    cases htakes
    obtain ⟨_, u, hwrite, hpure⟩ := (Run.ends_bind ..).1 hends
    obtain ⟨-, rfl⟩ := (Run.ends_pure ..).1 hpure
    obtain ⟨k, hcall, rfl⟩ := (Desk.ends_onTarget ..).1 hwrite
    obtain ⟨v, hassign, -⟩ := (Run.ends_map ..).1 hcall
    obtain ⟨hrow, fixed, hset, hboard⟩ :=
      (Board.ends_assignFixed ..).1 ((ends_onBoard ..).1 hassign)
    rw [hboard]
    exact ⟨hrow.1.2.1, ⟨⟨v, hset⟩, rfl⟩, .same rfl⟩
  | assignAdvice | assignConstant | assignInput =>
    cases htakes
    -- these write to advice columns, of which a key builder keeps nothing
    exact absurd rfl (hlane _)
  | nameColumn | queryAdvice | queryFixed | constrainConstant | constrainEqual | globalRow => cases htakes

end Calls

/-! ## Placed regions -/

/-- The row that an offset of a placed region comes to, if it can be used and the routine took the
offset up while it was measured. -/
theorem Planner.row_of_touched {name : String} {routine : Routine α} {d d' : Layout σ}
    {span usable : RowSpan} {starts : Array Nat} {lane : Lane} {offset : Nat}
    (hplaced : (measureAndPlace name routine).Ends d span d')
    (hstarts : d'.kept.starts.toList <+: starts.toList)
    (htouched : .touched lane offset ∈ (Footprint.measure d.kept.starts.size routine d).events)
    (hoffset : offset < Word.size) (hwords : usable.stop < Word.size)
    (husable : Word.add (starts.getD d.kept.starts.size 0) offset ∈ usable) :
    starts.getD d.kept.starts.size 0 = span.start ∧
    ∃ shape, (Footprint.measure d.kept.starts.size routine d).result = .ok shape ∧
      (span.start + offset < Word.size → Word.add span.start offset = span.start + offset ∧
        Word.add span.start offset < span.start + shape.height) ∧
      (Word.size ≤ span.start + offset → Word.add span.start offset < span.start) := by
  obtain ⟨shape, hmeasured, rfl, rfl⟩ := of_ends_measureAndPlace hplaced
  -- the region begins where it was placed
  have hstart : starts.getD d.kept.starts.size 0 = (d.kept.frontiers.place shape).1 := by
    obtain ⟨later, hlater⟩ := hstarts
    rw [Array.getD_eq_getD_getElem?, ← Array.getElem?_toList, ← hlater]
    simp
  rw [hstart] at husable
  refine ⟨hstart, shape, hmeasured.1, ?_⟩
  constructor
  · intro hsum
    have hrow := Word.add_of_lt hsum
    rw [hrow, RowSpan.mem_iff] at husable
    -- the last offset has no word behind it, but the row that it comes to cannot be used
    have hbelow := Footprint.offset_lt_of_touched hmeasured htouched (by omega)
    exact ⟨hrow, by omega⟩
  · exact Word.add_lt_of_le hoffset

/-- A region is measured and placed by a planner in any state, and later, while regions are written,
a call takes up an offset that the routine took up while it was measured. If the call succeeds, it
writes one square of its lane, and all copies that it adds begin there. The row of the square is the
start of the region plus the offset and lies in the rows that were measured for the region, unless
this sum is no word: then it is a row before the region. -/
theorem Planner.row_of_write (logRows : Nat) (schema : Schema) {name : String} {routine : Routine α}
    {starts : Array Nat} {span : RowSpan} {c : RegionCall} {reply : c.Reply} {lane : Lane}
    {offset : Nat} (htakes : c.takes? = some (lane, offset)) (hoffset : offset < Word.size) :
    (∀ {inputs : List (List Goldilocks)} {new : Prover} {d d' : Layout Prover}
      {t t' : Desk Prover Requests},
      Prover.create logRows schema inputs = .ok new → Descends new t.target →
      (measureAndPlace name routine).Ends d span d' → d'.kept.starts.toList <+: starts.toList →
      .touched lane offset ∈ (Footprint.measure d.kept.starts.size routine d).events →
      (writeCall starts d.kept.starts.size c).Ends t reply t' →
      ∃ shape row, (Footprint.measure d.kept.starts.size routine d).result = .ok shape ∧
        t.target.Writes lane row t'.target ∧ t.target.board.CopiesFrom lane row t'.target.board ∧
        (span.start + offset < Word.size →
          row = span.start + offset ∧ row < span.start + shape.height) ∧
        (Word.size ≤ span.start + offset → row < span.start)) ∧
    (∀ {new : KeyBuilder} {d d' : Layout KeyBuilder} {t t' : Desk KeyBuilder Requests},
      KeyBuilder.create logRows schema = .ok new → Descends new t.target →
      (∀ index, lane ≠ .column (.advice index)) →
      (measureAndPlace name routine).Ends d span d' → d'.kept.starts.toList <+: starts.toList →
      .touched lane offset ∈ (Footprint.measure d.kept.starts.size routine d).events →
      (writeCall starts d.kept.starts.size c).Ends t reply t' →
      ∃ shape row, (Footprint.measure d.kept.starts.size routine d).result = .ok shape ∧
        t.target.board.Writes id lane row t'.target.board ∧
        t.target.board.CopiesFrom lane row t'.target.board ∧
        (span.start + offset < Word.size →
          row = span.start + offset ∧ row < span.start + shape.height) ∧
        (Word.size ≤ span.start + offset → row < span.start)) := by
  constructor
  · intro inputs new d d' t t' hnew ht hplaced hstarts htouched hends
    obtain ⟨⟨hgrid, -⟩, -, rfl⟩ := Prover.create_eq_ok_iff.1 hnew
    -- the rows of a descendant are words, as those of the root are
    obtain ⟨rows, heven⟩ := ht.of_familyKeeps Prover.familyKeeps (.unused hgrid schema inputs)
    obtain ⟨husable, hwrites, hcopies⟩ := Prover.writes_of_ends_writeCall htakes hends
    obtain ⟨hstart, shape, hshape, hrow⟩ :=
      row_of_touched hplaced hstarts htouched hoffset heven.board.words husable
    rw [hstart] at hwrites hcopies
    exact ⟨shape, _, hshape, hwrites, hcopies, hrow⟩
  · intro new d d' t t' hnew ht hlane hplaced hstarts htouched hends
    obtain ⟨⟨hgrid, -⟩, rfl⟩ := KeyBuilder.create_eq_ok_iff.1 hnew
    obtain ⟨rows, heven⟩ := ht.of_familyKeeps KeyBuilder.familyKeeps (.unused hgrid schema)
    obtain ⟨husable, hwrites, hcopies⟩ := KeyBuilder.writes_of_ends_writeCall htakes hlane hends
    obtain ⟨hstart, shape, hshape, hrow⟩ :=
      row_of_touched hplaced hstarts htouched hoffset heven.words husable
    rw [hstart] at hwrites hcopies
    exact ⟨shape, _, hshape, hwrites, hcopies, hrow⟩

/-! ## A region in the middle of a column -/

namespace Prover

/-- A layout whose first region has taken the first row of an advice column. -/
def secondRow : Layout Prover :=
  (Planner.assignRegion "first" (routineAt 0) ⟨begun, blankPlanner⟩).state

/-- A routine that assigns a cell of the same column. -/
def cellAt (offset : Nat) : Pass → Routine AssignedCell := fun _ =>
  Routine.assignAdvice "six" 0 offset (.known (.whole 6))

/-- The fourth row of a region that starts on the second row is the fifth row. -/
theorem row_of_write_fifth :
    ∃ span d' reply t',
      (Planner.measureAndPlace "second" (cellAt 3 .measuring)).Ends secondRow span d' ∧
      (writeCall d'.kept.starts 1 (.assignAdvice "six" 0 3 (.known (.whole 6)))).Ends
        ⟨begun, #[]⟩ reply t' ∧
      ∃ shape, (Footprint.measure 1 (cellAt 3 .measuring) secondRow).result = .ok shape ∧
        begun.Writes (.column (.advice 0)) 4 t'.target ∧ 4 < 1 + shape.height := by
  have hplaced : (Planner.measureAndPlace "second" (cellAt 3 .measuring)
      secondRow).result = .ok ⟨1, 5⟩ := by decide +kernel
  have hstarts : (Planner.measureAndPlace "second" (cellAt 3 .measuring)
      secondRow).state.kept.starts = #[0, 1] := by decide +kernel
  have hok : (writeCall #[0, 1] 1 (.assignAdvice "six" 0 3 (.known (.whole 6)))
      (⟨begun, #[]⟩ : Desk Prover Requests)).result.isOk = true := by decide +kernel
  obtain ⟨reply, hends⟩ := Run.exists_ends_of_isOk hok
  obtain ⟨new, hnew, hbegun⟩ := descends_begun
  have htakes : (RegionCall.assignAdvice "six" 0 3 (.known (.whole 6))).takes? =
      some (.column (.advice 0), 3) := rfl
  obtain ⟨shape, row, hshape, hwrites, -, hrow, -⟩ :=
    (Planner.row_of_write 4 twoColumns htakes (by decide)).1 hnew hbegun ⟨hplaced, rfl⟩
      (by rw [hstarts]) (by decide +kernel) hends
  obtain ⟨rfl, hin⟩ := hrow (by decide)
  exact ⟨_, _, reply, _, ⟨hplaced, rfl⟩, hstarts ▸ hends, shape, hshape, hwrites, hin⟩

/-- The last offset that there is comes to the row before a region: nothing is measured for it, and the
cell of the region before is lost. -/
theorem last_offset_overwrites :
    (∃ new, create 4 twoColumns [] = .ok new ∧ Descends new begun) ∧
      secondRow.target.advice.get 0 0 = .ok (.held 5) ∧
      (Planner.assignRegion "second" (cellAt (Word.size - 1)) secondRow).result.isOk = true ∧
      (Planner.assignRegion "second" (cellAt (Word.size - 1)) secondRow).state.kept.starts =
        #[0, 1] ∧
      (Planner.assignRegion "second" (cellAt (Word.size - 1)) secondRow).state.target.advice.get 0 0 =
        .ok (.held 6) := by
  refine ⟨descends_begun, ?_, ?_, ?_, ?_⟩
  all_goals decide +kernel

end Prover

end CircuitLayout
