import CircuitLayout.Proofs.Witness.Layouts

namespace CircuitLayout

/-! # Tables of sound witnesses

A table of a circuit that is sound by construction writes columns in which nothing is settled, and
fills them. Main statement: `secures_assignTable`.
-/

open Run (Secures Recounts Silent Keeps)
open Register (monitor)
open Desk (onTarget getKept modifyKept withinRegion)

variable {logRows : Nat} {schema : Schema} {starts : Array Nat} {l : Register}
  {columns : TableColumns} {sealedTables : List Nat}

/-- Is every column of the table at hand one that tables wrote? -/
def Listed (columns : TableColumns) (l : Register) : Prop :=
  ∀ x ∈ columns.entries, .fixed x.1 ∈ l.tables

theorem listed_step {e : Event} (h : Listed columns l) : Listed columns (l.step e) :=
  fun x hx => Register.mem_tables_step (h x hx)

namespace Planner

variable {label : String} {index row : Nat} {value : Producer} {d d' : Desk Prover TableColumns}

/-- A cell of a table is assigned, and nothing is added to the table but its column. -/
theorem of_ends_tableCall
    (hends : (tableCall sealedTables (.assignCell label index row value)).Ends d () d') :
    (∃ v, (Prover.assignFixed label index row value).Ends d.target v d'.target) ∧
      ∀ x ∈ d'.kept.entries, x.1 = index ∨ x ∈ d.kept.entries := by
  -- an entry of the new list is the inserted one or an old one
  have hadded : ∀ (columns : TableColumns) (c : TableColumn),
      ∀ x ∈ (columns.insert index c).entries, x.1 = index ∨ x ∈ columns.entries := by
    intro columns c x hx
    exact (OrderedMap.mem_insertEntry hx).imp_left fun h => by rw [h]
  have hrest := ((Run.ends_refuse_bind ..).1 hends).2
  rw [Run.Ends, Desk.getKept_bind_apply, ← Run.Ends] at hrest
  have hmore := (Run.ends_modify_bind ..).1 hrest
  obtain ⟨_, u, honTarget, hkeep⟩ := (Run.ends_bind ..).1 hmore
  obtain ⟨t, hassign, rfl⟩ := (Desk.ends_onTarget ..).1 honTarget
  obtain ⟨v, hassigned, -⟩ := (Run.ends_map ..).1 hassign
  -- the column is listed twice over: once before the cell is written, once after
  have hlast : ∃ c, d' = ⟨t, (d.kept.insert index ((d.kept.find? index).getD .blank)).insert index c⟩ := by
    split at hkeep
    · exact ⟨_, (Run.ends_modify ..).1 ((Run.ends_refuse_bind ..).1 hkeep).2⟩
    · exact ⟨_, (Run.ends_modify ..).1 hkeep⟩
  obtain ⟨c, rfl⟩ := hlast
  refine ⟨⟨v, hassigned⟩, fun x hx => ?_⟩
  exact (hadded _ c x hx).elim .inl (hadded _ _ x)

theorem recounts_tableCall :
    Recounts (fun _ => [.produced (.fixed index), .wrote (.column (.fixed index)) row])
      (tableCall sealedTables (.assignCell label index row value) :
        Run (Desk Prover TableColumns) Unit) := by
  refine (Recounts.refuse _ _).after fun _ => ?_
  refine Recounts.after (Recounts.get.map _) fun columns => ?_
  refine (Recounts.modify _).after fun _ => ?_
  refine Recounts.bind ((Prover.recounts_assignFixed label index row value).map some).zoom
    (L := fun _ => []) fun v => ?_
  split
  · exact (Recounts.refuse _ _).after fun _ => Recounts.modify _
  · exact Recounts.modify _

end Planner

/-- A cell of a table is written where nothing is settled. -/
theorem secures_tableCall (c : TableCall) :
    Secures monitor.trusting
      (fun l d => (Sound logRows schema true starts l d.target ∧ l.ledger.worker = .table) ∧
        Listed d.kept l)
      (Planner.tableCall sealedTables c : Run (Desk Prover TableColumns) Unit)
      (fun _ l d => (Sound logRows schema true starts l d.target ∧ l.ledger.worker = .table) ∧
        Listed d.kept l) := by
  obtain ⟨label, index, row, value⟩ := c
  refine .of_recounts Planner.recounts_tableCall fun l d _ d' h hends hassumed => ?_
  obtain ⟨⟨hsound, hworker⟩, hlisted⟩ := h
  obtain ⟨⟨v, hassign⟩, hentries⟩ := Planner.of_ends_tableCall hends
  have hcalls : CallKeeps (Prover.Ready logRows schema true) := Prover.Ready.stable.callKeeps
  -- the cell is written as any fixed cell is
  have hready : d'.target.Ready logRows schema true :=
    ((Run.ends_map some _ ..).2 ⟨v, hassign, rfl⟩).of_keeps (hcalls.assignFixed label index row value)
      hsound.ready
  have hidle := hsound.ready.idle
  have hsets := Prover.sets_of_assignFixed hidle.board.root.fixed hidle.board.lent_fixed hassign
  obtain ⟨hsound', hmem⟩ := hsound.tabulate hready hsets hworker hassumed.2.1 (by simp [Column.fixed])
  refine ⟨⟨hsound', ?_⟩, fun x hx => ?_⟩
  · have hstep : (l.ledger.write (.column (.fixed index)) row).worker = .table := by
      simp only [Ledger.write, hworker]
    exact hstep
  · -- the column listed last is the one just written
    rcases hentries x hx with rfl | hold
    · exact hmem
    · exact listed_step hlisted x hold

theorem secures_writeTable (name : String) {routine : TableRoutine} (hroutine : routine.Propagates) :
    Secures monitor.trusting (SoundLayout logRows schema)
      (Planner.writeTable name routine : Run (Layout Prover) TableColumns)
      (fun columns l d => SoundLayout logRows schema l d ∧ Listed columns l) := by
  refine .getKept_bind fun planner => ?_
  have hcall : ∀ c, Secures monitor.trusting
      (fun l (d : Desk Prover TableColumns) =>
        (Sound logRows schema true planner.starts l d.target ∧ l.ledger.worker = .table) ∧
          Listed d.kept l)
      (Planner.tableCall planner.sealedTables c) fun _ l d =>
        (Sound logRows schema true planner.starts l d.target ∧ l.ledger.worker = .table) ∧
          Listed d.kept l := secures_tableCall
  have hcells := Program.secures_run (C := fun _ => True) (fun l n d h => h) (fun c _ => hcall c)
    hroutine (Program.every_true _)
  -- naming the table puts the register to work on it
  have hbody : Secures monitor.trusting
      (fun l d => Sound logRows schema true planner.starts l d.target ∧ Listed d.kept l)
      (do
        Run.emit (.table name)
        routine.run (Planner.tableCall planner.sealedTables) : Run (Desk Prover TableColumns) Unit)
      (fun _ l d => Sound logRows schema true planner.starts l d.target ∧ Listed d.kept l) := by
    refine Secures.bind (Q := fun _ l d => (Sound logRows schema true planner.starts l d.target ∧
      l.ledger.worker = .table) ∧ Listed d.kept l) ?_ fun _ => ?_
    · refine .of_recounts (Recounts.emit _) fun l d _ d' h hends _ => ?_
      obtain rfl := (Run.ends_emit ..).1 hends
      exact ⟨⟨h.1.stay h.1.ready ⟨rfl, rfl⟩ (Register.agrees_of_idles trivial), rfl⟩, h.2⟩
    · exact hcells.imp_post fun _ l d h => ⟨h.1.1, h.2⟩
  have hwithin := secures_withinRegion (I := Listed) (fun _ _ _ => listed_step) name hbody
  refine secures_onTarget (Q := Listed) ?_
  refine Secures.zoom (P := fun l d => Sound logRows schema false planner.starts l d.target ∧
      Listed d.kept l) (Q := fun columns l d => Sound logRows schema false planner.starts l d.target ∧
      Listed columns l) ?_ ?_ fun _ _ _ _ _ _ h => h
  · refine hwithin.bind fun _ => ?_
    refine Secures.of_silent (Recounts.get.map _) fun l d columns d' h hends => ?_
    obtain ⟨_, hget, rfl⟩ := (Run.ends_map ..).1 hends
    obtain ⟨rfl, rfl⟩ := (Run.ends_get ..).1 hget
    exact h
  · -- at the start no column is listed
    exact fun l p h => ⟨h, by simp [Listed, EmptyCollection.emptyCollection]⟩

/-- A column that tables wrote is filled, in which nothing is settled. -/
theorem secures_padColumn (height index : Nat) (c : TableColumn) :
    Secures monitor.trusting
      (fun l d => SoundLayout logRows schema l d ∧ .fixed index ∈ l.tables)
      (Planner.padColumn height index c : Run (Layout Prover) Unit)
      (fun _ l d => SoundLayout logRows schema l d) := by
  unfold Planner.padColumn
  split
  · exact .raise _
  · next value _ =>
    -- a fill tells of no square, so the register stands still
    have hsilent : Silent (Prover.onBoard (Board.fillFrom .keep index height value)) :=
      Prover.recounts_onBoard (Board.silent_fillFrom _ _ _ _)
    refine .of_silent hsilent.zoom fun l d _ d' h hends => ?_
    obtain ⟨t, hfill, rfl⟩ := (Desk.ends_onTarget ..).1 hends
    have hcalls : CallKeeps (Prover.Ready logRows schema false) := Prover.Ready.stable.callKeeps
    have hready : t.Ready logRows schema false :=
      hfill.of_keeps (hcalls.fillFrom index height value) h.1.ready
    exact h.1.fill hready h.2 hfill

theorem secures_assignTable (name : String) {routine : TableRoutine} (hroutine : routine.Propagates) :
    Secures monitor.trusting (SoundLayout logRows schema)
      (Planner.assignTable name routine : Run (Layout Prover) Unit)
      (fun _ => SoundLayout logRows schema) := by
  refine (secures_writeTable name hroutine).bind fun columns => ?_
  refine Secures.bind (Q := fun _ l d => SoundLayout logRows schema l d ∧ Listed columns l) ?_
    fun _ => ?_
  · refine .of_silent (Recounts.refuse _ _) fun l d _ d' h hends => ?_
    obtain ⟨-, rfl⟩ := (Run.ends_refuse ..).1 hends
    exact h
  split
  · exact .raise _
  · refine Secures.bind (Q := fun _ l d => SoundLayout logRows schema l d ∧ Listed columns l) ?_
      fun _ => ?_
    · refine .of_silent (Recounts.modify _) fun l d _ d' h hends => ?_
      obtain rfl := (Run.ends_modify ..).1 hends
      exact h
    · -- the columns that are padded are those the table listed
      have hpad : ∀ x ∈ columns.entries, Secures monitor.trusting
          (fun l d => SoundLayout logRows schema l d ∧ Listed columns l)
          (Planner.padColumn columns.height x.1 x.2 : Run (Layout Prover) Unit)
          (fun _ l d => (SoundLayout logRows schema l d ∧ Listed columns l) ∧ True) := by
        intro x hx
        refine ((secures_padColumn columns.height x.1 x.2).and_lasting (I := Listed columns)
          fun l e => listed_step).imp ?_ fun _ l d h => ⟨h, trivial⟩
        exact fun l d h => ⟨⟨h.1, h.2 x hx⟩, h.2⟩
      have heach := Secures.each (R := fun _ _ => True) hpad fun _ _ _ h => h
      exact heach.bind fun _ => .pure fun l d h => h.1.1

end CircuitLayout
