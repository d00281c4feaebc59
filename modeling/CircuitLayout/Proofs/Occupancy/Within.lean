import CircuitLayout.Proofs.Forks.Windows
import CircuitLayout.Proofs.Occupancy.Measured

namespace CircuitLayout

/-! # Writing within what was measured

The measuring pass and the writing pass run the calls of a routine in two ways that have nothing in
common but what the calls take up. Main statement: `Planner.written_within_measured`, a routine that
takes up the same in both passes writes only lanes and rows that were measured for its region, and is
answered with the same cells.
-/

open Run (Atomic Keeps FaultsAt)
open Desk (OnTarget onTarget modifyKept)
open Planner (Places OnForks batchName)

variable {σ α : Type}

/-! ## What a call leaves -/

/-- What a call that takes up a square may do to an assignment, and how it fails. -/
structure Acting {σ : Type} [Assignment σ] (Acts : Lane → Nat → σ → σ → Prop) : Prop where
  atomic : ∀ c : AssignmentCall, Atomic (c.perform : Run σ c.Reply)
  looks : ∀ column row (s : σ), Keeps (· = s) (Assignment.queryInput column row)
  advice : ∀ {label column row value v} {s t : σ},
    (Assignment.assignAdvice label column row value).Ends s v t →
      Acts (.column (.advice column)) row s t ∨ t = s
  writes : ∀ {starts region c lane offset} {t t' : Desk σ Requests} {reply : c.Reply},
    c.takes? = some (lane, offset) → (writeCall starts region c).Ends t reply t' →
      Acts lane (Word.add (starts.getD region 0) offset) t.target t'.target

section Calls

variable [Assignment σ] {starts : Array Nat} {region offset : Nat} {lane : Lane} {c : RegionCall}
  {t t' : Desk σ Requests}

/-- A call that succeeds and gives a cell gives the one that is named for it. -/
theorem RegionCall.cell_of_ends {reply : c.Reply}
    (hends : (writeCall starts region c).Ends t reply t') :
    (c.cell? reply).map (·.cell) = c.named? region := by
  cases c with
  | assignAdvice | assignFixed =>
    obtain ⟨v, u, -, hpure⟩ := (Run.ends_bind ..).1 hends
    obtain ⟨rfl, -⟩ := (Run.ends_pure ..).1 hpure
    rfl
  | assignConstant =>
    obtain ⟨_, u, -, hrest⟩ := (Run.ends_bind ..).1 hends
    obtain ⟨_, w, -, hpure⟩ := (Run.ends_bind ..).1 hrest
    obtain ⟨rfl, -⟩ := (Run.ends_pure ..).1 hpure
    rfl
  -- the handle is made last, and of nothing but the arguments
  | assignInput =>
    obtain ⟨x, u, -, hrest⟩ := (Run.ends_bind ..).1 hends
    obtain ⟨_, v, -, hrest⟩ := (Run.ends_bind ..).1 hrest
    obtain ⟨_, w, -, hpure⟩ := (Run.ends_bind ..).1 hrest
    obtain ⟨rfl, -⟩ := (Run.ends_pure ..).1 hpure
    rfl
  | enableSelector | nameColumn | queryAdvice | queryFixed | constrainConstant | constrainEqual
  | globalRow => rfl

omit [Assignment σ] in
/-- A call on the assignment that leaves nothing when it fails, and what follows and does not fail. -/
theorem Run.Atomic.onTarget_bind {β : Type} {m : Run σ α} {f : α → Run (Desk σ Requests) β}
    (hm : Atomic m) (hf : ∀ a u, ∃ b v, (f a).Ends u b v) : Atomic (onTarget m >>= f) :=
  (hm.zoom fun _ => rfl).before hf

/-- A call that fails changes nothing, or it has written its square already. -/
theorem Acting.left_of_error {Acts : Lane → Nat → σ → σ → Prop} (h : Acting Acts)
    (htakes : c.takes? = some (lane, offset)) {fault : Fault}
    (hfault : (writeCall starts region c t).result = .error fault) :
    (writeCall starts region c t).state.target = t.target ∨
      Acts lane (Word.add (starts.getD region 0) offset) t.target
        (writeCall starts region c t).state.target := by
  have hsame : Atomic (writeCall starts region c : Run (Desk σ Requests) c.Reply) →
      (writeCall starts region c t).state.target = t.target := by
    intro hatomic
    rw [hatomic t fault hfault]
  -- all but the call that copies an input can fail in one place only
  cases c with
  | enableSelector label selector offset =>
    exact .inl (h.atomic (.enableSelector label selector _) t.target fault hfault)
  | assignAdvice label column offset value =>
    refine .inl (hsame ((h.atomic (.assignAdvice label column _ value)).onTarget_bind ?_))
    exact fun v u => ⟨_, u, (Run.ends_pure ..).2 ⟨rfl, rfl⟩⟩
  | assignFixed label column offset value =>
    refine .inl (hsame ((h.atomic (.assignFixed label column _ value)).onTarget_bind ?_))
    exact fun v u => ⟨_, u, (Run.ends_pure ..).2 ⟨rfl, rfl⟩⟩
  | assignConstant label column offset constant =>
    refine .inl (hsame ((h.atomic (.assignAdvice label column _ (.known constant))).onTarget_bind ?_))
    exact fun v u => ⟨_, _, (Run.ends_modify_bind ..).2 ((Run.ends_pure ..).2 ⟨rfl, rfl⟩)⟩
  | assignInput label input inputRow column offset =>
    cases htakes
    rcases Run.of_bind_error hfault with ⟨-, hstate⟩ | ⟨x, u, hquery, hrest, hstate⟩
    · left
      refine (congrArg (·.target) hstate).trans ?_
      exact h.looks input inputRow t.target t.target rfl
    · obtain ⟨s, hends, rfl⟩ := (Desk.ends_onTarget ..).1 hquery
      obtain rfl : s = t.target := hends.2.symm.trans (h.looks input inputRow _ _ rfl)
      rcases Run.of_bind_error hrest with ⟨hfirst, hleft⟩ | ⟨v, w, hwrite, hcopy, hleft⟩
      · left
        refine (congrArg (·.target) (hstate.trans hleft)).trans ?_
        exact h.atomic (.assignAdvice label column _ _) t.target fault hfirst
      · -- the copy comes last: the cell is written even if it fails
        obtain ⟨q, hassign, rfl⟩ := (Desk.ends_onTarget ..).1 hwrite
        have hatomic := (h.atomic (.copy ⟨.advice column, writeCall.row starts region offset⟩
          ⟨.input input, inputRow⟩)).onTarget_bind (β := AssignedCell) (f := fun _ => pure
            ⟨⟨region, offset, .advice column⟩, x.map .whole⟩)
          fun _ u => ⟨_, u, (Run.ends_pure ..).2 ⟨rfl, rfl⟩⟩
        have hq : (writeCall starts region (.assignInput label input inputRow column offset) t).state =
            ⟨q, t.kept⟩ := hstate.trans (hleft.trans (hatomic _ fault hcopy))
        rw [hq]
        exact (h.advice hassign).symm
  | nameColumn | queryAdvice | queryFixed | constrainConstant | constrainEqual | globalRow => cases htakes

end Calls

/-- Does a prover, when it acts on a square, change no other one, and are all copies that it adds begun
there? -/
def Prover.Acts (lane : Lane) (row : Nat) (p q : Prover) : Prop :=
  p.Writes lane row q ∧ p.board.CopiesFrom lane row q.board

/-- A call of a region acts on its own square of the prover, or not at all. -/
theorem Prover.acting : Acting Acts where
  atomic := atomic_perform
  looks column row p := by
    refine (keeps_check (fun _ => Board.keeps_requireUsable row) p).bind fun _ => ?_
    refine Keeps.get.bind fun q => ?_
    split
    · exact Keeps.raise _
    · exact Keeps.pure _
  advice hends := by
    obtain ⟨v, hassign, -⟩ := (Run.ends_map ..).1 hends
    obtain ⟨-, advice, hset, rfl⟩ := (ends_assignAdvice ..).1 hassign
    exact .inl ⟨⟨⟨rfl, rfl⟩, v, hset⟩, .same rfl⟩
  writes htakes hends := (writes_of_ends_writeCall htakes hends).2

/-- Does a key builder, when it acts on a square, change no other one, and are all copies that it adds
begun there? An advice cell leaves nothing. -/
def KeyBuilder.Acts (lane : Lane) (row : Nat) (k l : KeyBuilder) : Prop :=
  k.board.Writes id lane row l.board ∧ k.board.CopiesFrom lane row l.board

/-- A call that ends acts on its own square of the key builder. -/
theorem KeyBuilder.acts_of_ends_writeCall {starts : Array Nat} {region offset : Nat} {lane : Lane}
    {c : RegionCall} {t t' : Desk KeyBuilder Requests} {reply : c.Reply}
    (htakes : c.takes? = some (lane, offset)) (hends : (writeCall starts region c).Ends t reply t') :
    Acts lane (Word.add (starts.getD region 0) offset) t.target t'.target := by
  cases c with
  | enableSelector =>
    cases htakes
    exact (writes_of_ends_writeCall rfl (fun index => Lane.noConfusion) hends).2
  | assignFixed label column offset value =>
    cases htakes
    have hlane : ∀ index, Lane.column (.fixed column) ≠ .column (.advice index) := by
      simp [Column.fixed, Column.advice]
    exact (writes_of_ends_writeCall rfl hlane hends).2
  -- a key builder keeps no advice, so these leave its cells as they are
  | assignAdvice =>
    cases htakes
    obtain ⟨_, u, hwrite, hpure⟩ := (Run.ends_bind ..).1 hends
    obtain ⟨-, rfl⟩ := (Run.ends_pure ..).1 hpure
    obtain ⟨k, hcall, rfl⟩ := (Desk.ends_onTarget ..).1 hwrite
    obtain ⟨-, rfl⟩ := (Run.ends_pure ..).1 hcall
    exact ⟨⟨rfl, rfl⟩, .same rfl⟩
  | assignConstant =>
    cases htakes
    obtain ⟨_, u, hwrite, hrest⟩ := (Run.ends_bind ..).1 hends
    obtain ⟨k, hcall, rfl⟩ := (Desk.ends_onTarget ..).1 hwrite
    obtain ⟨-, rfl⟩ := (Run.ends_pure ..).1 hcall
    obtain ⟨_, w, hkept, hpure⟩ := (Run.ends_bind ..).1 hrest
    obtain ⟨-, rfl⟩ := (Run.ends_pure ..).1 hpure
    obtain rfl := (Run.ends_modify ..).1 hkept
    exact ⟨⟨rfl, rfl⟩, .same rfl⟩
  | assignInput =>
    cases htakes
    obtain ⟨x, u, hquery, hrest⟩ := (Run.ends_bind ..).1 hends
    obtain ⟨k, hinput, rfl⟩ := (Desk.ends_onTarget ..).1 hquery
    obtain ⟨-, -, rfl⟩ := (ends_queryInput ..).1 hinput
    obtain ⟨_, v, hwrite, hrest⟩ := (Run.ends_bind ..).1 hrest
    obtain ⟨l, hcall, rfl⟩ := (Desk.ends_onTarget ..).1 hwrite
    obtain ⟨-, rfl⟩ := (Run.ends_pure ..).1 hcall
    obtain ⟨_, w, hcopy, hpure⟩ := (Run.ends_bind ..).1 hrest
    obtain ⟨-, rfl⟩ := (Run.ends_pure ..).1 hpure
    obtain ⟨m, honto, rfl⟩ := (Desk.ends_onTarget ..).1 hcopy
    exact Board.of_ends_copy_from ((ends_onBoard ..).1 honto)
  | nameColumn | queryAdvice | queryFixed | constrainConstant | constrainEqual | globalRow => cases htakes

/-- A call of a region acts on its own square of the key builder, or not at all. -/
theorem KeyBuilder.acting : Acting Acts where
  atomic := atomic_perform
  looks _ row k :=
    (keeps_onBoard (P := fun b => (⟨b⟩ : KeyBuilder) = k) (Board.keeps_requireUsable row)).bind
      fun _ => Keeps.pure _
  advice hends := .inr ((Run.ends_pure ..).1 hends).2
  writes := acts_of_ends_writeCall

/-! ## The writing pass -/

section Passes

variable [Assignment σ]

/-- The calls that a routine makes while its region is written, from an assignment on in which the
region is open. -/
def Routine.written (starts : Array Nat) (region : Nat) (routine : Routine α) (target : σ) :
    List (Desk σ Requests × RegionCall) :=
  routine.visits (announcedCall starts region) ⟨target, #[]⟩

/-- Does a routine take up the same when its region is written as when it is measured, as far as it
gets, and does no row that this comes to leave the range of words? -/
structure Routine.Repeats (starts : Array Nat) (region : Nat) (routine : Pass → Routine α)
    (span : RowSpan) (target : σ) : Prop where
  takings : takings ((routine .writing).written starts region target) <+:
    takings ((routine .measuring).observed region)
  words : ∀ t ∈ CircuitLayout.takings ((routine .measuring).observed region),
    span.start + t.2 + 1 < Word.size

/-- Does a call act on a square of the assignment, and on no other one? It acts at most once, and it
has acted if it succeeds. -/
structure ActsOn (Acts : Lane → Nat → σ → σ → Prop) (starts : Array Nat) (region : Nat)
    (v : Desk σ Requests × RegionCall) (lane : Lane) (row : Nat) : Prop where
  left : (announcedCall starts region v.2 v.1).state.target = v.1.target ∨
    Acts lane row v.1.target (announcedCall starts region v.2 v.1).state.target
  acts : (announcedCall starts region v.2 v.1).result.isOk →
    Acts lane row v.1.target (announcedCall starts region v.2 v.1).state.target

/-- Is a region written as it was measured? -/
structure WritesAsMeasured (Acts : Lane → Nat → σ → σ → Prop) (starts : Array Nat) (region : Nat)
    (routine : Pass → Routine α) (span : RowSpan) (shape : Footprint) (target : σ) : Prop where
  /-- What a call takes up is a lane of the shape, and a row of the region that the call acts on. -/
  inside : ∀ v ∈ (routine .writing).written starts region target, ∀ lane offset,
    v.2.takes? = some (lane, offset) →
      (lane ∈ shape.lanes ∧ span.start + offset ∈ span) ∧
        ActsOn Acts starts region v lane (span.start + offset)
  /-- Both passes name the same cells, one after another. -/
  cells : ∀ (i : Nat) (v : Desk σ Requests × RegionCall),
    (takers ((routine .writing).written starts region target))[i]? = some v →
    ∃ w : Footprint × RegionCall,
      (takers ((routine .measuring).observed region))[i]? = some w ∧
      w.2.handle? (Footprint.observedCall w.2 w.1).result = v.2.named? region ∧
      ((announcedCall starts region v.2 v.1).result.isOk →
        v.2.handle? (announcedCall starts region v.2 v.1).result = v.2.named? region)
  /-- If a region that has rows is written to the end, some call acts on the last one. -/
  last : takings ((routine .writing).written starts region target) =
      takings ((routine .measuring).observed region) → 0 < shape.height →
    ∃ v ∈ (routine .writing).written starts region target, ∃ lane offset,
      v.2.takes? = some (lane, offset) ∧ span.start + offset + 1 = span.stop

variable {starts : Array Nat} {region : Nat} {routine : Pass → Routine α} {span : RowSpan}
  {target : σ}

/-- A call that takes up an offset acts on the row that the offset comes to. -/
theorem Acting.actsOn {Acts : Lane → Nat → σ → σ → Prop} (h : Acting Acts)
    {v : Desk σ Requests × RegionCall} {lane : Lane} {offset : Nat}
    (htakes : v.2.takes? = some (lane, offset)) :
    ActsOn Acts starts region v lane (Word.add (starts.getD region 0) offset) := by
  obtain ⟨hresult, hstate⟩ := announcedCall_apply starts region v.2 v.1
  constructor
  · rw [hstate]
    cases hcall : (writeCall starts region v.2 v.1).result with
    | ok reply => exact .inr (h.writes htakes ⟨hcall, rfl⟩)
    | error fault => exact h.left_of_error htakes hcall
  · intro hok
    rw [hresult] at hok
    obtain ⟨reply, hends⟩ := Run.exists_ends_of_isOk hok
    rw [hstate]
    exact h.writes htakes hends

/-- A call that succeeds is answered with the cell that is named for it, if with any. -/
theorem RegionCall.handle_of_isOk {c : RegionCall} {t : Desk σ Requests}
    (hok : (announcedCall starts region c t).result.isOk) :
    c.handle? (announcedCall starts region c t).result = c.named? region := by
  obtain ⟨hresult, -⟩ := announcedCall_apply starts region c t
  rw [hresult] at hok ⊢
  obtain ⟨reply, hends⟩ := Run.exists_ends_of_isOk hok
  rw [hends.1]
  exact cell_of_ends hends

/-- Where a region is placed, its routine writes what was measured. -/
theorem Planner.Places.writesAsMeasured {Acts : Lane → Nat → σ → σ → Prop} (hacts : Acting Acts)
    {d placed : Layout σ} (h : Places d placed region routine span)
    (hrepeats : Routine.Repeats placed.kept.starts region routine span target) :
    ∃ shape, (Footprint.measure region (routine .measuring)).Ends d shape d ∧
      span.stop = span.start + shape.height ∧
      WritesAsMeasured Acts placed.kept.starts region routine span shape target := by
  obtain ⟨shape, hmeasure, hshape, hstart, hstop⟩ := h.rows hrepeats.words
  obtain ⟨hinside, hlast⟩ := h.inside hrepeats.words
  rw [← hshape] at hinside hlast
  refine ⟨shape, hmeasure, hstop, ?_, ?_, ?_⟩
  · -- what the call takes up was taken up by the measuring pass as well
    intro v hv lane offset htakes
    have hwritten := mem_takings.2 ⟨v, hv, htakes⟩
    obtain ⟨hlane, hsum, hrow⟩ := hinside _ (hrepeats.takings.subset hwritten)
    have hon : ActsOn Acts placed.kept.starts region v lane _ := hacts.actsOn htakes
    rw [hstart, hsum] at hon
    exact ⟨⟨hlane, hrow⟩, hon⟩
  · intro i v hv
    -- the same call of the measuring pass gave the same handle
    obtain ⟨w, hw, htakes⟩ := exists_taker hrepeats.takings hv
    refine ⟨w, hw, ?_, RegionCall.handle_of_isOk⟩
    have hobserved := List.mem_of_mem_filter (List.mem_of_getElem? hw)
    rw [Footprint.handle_observedCall, Routine.region_of_observed hobserved]
    simp only [RegionCall.named?, htakes]
  · intro hsame hheight
    obtain ⟨⟨lane, offset⟩, ht, hend⟩ := hlast hheight
    rw [← hsame] at ht
    obtain ⟨v, hv, htakes⟩ := mem_takings.1 ht
    exact ⟨v, hv, lane, offset, htakes, hend⟩

/-- Does no call that takes something up fail for its row, unless its producer gives such a fault? -/
def StaysInWindow (starts : Array Nat) (region : Nat) (routine : Pass → Routine α) (target : σ) :
    Prop :=
  ∀ v ∈ (routine .writing).written starts region target, v.2.takes?.isSome →
    FaultsAt v.2.Gives (announcedCall starts region v.2) v.1

/-- Where the windows of an assignment are over the rows of a region, they hold what is written. -/
theorem Planner.Places.staysInWindow {Over : RowSpan → σ → Prop} (hheeds : Heeds Over)
    {d placed : Layout σ} (h : Places d placed region routine span)
    (hrepeats : Routine.Repeats placed.kept.starts region routine span target)
    (htarget : Over span target) : StaysInWindow placed.kept.starts region routine target := by
  intro v hv htakes
  obtain ⟨⟨lane, offset⟩, htakes⟩ := Option.isSome_iff_exists.1 htakes
  obtain ⟨shape, -, -, hstart, -⟩ := h.rows hrepeats.words
  obtain ⟨hinside, -⟩ := h.inside hrepeats.words
  have hwritten := mem_takings.2 ⟨v, hv, htakes⟩
  -- its row is one of the range, which the windows cover
  obtain ⟨-, hsum, hrow⟩ := hinside _ (hrepeats.takings.subset hwritten)
  refine hheeds.faultsAt_announcedCall (hheeds.over_visits htarget _ v hv) htakes ?_
  rw [hstart, hsum]
  exact hrow

/-- A fork on which a region of a batch is written, with the region open. -/
def Planner.opened (name : String) (i : Nat) (fork : σ) : σ :=
  ((Assignment.enterRegion (batchName name i) : Run σ Unit) fork).state

/-- On the fork of a region the windows are over its rows. -/
theorem Planner.OnForks.staysInWindow {Over : RowSpan → σ → Prop} (hheeds : Heeds Over)
    {name : String} {routines : List (Pass → Routine α)} {d placed : Layout σ}
    {ranges : List RowSpan} {forks : List σ} {lent fork : σ} {i : Nat}
    (h : OnForks name routines d ranges placed forks lent) (hroutine : routines[i]? = some routine)
    (hspan : ranges[i]? = some span) (hfork : forks[i]? = some fork)
    (hrepeats : Routine.Repeats placed.kept.starts (d.kept.starts.size + i) routine span
      (opened name i fork)) :
    StaysInWindow placed.kept.starts (d.kept.starts.size + i) routine (opened name i fork) := by
  have hplaces : Places d placed (d.kept.starts.size + i) routine span :=
    .inBatch h.measured hroutine hspan
  -- the windows of the fork are over its range, and to open the region moves none of them
  have hover : Over span fork := by
    obtain ⟨hi, rfl⟩ := List.getElem?_eq_some_iff.1 hspan
    obtain ⟨hj, rfl⟩ := List.getElem?_eq_some_iff.1 hfork
    exact (List.forall₂_iff_get.1 (hheeds.forked h.forked)).2 i hi hj
  exact hplaces.staysInWindow hheeds hrepeats ((hheeds.keeps span).enterRegion _ fork hover)

end Passes

/-! ## Provers and key builders -/

/-- Let the routine of a region take up the same in both passes, and no row that this comes to leave the
range of words. Wherever the region is placed, alone or in a batch, and whatever it is written to, each
call that takes something up acts on a lane of the measured shape and a row of the region, both passes
are answered with the same cells, and some call acts on the last row of a region that has rows. If the
region is written on a fork, no such call fails for its row. -/
theorem Planner.written_within_measured (routine : Pass → Routine α) :
    ((∀ {d placed : Layout Prover} {region : Nat} {span : RowSpan} {target : Prover},
        Places d placed region routine span →
        Routine.Repeats placed.kept.starts region routine span target →
        ∃ shape, (Footprint.measure region (routine .measuring)).Ends d shape d ∧
          span.stop = span.start + shape.height ∧
          WritesAsMeasured Prover.Acts placed.kept.starts region routine span shape target) ∧
      ∀ {name : String} {routines : List (Pass → Routine α)} {d placed : Layout Prover}
        {ranges : List RowSpan} {forks : List Prover} {lent fork : Prover} {i : Nat} {span : RowSpan},
        OnForks name routines d ranges placed forks lent →
        routines[i]? = some routine → ranges[i]? = some span → forks[i]? = some fork →
        Routine.Repeats placed.kept.starts (d.kept.starts.size + i) routine span
          (opened name i fork) →
        StaysInWindow placed.kept.starts (d.kept.starts.size + i) routine (opened name i fork)) ∧
    (∀ {d placed : Layout KeyBuilder} {region : Nat} {span : RowSpan} {target : KeyBuilder},
        Places d placed region routine span →
        Routine.Repeats placed.kept.starts region routine span target →
        ∃ shape, (Footprint.measure region (routine .measuring)).Ends d shape d ∧
          span.stop = span.start + shape.height ∧
          WritesAsMeasured KeyBuilder.Acts placed.kept.starts region routine span shape target) ∧
      ∀ {name : String} {routines : List (Pass → Routine α)} {d placed : Layout KeyBuilder}
        {ranges : List RowSpan} {forks : List KeyBuilder} {lent fork : KeyBuilder} {i : Nat}
        {span : RowSpan},
        OnForks name routines d ranges placed forks lent →
        routines[i]? = some routine → ranges[i]? = some span → forks[i]? = some fork →
        Routine.Repeats placed.kept.starts (d.kept.starts.size + i) routine span
          (opened name i fork) →
        StaysInWindow placed.kept.starts (d.kept.starts.size + i) routine (opened name i fork) := by
  refine ⟨⟨fun hplaces hrepeats => ?_, fun hforks hroutine hspan hfork hrepeats => ?_⟩,
    fun hplaces hrepeats => ?_, fun hforks hroutine hspan hfork hrepeats => ?_⟩
  · exact hplaces.writesAsMeasured Prover.acting hrepeats
  · exact hforks.staysInWindow Prover.heeds hroutine hspan hfork hrepeats
  · exact hplaces.writesAsMeasured KeyBuilder.acting hrepeats
  · exact hforks.staysInWindow KeyBuilder.heeds hroutine hspan hfork hrepeats

/-! ### The second region of a batch -/

/-- Two regions in one column, of which the second one is higher. -/
def stacked : List (Pass → Routine AssignedCell) := [Prover.cellAt 0, Prover.cellAt 2]

/-- The rows of the regions, one after another. -/
def stackedRanges : List RowSpan := [⟨0, 1⟩, ⟨1, 4⟩]

/-- The stacked pair is written on forks of a prover that lends rows, and its second region repeats
what it measured. -/
theorem Prover.stacked_onForks :
    ∃ placed first fork lent,
      OnForks "pair" stacked (forkingLayout lender) stackedRanges placed [first, fork] lent ∧
        Routine.Repeats placed.kept.starts 1 (cellAt 2) ⟨1, 4⟩ (Planner.opened "pair" 1 fork) := by
  let placed : Layout Prover := (Planner.measureBatch "pair" stacked (forkingLayout lender)).state
  have hfork : ((Assignment.fork stackedRanges : Run Prover (List Prover))
      placed.target).result.isOk = true := by decide +kernel
  obtain ⟨forks, hends⟩ := Run.exists_ends_of_isOk hfork
  obtain rfl := (Even.of_ends_fork hends).2
  refine ⟨placed, _, placed.target.sliver ⟨1, 4⟩, _, ⟨⟨by decide +kernel, rfl⟩, by decide +kernel,
    hends⟩, ⟨[], by decide +kernel⟩, by decide +kernel⟩

/-- The stacked pair is written on forks of a key builder, and its second region repeats what it
measured. -/
theorem KeyBuilder.stacked_onForks :
    ∃ placed first fork lent,
      OnForks "pair" stacked (forkingLayout begun) stackedRanges placed [first, fork] lent ∧
        Routine.Repeats placed.kept.starts 1 (Prover.cellAt 2) ⟨1, 4⟩
          (Planner.opened "pair" 1 fork) := by
  let placed : Layout KeyBuilder := (Planner.measureBatch "pair" stacked (forkingLayout begun)).state
  have hfork : ((Assignment.fork stackedRanges : Run KeyBuilder (List KeyBuilder))
      placed.target).result.isOk = true := by decide +kernel
  obtain ⟨forks, hends⟩ := Run.exists_ends_of_isOk hfork
  obtain rfl := (Even.of_ends_fork hends).2
  refine ⟨placed, _, ⟨placed.target.board.forkOver ⟨1, 4⟩⟩, _, ⟨⟨by decide +kernel, rfl⟩,
    by decide +kernel, hends⟩, ⟨[], by decide +kernel⟩, by decide +kernel⟩

/-- The region of a cell at offset 2 is written on the three rows that are measured for it. -/
theorem Planner.written_within_measured_stacked :
    (∃ (placed : Layout Prover) (first fork lent : Prover) (shape : Footprint),
      OnForks "pair" stacked (forkingLayout Prover.lender) stackedRanges placed [first, fork] lent ∧
        WritesAsMeasured Prover.Acts placed.kept.starts 1 (Prover.cellAt 2) ⟨1, 4⟩ shape
          (opened "pair" 1 fork) ∧
        shape.height = 3 ∧
        StaysInWindow placed.kept.starts 1 (Prover.cellAt 2) (opened "pair" 1 fork)) ∧
    ∃ (placed : Layout KeyBuilder) (first fork lent : KeyBuilder) (shape : Footprint),
      OnForks "pair" stacked (forkingLayout KeyBuilder.begun) stackedRanges placed [first, fork] lent ∧
        WritesAsMeasured KeyBuilder.Acts placed.kept.starts 1 (Prover.cellAt 2) ⟨1, 4⟩ shape
          (opened "pair" 1 fork) ∧
        shape.height = 3 ∧
        StaysInWindow placed.kept.starts 1 (Prover.cellAt 2) (opened "pair" 1 fork) := by
  obtain ⟨⟨hprover, hproverForks⟩, hbuilder, hbuilderForks⟩ :=
    written_within_measured (Prover.cellAt 2)
  constructor
  · obtain ⟨placed, first, fork, lent, hforks, hrepeats⟩ := Prover.stacked_onForks
    have hplaces : Places (forkingLayout Prover.lender) placed 1 (Prover.cellAt 2) ⟨1, 4⟩ :=
      .inBatch (i := 1) hforks.measured rfl rfl
    obtain ⟨shape, -, hrows, hwrites⟩ := hprover hplaces hrepeats
    have hheight : 4 = 1 + shape.height := hrows
    have hstays := hproverForks (i := 1) hforks rfl rfl rfl hrepeats
    exact ⟨placed, first, fork, lent, shape, hforks, hwrites, by omega, hstays⟩
  · obtain ⟨placed, first, fork, lent, hforks, hrepeats⟩ := KeyBuilder.stacked_onForks
    have hplaces : Places (forkingLayout KeyBuilder.begun) placed 1 (Prover.cellAt 2) ⟨1, 4⟩ :=
      .inBatch (i := 1) hforks.measured rfl rfl
    obtain ⟨shape, -, hrows, hwrites⟩ := hbuilder hplaces hrepeats
    have hheight : 4 = 1 + shape.height := hrows
    have hstays := hbuilderForks (i := 1) hforks rfl rfl rfl hrepeats
    exact ⟨placed, first, fork, lent, shape, hforks, hwrites, by omega, hstays⟩

end CircuitLayout
