import CircuitLayout.Proofs.Forks.Batches
import CircuitLayout.Proofs.Forks.FailedMerges

namespace CircuitLayout

/-! # Rows that stay lent

A batch that fails after its fork and before the end of its merge leaves rows lent, and nobody is
left who could give them back. Main statements: `Planner.writeForked_cases`, how a batch on forks
can end once the forks are there, and `KeyBuilder.no_key_of_failedOnForks`, after such a failure no
batch is written on forks and no key is taken, whatever else is done.
-/

open Run (Keeps)
open Desk (OnTarget onTarget)
open Planner (measureBatch writeNumbered WrittenOnForks)

variable {σ α : Type} [Assignment σ]

/-! ## Layouts that go on -/

/-- What a layout may come to. Planners are called, whether they succeed or fail, and may be
replaced by others; the assignment may be called as well, but it is forked and merged into by
planners only. -/
inductive Continues : Layout σ → Layout σ → Prop where
  | refl (d : Layout σ) : Continues d d
  | perform {d e : Layout σ} (h : Continues d e) {ρ : Type} (c : LayoutCall ρ) :
      Continues d (Planner.perform c e).state
  | call {d e : Layout σ} (h : Continues d e) (c : AssignmentCall) :
      Continues d { e with target := (c.perform e.target).state }
  | replan {d e : Layout σ} (h : Continues d e) (planner : Planner) :
      Continues d { e with kept := planner }

/-- What everything that is asked of an assignment keeps holds as long as the layout goes on. -/
theorem Continues.of_keeps {P : σ → Prop} (hP : BatchKeeps P) {d e : Layout σ} (h : Continues d e)
    (hd : P d.target) : P e.target := by
  induction h with
  | refl => exact hd
  | perform _ c ih => exact hP.perform c _ ih
  | call _ c ih => exact c.keeps_perform hP.toRegionKeeps hP.toCallKeeps _ ih
  | replan _ _ ih => exact ih

/-! ## Batches once they are forked -/

namespace Planner

/-- Results among which a fault is handed on are not all results. -/
theorem of_allOrFirstFault_error {τ β : Type} {name : String} {results : List (Except Fault β)}
    {s : τ} {fault : Fault} (h : (allOrFirstFault name results s).result = .error fault) :
    (∃ fault, Except.error fault ∈ results) ∧ (allOrFirstFault name results s).state = s := by
  have hstate : Keeps (fun t => t = s) (allOrFirstFault name results : Run τ (List β)) :=
    keeps_allOrFirstFault name results
  refine ⟨?_, hstate s rfl⟩
  obtain ⟨before, ⟨result, i⟩, after, bs, u, hsplit, -, hitem, -⟩ := Run.of_each_error h
  have hmem : (result, i) ∈ results.zipIdx := by
    rw [hsplit]
    exact List.mem_append_right _ (List.mem_cons_self ..)
  have hin : result ∈ results := (List.mem_zipIdx' hmem).2 ▸ List.getElem_mem ..
  cases result with
  | error fault' => exact ⟨fault', hin⟩
  | ok b => cases hitem

/-- Once a batch has its forks, either one of its regions fails, which leaves the rows lent, or all
are written, and the batch ends as its merge does. -/
theorem writeForked_cases {ranges : List RowSpan} {d : Layout σ} {forks : List σ} {lent : σ}
    (hfork : (Assignment.fork ranges).Ends d.target forks lent) (name : String) (starts : Array Nat)
    (first : Nat) (routines : List (Pass → Routine α)) :
    ((forks.zip routines ≠ [] ∧
      ∃ fault, (writeForked name starts first ranges routines d).result = .error fault) ∧
      (writeForked name starts first ranges routines d).state = { d with target := lent }) ∨
    ∃ written, WrittenOnForks name starts first (forks.zip routines).zipIdx written ∧
      (writeForked name starts first ranges routines d).result =
        (Assignment.merge (written.map fun w => .fork w.2) lent).result.map
          (fun _ => written.map (·.1)) ∧
      (writeForked name starts first ranges routines d).state =
        { d with target := (Assignment.merge (written.map fun w => .fork w.2) lent).state } := by
  set placed : Layout σ := { d with target := lent } with hplaced
  set regions := (forks.zip routines).zipIdx with hzip
  set ends := regions.map fun x => ((writeNumbered name starts first x x.1.1).result,
    (writeNumbered name starts first x x.1.1).state) with hends
  have hforks : (onTarget (Assignment.fork ranges)).Ends d forks placed :=
    (Desk.ends_onTarget ..).2 ⟨lent, hfork, rfl⟩
  -- the regions are written on the forks, which leaves the layout alone
  have hregions : (Run.each (fun x => Run.aside x.1.1 (writeNumbered name starts first x))
      regions).Ends placed ends placed := (ends_each_aside ..).2 ⟨rfl, rfl⟩
  rw [writeForked_eq, hforks.bind_apply, hregions.bind_apply]
  -- either a region failed, and nothing is merged
  cases hresult : (allOrFirstFault name (ends.map (·.1)) placed).result with
  | error fault =>
    obtain ⟨⟨fault', hfault⟩, hstate⟩ := of_allOrFirstFault_error hresult
    have hnonempty : forks.zip routines ≠ [] := by
      rintro hnil
      simp [hends, hzip, hnil] at hfault
    exact .inl ⟨⟨hnonempty, fault, (Run.bind_eq_of_error hresult _).1⟩,
      (Run.bind_eq_of_error hresult _).2.trans hstate⟩
  | ok results =>
    have hall : (allOrFirstFault name (ends.map (·.1))).Ends placed results placed := by
      have hkept : Keeps (fun t => t = placed) (allOrFirstFault name (ends.map (·.1)) :
        Run (Layout σ) (List (α × Requests))) := keeps_allOrFirstFault name _
      exact ⟨hresult, hkept placed rfl⟩
    -- or all of them are offered to the merge
    obtain ⟨hok, -⟩ := (ends_allOrFirstFault ..).1 hall
    obtain ⟨written, hwritten, rfl⟩ := exists_of_map_fst_eq hok
    obtain ⟨hmerge, hmerged⟩ := Run.bind_pure_eq (onTarget (κ := Planner)
      (Assignment.merge (ends.map fun w => .fork w.2) : Run σ Unit)) (written.map (·.1)) placed
    have hoffers : (ends.map fun w => Offer.fork w.2) = written.map fun w => Offer.fork w.2 := by
      rw [hwritten, List.map_map]
      rfl
    rw [hall.bind_apply]
    refine .inr ⟨written, (writtenOnForks_iff ..).2 hwritten.symm, ?_, ?_⟩
    · rw [← hoffers]
      exact hmerge
    · rw [← hoffers]
      exact hmerged

end Planner

/-! ## Families of forks -/

namespace FamilyKeeps

variable {I : RowSpan → σ → Prop} (h : FamilyKeeps I)

include h

/-- The calls of a region keep what every call keeps. -/
theorem regionKeeps (rows : RowSpan) : RegionKeeps (I rows) where
  enterRegion name := h.call rows (.enterRegion name)
  exitRegion := h.call rows .exitRegion
  nameColumn label column := h.call rows (.nameColumn label column)
  enableSelector label selector row := h.call rows (.enableSelector label selector row)
  queryAdvice column row := h.call rows (.queryAdvice column row)
  queryFixed column row := h.call rows (.queryFixed column row)
  queryInput column row := h.call rows (.queryInput column row)
  assignAdvice label column row value := h.call rows (.assignAdvice label column row value)
  assignFixed label column row value := h.call rows (.assignFixed label column row value)
  copy left right := h.call rows (.copy left right)

/-- The calls of an assignment keep what a family keeps. -/
theorem callKeeps (rows : RowSpan) : CallKeeps (I rows) :=
  { (h.regionKeeps rows).toCellKeeps with
    start := h.call rows .start
    close := h.call rows .close
    fillFrom := fun column row value => h.call rows (.fillFrom column row value)
    challenge := fun index => h.call rows (.challenge index)
    pushScope := fun name => h.call rows (.pushScope name)
    popScope := fun name => h.call rows (.popScope name) }

/-- Regions that are written on the forks of a member leave members. -/
theorem of_writtenOnForks {rows : RowSpan} {base lent : σ} {ranges : List RowSpan} {forks : List σ}
    (hbase : I rows base) (hfork : (Assignment.fork ranges).Ends base forks lent) {name : String}
    {starts : Array Nat} {first : Nat} {routines : List (Pass → Routine α)}
    {written : List ((α × Requests) × σ)}
    (hwritten : WrittenOnForks name starts first (forks.zip routines).zipIdx written) :
    ∀ w ∈ written, ∃ range, I range w.2 := by
  intro w hw
  -- the fork was written by the region of the same number
  obtain ⟨i, hi, rfl⟩ := List.getElem_of_mem hw
  obtain ⟨hlength, hall⟩ := List.forall₂_iff_get.1 hwritten
  have hi' : i < (forks.zip routines).zipIdx.length := by omega
  have hregion := hall i hi' hi
  have hin : ((forks.zip routines).zipIdx.get ⟨i, hi'⟩).1.1 ∈ forks := by
    rw [List.get_eq_getElem, List.getElem_zipIdx, List.getElem_zip]
    exact List.getElem_mem ..
  obtain ⟨range, hrange⟩ := h.forked hbase hfork _ hin
  -- the region is written on a fork of the family, which stays in it
  have hkeeps : Keeps (I range)
      (writeNumbered name starts first ((forks.zip routines).zipIdx.get ⟨i, hi'⟩)) :=
    (h.regionKeeps range).writeRegion starts _ _ _
  exact ⟨range, hregion.of_keeps hkeeps hrange⟩

/-- What a family keeps, batches on forks keep. -/
theorem batchKeeps (rows : RowSpan) : BatchKeeps (I rows) := by
  refine { h.regionKeeps rows, h.callKeeps rows with
    writeForked := fun name starts first ranges routines d hd => ?_ }
  have hkept := h.fork rows ranges d.target hd
  cases hresult : ((Assignment.fork ranges : Run σ (List σ)) d.target).result with
  | error fault =>
    -- the batch ends where its fork fails
    have hfork : (onTarget (Assignment.fork ranges) d).result = .error fault := hresult
    exact (Run.bind_eq_of_error hfork _).2 ▸ hkept
  | ok forks =>
    have hfork : (Assignment.fork ranges).Ends d.target forks _ := ⟨hresult, rfl⟩
    rcases Planner.writeForked_cases hfork name starts first routines with
      ⟨-, hstate⟩ | ⟨written, hwritten, -, hstate⟩
    · rw [hstate]
      exact hkept
    · -- every region was written, and its fork is still of the family
      have hmembers : ∀ f ∈ written.map (·.2), ∃ range, I range f := by
        intro f hf
        obtain ⟨w, hw, rfl⟩ := List.mem_map.1 hf
        exact h.of_writtenOnForks hd hfork hwritten w hw
      have hmerge := h.merge hkept hmembers
      rw [List.map_map] at hmerge
      rw [hstate]
      exact hmerge

end FamilyKeeps

/-! ## Batches that fail on forks -/

namespace Planner

/-- Does a batch fail after its fork and before the end of its merge? -/
def FailsOnForks (name : String) (routines : List (Pass → Routine α)) (d : Layout σ) : Prop :=
  ∃ ranges placed forks lent fault, (measureBatch name routines).Ends d ranges placed ∧
    (placed.kept.settings.parallel && Assignment.canFork placed.target) = true ∧
    (Assignment.fork ranges).Ends placed.target forks lent ∧
    (writeForked name placed.kept.starts d.kept.starts.size ranges routines placed).result =
      .error fault

omit [Assignment σ] in
/-- Measuring leaves the assignment and the settings alone. -/
theorem eq_of_measureBatch {name : String} {routines : List (Pass → Routine α)}
    {d placed : Layout σ} {ranges : List RowSpan}
    (h : (measureBatch name routines).Ends d ranges placed) :
    placed.target = d.target ∧ placed.kept.settings = d.kept.settings := by
  let same (e : Layout σ) : Prop := e.target = d.target ∧ e.kept.settings = d.kept.settings
  have hget : Keeps same Desk.getKept := fun _ he => he
  -- placing changes starts and frontiers only
  have hplace : ∀ name shape, Keeps same (place name shape) := by
    intro name shape
    refine hget.bind fun planner => (Keeps.emitAll _).bind fun _ => ?_
    exact Keeps.bind (fun _ he => he) fun _ => Keeps.emit _
  have hmeasure : ∀ name (routine : Routine α), Keeps same (measureAndPlace name routine) := by
    intro name routine
    refine hget.bind fun planner => (Keeps.emit _).bind fun _ => ?_
    have hshape : Keeps same (Footprint.measure planner.starts.size routine) :=
      (Keeps.within _ _).map _
    exact hshape.bind fun shape => (hplace name shape).bind fun _ =>
      hget.bind fun _ => Keeps.pure _
  have hloop : Keeps same (measureBatch name routines) := Keeps.each fun _ _ => hmeasure _ _
  exact h.of_keeps hloop ⟨rfl, rfl⟩

/-- A batch that fails in its writing ends there. -/
theorem assignRegions_of_writePlaced_error {name : String} {routines : List (Pass → Routine α)}
    {d placed : Layout σ} {ranges : List RowSpan} {fault : Fault}
    (hmeasure : (measureBatch name routines).Ends d ranges placed)
    (hfails : (writePlaced name d.kept.starts.size ranges routines placed placed).result =
      .error fault) :
    (assignRegions name routines d).result = .error fault ∧
      (assignRegions name routines d).state =
        (writePlaced name d.kept.starts.size ranges routines placed placed).state := by
  rw [assignRegions_apply, hmeasure.bind_apply, Run.get_bind_apply]
  exact Run.bind_eq_of_error hfails _

end Planner

/-! ## Boards of which rows stay lent -/

namespace Board

variable {φ : Type} {schema : Schema} {rows : RowSpan}

/-- Are rows of a board lent, the same ones in both of its stores? -/
def Stranded (schema : Schema) (rows : RowSpan) (b : Board φ) : Prop :=
  b.Even schema rows ∧ b.fixed.lent ≠ []

namespace Stranded

/-- No step brings stranded rows back. -/
theorem stable : Stable (Stranded schema rows : Board φ → Prop) := by
  intro b c hstep ⟨heven, hlent⟩
  refine ⟨Even.stable hstep heven, ?_⟩
  rw [hstep.lent_fixed]
  exact hlent

/-- What is lent is not carved. -/
theorem keeps_carve (ranges : List RowSpan) :
    Keeps (Stranded schema rows : Board φ → Prop) (carve ranges) := by
  rintro b ⟨heven, hlent⟩
  cases hsplit : b.fixed.split ranges with
  | error fault =>
    simp only [carve, Run.bind_apply, Run.get, Run.ofExcept, Run.raise, hsplit]
    exact ⟨heven, hlent⟩
  | ok x => exact absurd (Store.split_eq_ok_iff.1 hsplit).1 hlent

end Stranded

end Board

/-! ## Key builders of which rows stay lent -/

namespace KeyBuilder

variable {logRows : Nat} {schema : Schema} {rows : RowSpan}

/-- Are rows of a key builder lent? -/
def Stranded (schema : Schema) (rows : RowSpan) (k : KeyBuilder) : Prop :=
  k.board.Stranded schema rows

namespace Stranded

/-- What is lent is not split, so no fork comes of it, and it stays as it is. -/
theorem fork_fails {k : KeyBuilder} (hk : k.Stranded schema rows) (ranges : List RowSpan) :
    (∃ fault, (fork ranges k).result = .error fault) ∧ (fork ranges k).state.Stranded schema rows := by
  have hkept : Keeps (Stranded schema rows) (fork ranges) :=
    (keeps_onBoard (Board.keeps_grant ranges)).bind fun _ =>
      (keeps_onBoard (Board.Stranded.keeps_carve ranges)).bind fun _ => Keeps.pure _
  refine ⟨?_, hkept k hk⟩
  cases hresult : (fork ranges k).result with
  | error fault => exact ⟨fault, rfl⟩
  | ok forks =>
    obtain ⟨b, boards, hgrant, hends, -⟩ := (ends_fork ranges forks).1 ⟨hresult, rfl⟩
    obtain ⟨-, -, rfl⟩ := (Board.ends_grant ranges ()).1 hgrant
    exact absurd ((Board.ends_carve ranges boards).1 hends).1.1 hk.2

/-- Nothing that a planner asks for gives the rows back. -/
theorem batchKeeps : BatchKeeps (Stranded schema rows) := by
  refine { regionKeeps Board.Stranded.stable, callKeeps Board.Stranded.stable with
    writeForked := fun name starts first ranges routines d hd => ?_ }
  have hstranded : d.target.Stranded schema rows := hd
  obtain ⟨⟨fault, hfails⟩, hkept⟩ := hstranded.fork_fails ranges
  rw [Desk.OnTarget, (Planner.writeForked_of_fork_error hfails name starts first routines).2]
  exact hkept

/-- No batch is written on forks. -/
theorem assignRegions_fails {d : Layout KeyBuilder} (hd : d.target.Stranded schema rows)
    (hparallel : d.kept.settings.parallel = true) (name : String)
    (routines : List (Pass → Routine α)) :
    ∃ fault, (Planner.assignRegions name routines d).result = .error fault := by
  cases hresult : (Planner.assignRegions name routines d).result with
  | error fault => exact ⟨fault, rfl⟩
  | ok results =>
    obtain ⟨ranges, placed, written, u, hmeasure, hwritten, -⟩ :=
      Planner.ends_assignRegions.1 ⟨hresult, rfl⟩
    obtain ⟨htarget, hsettings⟩ := Planner.eq_of_measureBatch hmeasure
    -- the batch would have been written on forks
    rw [Planner.writePlaced_of_forked (by rw [hsettings, hparallel]; rfl)] at hwritten
    obtain ⟨forks, _, -, hfork, -⟩ := (Planner.ends_writeForked ..).1 hwritten
    obtain ⟨lent, hends, -⟩ := (Desk.ends_onTarget ..).1 hfork
    obtain ⟨⟨fault, hfails⟩, -⟩ := fork_fails (htarget ▸ hd) ranges
    rw [show (fork ranges placed.target).result = .ok forks from hends.1] at hfails
    cases hfails

/-- No key is taken. -/
theorem ofBuilder_fails {k : KeyBuilder} (hk : k.Stranded schema rows) (logRows : Nat)
    (schema : Schema) : ∃ fault, VerifyingKey.ofBuilder logRows schema k = .error fault := by
  cases hkey : VerifyingKey.ofBuilder logRows schema k with
  | error fault => exact ⟨fault, rfl⟩
  | ok vk =>
    obtain ⟨-, _, fixed, _, -, hfixed, -⟩ := VerifyingKey.ofBuilder_eq_ok_iff.1 hkey
    exact absurd (Store.release_eq_ok_iff.1 hfixed).1 hk.2

end Stranded

/-- A fork is given in a synthesis, and lends the rows of its ranges. -/
theorem lent_of_ends_fork {k l : KeyBuilder} {ranges : List RowSpan} {forks : List KeyBuilder}
    (h : (fork ranges).Ends k forks l) :
    l.board.fixed.lent = ranges ∧ l.board.phase = .synthesizing := by
  obtain ⟨b, boards, hgrant, hcarve, -⟩ := (ends_fork ranges forks).1 h
  obtain ⟨hphase, -, rfl⟩ := (Board.ends_grant ranges ()).1 hgrant
  obtain ⟨-, -, -, -, hboard⟩ := (Board.ends_carve ranges boards).1 hcarve
  rw [hboard]
  exact ⟨rfl, hphase⟩

/-- A merge that fails leaves rows lent, as long as there is something to merge or something lent. -/
theorem stranded_of_merge_error {k : KeyBuilder} {fs : List KeyBuilder} {fault : Fault}
    (hk : k.Even schema rows) (hphase : k.board.phase = .synthesizing)
    (hfs : ∀ f ∈ fs, ∃ range, f.Even schema range) (hnone : k.board.fixed.lent = [] → fs = [])
    (h : (merge (fs.map .fork) k).result = .error fault) :
    (merge (fs.map .fork) k).state.Stranded schema rows := by
  obtain ⟨n, c, hstops, hmerged⟩ := hk.of_merge_error hfs h
  obtain ⟨taken, -, htakes⟩ := hstops.takes
  refine ⟨familyKeeps.merge hk hfs, ?_⟩
  rw [hmerged, htakes.eq]
  show k.board.fixed.lent ≠ []
  -- if nothing were lent there would be no forks, and nothing to fail at
  intro hlent
  obtain rfl := hnone hlent
  cases hstops with
  | phase hnot => exact hnot hphase
  | copy _ hfs => simp at hfs
  | cells _ _ hwindows => exact hwindows hlent.symm

/-- A batch that fails between its fork and the end of its merge leaves rows lent. -/
theorem stranded_of_failsOnForks {d : Layout KeyBuilder} (hd : d.target.Even schema rows)
    {name : String} {routines : List (Pass → Routine α)}
    (hfails : Planner.FailsOnForks name routines d) :
    (∃ fault, (Planner.assignRegions name routines d).result = .error fault) ∧
      (Planner.assignRegions name routines d).state.target.Stranded schema rows := by
  obtain ⟨ranges, placed, forks, lent, fault, hmeasure, hforked, hfork, hwritten⟩ := hfails
  rw [← (Planner.eq_of_measureBatch hmeasure).1] at hd
  -- the fork lends the ranges and gives a fork for each
  obtain ⟨-, hforks⟩ := Even.of_ends_fork hfork
  obtain ⟨hlent, hphase⟩ := lent_of_ends_fork hfork
  have heven : lent.Even schema rows := hfork.of_keeps (familyKeeps.fork rows ranges) hd
  have hplaced : Planner.writePlaced name d.kept.starts.size ranges routines placed =
      Planner.writeForked name placed.kept.starts d.kept.starts.size ranges routines :=
    Planner.writePlaced_of_forked hforked ..
  obtain ⟨hresult, hstate⟩ := Planner.assignRegions_of_writePlaced_error hmeasure
    ((congrArg (fun run => (run placed).result) hplaced).trans hwritten)
  refine ⟨⟨fault, hresult⟩, ?_⟩
  rw [hstate, hplaced]
  rcases Planner.writeForked_cases hfork name placed.kept.starts d.kept.starts.size routines with
    ⟨⟨hnonempty, -⟩, hleft⟩ | ⟨written, hmembers, hends, hleft⟩
  · -- a region failed, so there is one
    rw [hleft]
    refine ⟨heven, fun hnone => hnonempty ?_⟩
    rw [hforks, ← hlent, hnone]
    rfl
  · -- the merge failed, which leaves what is lent
    have hfails : (merge ((written.map (·.2)).map .fork) lent).result = .error fault := by
      rw [List.map_map]
      rw [hends] at hwritten
      cases hmerge : (Assignment.merge (written.map fun w => .fork w.2) lent).result with
      | ok a =>
        rw [hmerge] at hwritten
        cases hwritten
      | error fault' =>
        rw [hmerge] at hwritten
        exact hmerge.trans (congrArg Except.error (Except.error.inj hwritten))
    have hfamily : ∀ f ∈ written.map (·.2), ∃ range, f.Even schema range := by
      intro f hf
      obtain ⟨w, hw, rfl⟩ := List.mem_map.1 hf
      exact familyKeeps.of_writtenOnForks hd hfork hmembers w hw
    -- with no range lent there is no fork either
    have hnone : lent.board.fixed.lent = [] → written.map (·.2) = [] := by
      intro hnone
      rw [hforks, ← hlent, hnone] at hmembers
      cases hmembers
      rfl
    have hstranded := stranded_of_merge_error heven hphase hfamily hnone hfails
    rw [List.map_map] at hstranded
    rw [hleft]
    exact hstranded

/-- Once a batch has failed between its fork and the end of its merge, no batch is written on forks
any more, be it empty, and no key is taken, whatever else is done. -/
theorem no_key_of_failed_batch {new : KeyBuilder} (hnew : create logRows schema = .ok new)
    {planner : Planner} {d e : Layout KeyBuilder} (hd : Continues ⟨new, planner⟩ d) {name : String}
    {routines : List (Pass → Routine α)} (hfails : Planner.FailsOnForks name routines d)
    (he : Continues (Planner.assignRegions name routines d).state e) :
    (∃ fault, (Planner.assignRegions name routines d).result = .error fault) ∧
      (e.kept.settings.parallel = true →
        ∀ {β : Type} (name : String) (routines : List (Pass → Routine β)),
          ∃ fault, (Planner.assignRegions name routines e).result = .error fault) ∧
      ∀ logRows schema, ∃ fault, VerifyingKey.ofBuilder logRows schema e.target = .error fault := by
  obtain ⟨⟨hgrid, -⟩, rfl⟩ := create_eq_ok_iff.1 hnew
  have heven : d.target.Even schema (Board.grid logRows) :=
    hd.of_keeps (familyKeeps.batchKeeps _) (.unused hgrid schema)
  obtain ⟨hthrown, hleft⟩ := stranded_of_failsOnForks heven hfails
  have hstranded : e.target.Stranded schema (Board.grid logRows) :=
    he.of_keeps Stranded.batchKeeps hleft
  exact ⟨hthrown, fun hparallel _ name routines =>
    hstranded.assignRegions_fails hparallel name routines, hstranded.ofBuilder_fails⟩

/-- A region that makes cells of two columns equal. -/
def crossing : Routine Unit := do
  let left ← Routine.assignAdvice "left" 0 0 (.known (.whole 1))
  let right ← Routine.assignAdvice "right" 1 0 (.known (.whole 1))
  Routine.constrainEqual left.cell right.cell

/-- A key builder whose synthesis has begun, with a planner that writes batches on forks. Only one of
the two columns takes part in copies. -/
def crossed : Layout KeyBuilder :=
  ⟨(AssignmentCall.start.perform (unused 4 Prover.oneSided)).state, .fresh [] ⟨true, 0, 10⟩⟩

/-- What a batch of a crossing leaves, once the synthesis is ended. -/
def uncrossed : Layout KeyBuilder :=
  let left := (Planner.assignRegions "pair" [fun _ => crossing] crossed).state
  { left with target := (AssignmentCall.close.perform left.target).state }

/-- The copy is accepted by the fork and refused in the merge. -/
theorem crossing_failsOnForks : Planner.FailsOnForks "pair" [fun _ => crossing] crossed := by
  let placed : Layout KeyBuilder := (measureBatch "pair" [fun _ => crossing] crossed).state
  have hmeasure : (measureBatch "pair" [fun _ => crossing]).Ends crossed [⟨0, 1⟩] placed :=
    ⟨by decide +kernel, rfl⟩
  have hfork : ((Assignment.fork [⟨0, 1⟩] : Run KeyBuilder (List KeyBuilder))
      placed.target).result.isOk = true := by decide +kernel
  obtain ⟨forks, hends⟩ := Run.exists_ends_of_isOk hfork
  have hwritten : (Planner.writeForked "pair" placed.kept.starts crossed.kept.starts.size [⟨0, 1⟩]
      [fun _ => crossing] placed).result = .error (.notInPermutation (.advice 1)) := by
    decide +kernel
  exact ⟨_, placed, forks, _, _, hmeasure, by decide +kernel, hends, hwritten⟩

/-- Afterwards even the empty batch fails, and no key is taken. -/
theorem no_key_of_failed_batch_crossing :
    create 4 Prover.oneSided = .ok (unused 4 Prover.oneSided) ∧
      Continues ⟨unused 4 Prover.oneSided, crossed.kept⟩ crossed ∧
      Continues (Planner.assignRegions "pair" [fun _ => crossing] crossed).state uncrossed ∧
      (∃ fault, (Planner.assignRegions "none" ([] : List (Pass → Routine Unit)) uncrossed).result =
        .error fault) ∧
      uncrossed.target.board.phase = .sealed ∧
      ∃ fault, VerifyingKey.ofBuilder 4 Prover.oneSided uncrossed.target = .error fault := by
  have hnew : create 4 Prover.oneSided = .ok (unused 4 Prover.oneSided) :=
    create_eq_ok_iff.2 ⟨by decide, rfl⟩
  have hbefore : Continues ⟨unused 4 Prover.oneSided, crossed.kept⟩ crossed :=
    .call (.refl _) .start
  have hafter : Continues (Planner.assignRegions "pair" [fun _ => crossing] crossed).state uncrossed :=
    .call (.refl _) .close
  obtain ⟨-, hempty, hkey⟩ := no_key_of_failed_batch hnew hbefore crossing_failsOnForks hafter
  exact ⟨hnew, hbefore, hafter, hempty (by decide +kernel) "none" [], by decide +kernel, hkey 4 _⟩

end KeyBuilder

end CircuitLayout
