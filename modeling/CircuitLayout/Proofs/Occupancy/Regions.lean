import CircuitLayout.Circuit
import CircuitLayout.Proofs.Occupancy.Books
import CircuitLayout.Proofs.Occupancy.Reports
import CircuitLayout.Proofs.Run.Recounts

namespace CircuitLayout

/-! # Regions and the books

What the two passes over a region, and the routine of a table, do to the books. The measuring pass
takes up lanes and offsets in the footprint just as the ledger does; the writing pass writes only
squares that the region claims. Main statements: `upholds_measure`, `maintains_writeRegion`,
`maintains_writeBatch` and `maintains_writeTable`.
-/

open Run (Emits Maintains Upholds)
open Event (IsQuiet WritesAtMost)
open Ledger (monitor maintains_of_quiet maintains_of_writesAtMost)
open Desk (onTarget getKept modifyKept withinRegion)

variable {σ τ κ α : Type} {watch : Watch} {p : Planner} {L : Ledger → Prop}

/-! ## Announced calls -/

/-- A call that takes something up announces just this. -/
theorem RegionCall.announce_of_takes {c : RegionCall} {lane : Lane} {offset : Nat}
    (h : c.takes? = some (lane, offset)) :
    (c.announce : Run σ Unit) = Run.emit (.touched lane offset) := by
  cases c with
  | enableSelector | assignAdvice | assignFixed | assignConstant | assignInput =>
    cases h
    rfl
  | nameColumn | queryAdvice | queryFixed | constrainConstant | constrainEqual | globalRow => cases h

/-- A call that takes nothing up tells nothing about the squares of the grid. -/
theorem RegionCall.quiet_announce {c : RegionCall} (h : c.takes? = none) :
    Emits IsQuiet (c.announce : Run σ Unit) := by
  cases c with
  | enableSelector | assignAdvice | assignFixed | assignConstant | assignInput => cases h
  | queryAdvice | queryFixed | constrainConstant | constrainEqual => exact Emits.emit trivial
  | nameColumn | globalRow => exact Emits.pure ()

/-- What is told once a call is done tells of no square. -/
theorem RegionCall.quiet_acknowledge (c : RegionCall) (reply : c.Reply) :
    Emits IsQuiet (c.acknowledge reply : Run σ Unit) := by
  unfold RegionCall.acknowledge
  split
  · exact Emits.emit trivial
  · exact Emits.pure ()

/-! ## Measuring -/

/-- What a call leaves of a footprint: the lane and the offset that it takes up are in it. It writes
nothing into the journal. -/
theorem Footprint.observe_eq (c : RegionCall) (f : Footprint) :
    (observe c f).events = [] ∧
      (observe c f).state =
        match c.takes? with
        | some (lane, offset) => f.touch lane offset
        | none => f := by
  cases c with
  | _ => exact ⟨rfl, rfl⟩

section Measured

variable {Λ : Type} {w : Monitor Λ} {M : Λ → Footprint → Prop}
  (hquiet : ∀ {l f e}, e.IsQuiet → M l f → w.Promises l e ∧ M (w.step l e) f)
  (htouch : ∀ {l f} lane offset, M l f → w.Assumes l (.touched lane offset) →
    w.Promises l (.touched lane offset) ∧ M (w.step l (.touched lane offset)) (f.touch lane offset))

include hquiet htouch

/-- A call that is measured is taken up by the ledger when it is announced, and by the footprint
right after. -/
theorem Footprint.upholds_observed (c : RegionCall) :
    Upholds w M
      (do
        c.announce
        observe c : Run Footprint c.Reply)
      (fun _ => M) M := by
  have hobserve := Upholds.of_silent (w := w) (P := M) fun f => (observe_eq c f).1
  -- between the two the ledger is ahead of the footprint by this call
  refine Upholds.bind (Q := fun _ l f => M l (observe c f).state) ?_ fun _ => hobserve
  cases htakes : c.takes? with
  | none =>
    -- a call that takes up nothing leaves both as they are
    have hsame : ∀ f, (observe c f).state = f := by
      intro f
      rw [(observe_eq c f).2, htakes]
    simp only [hsame]
    refine Upholds.of_still (fun f => ?_) fun _ => c.keeps_announce
    exact Upholds.of_emits (RegionCall.quiet_announce htakes) fun l e he hl _ => hquiet he hl
  | some t =>
    rcases t with ⟨lane, offset⟩
    rw [RegionCall.announce_of_takes htakes]
    apply Upholds.emit
    intro l f hl hassumed
    rw [(observe_eq c f).2, htakes]
    exact htouch lane offset hl hassumed

/-- What a ledger and a footprint say of one another is kept while a region is measured, if no quiet
event takes it away, and no touch that both take down. -/
theorem Footprint.upholds_measured (region : Nat) {S : σ → Prop} (routine : Routine α) :
    Upholds w (fun l s => M l (.blank region) ∧ S s) (measure region routine : Run σ Footprint)
      (fun shape l s => M l shape ∧ S s) (fun l s => (∃ shape, M l shape) ∧ S s) := by
  have hnote : ∀ n, Upholds w M (Run.emit (.note n) : Run Footprint Unit) (fun _ => M) M := by
    intro n
    apply Upholds.emit
    intro l f hl _
    exact hquiet trivial hl
  -- call by call the two go on telling the same
  have hroutine := Program.upholds_run hnote
    (fun c : RegionCall => upholds_observed (M := M) hquiet htouch c) routine
  -- the footprint is a state of its own, which begins blank
  have hown : Upholds w (fun l f => M l (.blank region) ∧ f = .blank region)
      (routine.run fun (c : RegionCall) => do
        c.announce
        observe c : Run Footprint α)
      (fun _ => M) (fun l _ => ∃ shape, M l shape) := by
    refine (hroutine.imp_fault fun _ f hl => ⟨f, hl⟩).imp_pre ?_
    rintro l _ ⟨hl, rfl⟩
    exact hl
  exact (Upholds.within hown).map _ fun _ _ _ hl => hl

end Measured

/-- The books while the next region is measured: its footprint is the one of what the ledger says
that it took up. -/
structure Measuring (watch : Watch) (p : Planner) (l : Ledger) (f : Footprint) : Prop where
  books : Books watch l p
  worker : l.worker = .measurer p.starts.size
  issued : ∀ t ∈ l.measured p.starts.size, watch.Issued t.1
  footprint : f = .ofTouches p.starts.size (l.measured p.starts.size)

namespace Measuring

/-- A measuring pass begins with nothing taken down for the region to come. -/
theorem begin {l : Ledger} (h : Books watch l p) :
    Measuring watch p (l.step (.pass p.starts.size .measuring)) (.blank p.starts.size) := by
  constructor
  case books => exact h.measure _ (Nat.le_refl _) _
  case worker => rfl
  case issued =>
    intro t ht
    simp only [Ledger.step, Function.update_self] at ht
    exact absurd ht List.not_mem_nil
  case footprint =>
    simp only [Ledger.step, Function.update_self, Footprint.ofTouches_nil]

/-- A touch of an issued lane is taken down in the ledger and in the footprint alike. -/
theorem touch {l : Ledger} {f : Footprint} (h : Measuring watch p l f) {lane : Lane}
    (hlane : watch.Issued lane) (offset : Nat) :
    Measuring watch p (l.touch lane offset) (f.touch lane offset) := by
  have htouch : l.touch lane offset = { l with
      measured := Function.update l.measured p.starts.size
        (l.measured p.starts.size ++ [(lane, offset)]) } := by
    simp only [Ledger.touch, h.worker]
  rw [htouch]
  constructor
  case books => exact h.books.measure l.worker (Nat.le_refl _) _
  case worker => exact h.worker
  case issued =>
    intro t ht
    simp only [Function.update_self] at ht
    rcases List.mem_append.1 ht with ht | ht
    · exact h.issued t ht
    · rcases List.mem_singleton.1 ht with rfl
      exact hlane
  case footprint =>
    simp only [Function.update_self, Footprint.ofTouches_append]
    rw [← h.footprint]

end Measuring

/-- The footprint of a measured region is the one of what the ledger says that it took up. -/
theorem upholds_measure {S : σ → Prop} (routine : Routine α) :
    Upholds (monitor watch) (fun l s => Measuring watch p l (.blank p.starts.size) ∧ S s)
      (Footprint.measure p.starts.size routine : Run σ Footprint)
      (fun shape l s => Measuring watch p l shape ∧ S s)
      (fun l s => Books watch l p ∧ S s) := by
  have hmeasure := Footprint.upholds_measured (w := monitor watch) (M := Measuring watch p) (S := S)
    (fun {l f e} he hl => Ledger.keeps_of_isQuiet (L := (Measuring watch p · f)) he l hl)
    (fun lane offset hl hassumed => ⟨trivial, hl.touch hassumed.1 offset⟩) p.starts.size routine
  exact hmeasure.imp_fault fun _ _ ⟨⟨_, hl⟩, hs⟩ => ⟨hl.books, hs⟩

/-! ## Writing -/

/-- What is done between the opening and the closing of a region maintains what its body does. -/
theorem maintains_withinRegion [Assignment σ] (hreports : Reports σ) {name : String}
    {body : Run (Desk σ κ) α} (hbody : Maintains (monitor watch) L body) :
    Maintains (monitor watch) L (withinRegion name body) := by
  refine (maintains_of_quiet (Emits.zoom (hreports.enterRegion name)).isQuiet).bind fun _ => ?_
  refine hbody.attempt.bind fun result => ?_
  refine (maintains_of_quiet (Emits.zoom hreports.exitRegion).isQuiet).bind fun _ => ?_
  exact Upholds.settle result

/-- A call that is written writes at most the square that it takes up. -/
theorem emits_writeCall [Assignment σ] (hreports : Reports σ) (starts : Array Nat) (region : Nat)
    (c : RegionCall) :
    Emits
      (fun e => e.IsQuiet ∨ ∃ lane offset, c.takes? = some (lane, offset) ∧
        e = .wrote lane (Word.add (starts.getD region 0) offset))
      (writeCall starts region c : Run (Desk σ Requests) c.Reply) := by
  have hquiet : ∀ e : Event, e.IsMute → e.IsQuiet ∨ ∃ lane offset,
      c.takes? = some (lane, offset) ∧ e = .wrote lane (Word.add (starts.getD region 0) offset) :=
    fun e he => .inl he.isQuiet
  -- what tells of one square at most is either quiet or tells of this one
  have hwrites : ∀ {lane offset}, c.takes? = some (lane, offset) → ∀ e : Event,
      e.WritesAtMost lane (Word.add (starts.getD region 0) offset) → e.IsQuiet ∨ ∃ lane offset,
        c.takes? = some (lane, offset) ∧
          e = .wrote lane (Word.add (starts.getD region 0) offset) := by
    intro lane offset htakes e he
    rcases he with he | he
    · exact .inl he
    · exact .inr ⟨lane, offset, htakes, he⟩
  cases c with
  | enableSelector label selector offset =>
    exact (Emits.zoom (hreports.enableSelector label selector _)).imp (hwrites rfl)
  | nameColumn label column => exact (Emits.zoom (hreports.nameColumn label column)).imp hquiet
  | queryAdvice column offset => exact (Emits.zoom (hreports.queryAdvice column _)).imp hquiet
  | queryFixed column offset => exact (Emits.zoom (hreports.queryFixed column _)).imp hquiet
  | assignAdvice label column offset value =>
    refine ((Emits.zoom (hreports.assignAdvice label column _ value)).imp (hwrites rfl)).bind ?_
    intro v
    exact Emits.pure _
  | assignFixed label column offset value =>
    refine ((Emits.zoom (hreports.assignFixed label column _ value)).imp (hwrites rfl)).bind ?_
    intro v
    exact Emits.pure _
  | assignConstant label column offset constant =>
    refine ((Emits.zoom (hreports.assignAdvice label column _ _)).imp (hwrites rfl)).bind ?_
    intro _
    exact (Emits.modify _).bind fun _ => Emits.pure _
  | assignInput label input row column offset =>
    refine ((Emits.zoom (hreports.queryInput input row)).imp hquiet).bind ?_
    intro value
    refine ((Emits.zoom (hreports.assignAdvice label column _ _)).imp (hwrites rfl)).bind ?_
    intro _
    refine ((Emits.zoom (hreports.copy _ _)).imp hquiet).bind ?_
    intro _
    exact Emits.pure _
  | constrainConstant cell constant => exact Emits.modify _
  | constrainEqual left right =>
    refine ((Run.mute_ofExcept (positionOf starts right)).imp hquiet).bind ?_
    intro r
    refine ((Run.mute_ofExcept (positionOf starts left)).imp hquiet).bind ?_
    intro l
    exact (Emits.zoom (hreports.copy l r)).imp hquiet
  | globalRow offset => exact Emits.pure _

/-- The books while a region is written. -/
def Writing (watch : Watch) (p : Planner) (region : Nat) (l : Ledger) : Prop :=
  Books watch l p ∧ l.worker = .region region

/-- While a region is written, it may write what it claims, and claims it still. -/
theorem Writing.write {l : Ledger} {region row : Nat} {lane : Lane} (h : Writing watch p region l)
    (hclaim : l.Claims p.starts region lane row) :
    l.Promises watch (.wrote lane row) ∧ Writing watch p region (l.write lane row) ∧
      (l.write lane row).Claims p.starts region lane row := by
  rcases h with ⟨hbooks, hworker⟩
  have hwrite : l.write lane row = { l with written := l.written ++ [(region, ⟨lane, row⟩)] } := by
    simp only [Ledger.write, hworker]
  have hwritten : Books watch (l.write lane row) p := by
    apply hbooks.write
    intro other hother
    rw [hworker] at hother
    cases hother
    exact hclaim
  refine ⟨hbooks.promises_region hworker hclaim, ⟨hwritten, ?_⟩, ?_⟩
  · rw [hwrite]
    exact hworker
  · rw [hwrite]
    exact hclaim

/-- A call that is announced takes up only what the region claims. -/
theorem upholds_announce {region : Nat} (hregion : region < p.starts.size) (c : RegionCall) :
    Upholds (monitor watch) (fun l _ => Writing watch p region l) (c.announce : Run σ Unit)
      (fun _ l _ => Writing watch p region l ∧ ∀ lane offset, c.takes? = some (lane, offset) →
        l.Claims p.starts region lane (Word.add (p.starts.getD region 0) offset))
      (fun l _ => Writing watch p region l) := by
  cases htakes : c.takes? with
  | none =>
    refine (maintains_of_quiet (RegionCall.quiet_announce htakes)).imp_post fun _ l _ hl => ⟨hl, ?_⟩
    intro lane offset hsome
    cases hsome
  | some t =>
    rcases t with ⟨lane, offset⟩
    rw [RegionCall.announce_of_takes htakes]
    apply Upholds.emit
    intro l s hl hassumed
    -- the ledger stays as it is, and says that the region was measured with this offset
    have hmeasured : (lane, offset) ∈ l.measured region := by
      have hcase := hassumed.2
      simp only [hl.2] at hcase
      exact hcase
    have hsame : (monitor watch).step l (.touched lane offset) = l := by
      simp only [monitor, Ledger.step, Ledger.touch, hl.2]
    refine ⟨trivial, ?_⟩
    rw [hsame]
    refine ⟨hl, fun lane' offset' hsome => ?_⟩
    cases hsome
    exact ⟨hregion, offset, hmeasured, rfl⟩

/-- A call that is written takes up only what the region claims, and writes nothing else. -/
theorem maintains_announcedCall [Assignment σ] (hreports : Reports σ) {region : Nat}
    (hregion : region < p.starts.size) (c : RegionCall) :
    Maintains (monitor watch) (Writing watch p region)
      (announcedCall p.starts region c : Run (Desk σ Requests) c.Reply) := by
  refine (upholds_announce hregion c).bind fun _ => ?_
  have hwrite : Maintains (monitor watch) (fun l => Writing watch p region l ∧
      ∀ lane offset, c.takes? = some (lane, offset) →
        l.Claims p.starts region lane (Word.add (p.starts.getD region 0) offset))
      (writeCall p.starts region c : Run (Desk σ Requests) c.Reply) := by
    apply Upholds.of_emits (emits_writeCall hreports p.starts region c)
    intro l e he hl _
    rcases he with hquiet | ⟨lane, offset, htakes, rfl⟩
    · rcases Ledger.step_of_isQuiet hquiet l with ⟨hpromised, hstep⟩
      have hstep' : (monitor watch).step l e = l := hstep
      refine ⟨hpromised, ?_⟩
      rw [hstep']
      exact hl
    · -- of what calls may write, this one writes only its own square
      have hclaim := hl.2 lane offset htakes
      rcases hl.1.write hclaim with ⟨hpromised, hwriting, hclaims⟩
      refine ⟨hpromised, hwriting, fun lane' offset' hsame => ?_⟩
      rw [htakes] at hsame
      cases hsame
      exact hclaims
  have hwritten := (hwrite.imp_post fun _ _ _ hl => hl.1).imp_fault fun _ _ hl => hl.1
  refine hwritten.bind fun reply => ?_
  refine (maintains_of_quiet (c.quiet_acknowledge reply)).bind fun _ => ?_
  exact Upholds.pure fun _ _ hl => hl

/-- A placed region writes only squares that no other owner has. -/
theorem maintains_writeRegion [Assignment σ] (hreports : Reports σ) {region : Nat}
    (hregion : region < p.starts.size) (name : String) (routine : Routine α) :
    Maintains (monitor watch) (Books watch · p)
      (writeRegion p.starts region name routine : Run σ (α × Requests)) := by
  have hnote : ∀ n, Maintains (monitor watch) (Writing watch p region)
      (Run.emit (.note n) : Run (Desk σ Requests) Unit) :=
    fun n => maintains_of_quiet (Emits.emit trivial)
  -- what every call maintains, the routine does
  have hroutine := Program.upholds_run hnote (maintains_announcedCall hreports hregion) routine
  -- the turn passes to the region, and stays with it for all its calls
  have hbody : Maintains (monitor watch) (Books watch · p) (do
      Run.emit (.pass region .writing)
      routine.run (announcedCall p.starts region) : Run (Desk σ Requests) α) := by
    refine Upholds.bind (Q := fun _ l _ => Writing watch p region l) ?_ fun _ => ?_
    · apply Upholds.emit
      intro l d hl _
      exact ⟨trivial, hl.work _, rfl⟩
    · exact (hroutine.imp_post fun _ _ _ hl => hl.1).imp_fault fun _ _ hl => hl.1
  apply Upholds.zoom
  refine (maintains_withinRegion hreports hbody).bind fun a => ?_
  exact maintains_of_quiet ((Emits.get.map _).bind fun _ => Emits.pure _)

/-! ## Batches -/

/-- To gather the answers of a batch tells of no square. -/
theorem quiet_allOrFirstFault (name : String) (results : List (Except Fault α)) :
    Emits IsQuiet (Planner.allOrFirstFault name results : Run σ (List α)) := by
  refine Emits.each ?_
  rintro ⟨fault | a, i⟩ -
  · exact (Emits.emit trivial).bind fun _ => Emits.rethrow _
  · exact Emits.pure a

/-- The regions of a batch write only squares that no other owner has, in order and on forks. -/
theorem maintains_writeBatch [Assignment σ] (hreports : Reports σ) (forked : Bool) (name : String)
    (first : Nat) (ranges : List RowSpan) (routines : List (Pass → Routine α))
    (hplaced : first + routines.length ≤ p.starts.size) :
    Maintains (monitor watch) (Books watch · p)
      (Planner.writeBatch forked name p.starts first ranges routines :
        Run (Layout σ) (List (α × Requests))) := by
  cases forked with
  | true =>
    -- forks and merges tell of no square
    refine (maintains_of_quiet (Emits.zoom (hreports.fork ranges)).isQuiet).bind fun forks => ?_
    refine Upholds.bind (Q := fun _ l _ => Books watch l p) ?_ fun written => ?_
    · apply Upholds.each_mem
      rintro ⟨⟨fork, routine⟩, i⟩ hx
      -- there are no more forks with a routine than routines
      have hi := (List.mem_zipIdx hx).2.1
      rw [List.length_zip] at hi
      exact Upholds.aside (maintains_writeRegion hreports (by omega) _ _)
    · refine (maintains_of_quiet (quiet_allOrFirstFault name _)).bind fun results => ?_
      refine (maintains_of_quiet (Emits.zoom (hreports.merge _)).isQuiet).bind fun _ => ?_
      exact Upholds.pure fun _ _ hl => hl
  | false =>
    refine Upholds.bind (Q := fun _ l _ => Books watch l p) ?_ fun results =>
      maintains_of_quiet (quiet_allOrFirstFault name results)
    apply Upholds.each_mem
    rintro ⟨routine, i⟩ hx
    have hi := (List.mem_zipIdx hx).2.1
    exact (Upholds.zoom (maintains_writeRegion hreports (by omega) _ _)).attempt

/-! ## Tables -/

/-- The cells of a table are no matter to the books. -/
theorem maintains_tableCall [Assignment σ] (hreports : Reports σ) (sealedTables : List Nat)
    (c : TableCall) :
    Maintains (monitor watch) (fun l => Books watch l p ∧ l.worker = .table)
      (Planner.tableCall sealedTables c : Run (Desk σ TableColumns) Unit) := by
  cases c with
  | assignCell label index row value =>
    -- checks and the list of columns tell of no square
    refine (maintains_of_quiet (Run.mute_refuse _ _).isQuiet).bind fun _ => ?_
    refine (maintains_of_quiet (Emits.get.map _)).bind fun columns => ?_
    refine (maintains_of_quiet (Emits.modify _)).bind fun _ => ?_
    have hassign : Maintains (monitor watch) (fun l => Books watch l p ∧ l.worker = .table)
        (onTarget (Assignment.assignFixed label index row value) :
          Run (Desk σ TableColumns) (Option Fraction)) := by
      apply maintains_of_writesAtMost (Emits.zoom (hreports.assignFixed label index row value))
      intro l hl
      have hsame : l.write (.column (.fixed index)) row = l := by
        simp only [Ledger.write, hl.2]
      -- a table leaves no entry in the ledger
      rw [hsame]
      simp only [Ledger.Promises, hl.2]
      exact ⟨trivial, hl.1, trivial⟩
    refine hassign.bind fun v => ?_
    split
    · exact maintains_of_quiet ((Run.mute_refuse _ _).isQuiet.bind fun _ => Emits.modify _)
    · exact maintains_of_quiet (Emits.modify _)

/-- A table is written with the books in order. -/
theorem maintains_writeTable [Assignment σ] (hreports : Reports σ) (name : String)
    (routine : TableRoutine) :
    Maintains (monitor watch) (Books watch · p)
      (Planner.writeTable name routine : Run (Layout σ) TableColumns) := by
  refine (maintains_of_quiet (Emits.get.map _)).bind fun planner => ?_
  have hnote : ∀ n, Maintains (monitor watch) (fun l => Books watch l p ∧ l.worker = .table)
      (Run.emit (.note n) : Run (Desk σ TableColumns) Unit) :=
    fun n => maintains_of_quiet (Emits.emit trivial)
  have hroutine := Program.upholds_run hnote
    (maintains_tableCall hreports planner.sealedTables) routine
  -- the turn passes to the table, whose cells are no squares of the ledger
  have hbody : Maintains (monitor watch) (Books watch · p) (do
      Run.emit (.table name)
      routine.run (Planner.tableCall planner.sealedTables) : Run (Desk σ TableColumns) Unit) := by
    refine Upholds.bind (Q := fun _ l _ => Books watch l p ∧ l.worker = .table) ?_ fun _ => ?_
    · apply Upholds.emit
      intro l d hl _
      exact ⟨trivial, hl.work _, rfl⟩
    · exact (hroutine.imp_post fun _ _ _ hl => hl.1).imp_fault fun _ _ hl => hl.1
  apply Upholds.zoom
  apply Upholds.zoom
  refine (maintains_withinRegion hreports hbody).bind fun _ => ?_
  exact maintains_of_quiet (Emits.get.map _)

/-! ## Placing -/

/-- Does an event tell of a region that is measured and placed? -/
def Event.IsPlacing : Event → Prop
  | .pass _ .measuring | .note _ | .touched .. | .looked .. | .demanded _ | .reused .. | .placed .. =>
    True
  | _ => False

/-- To measure and place a region tells only of what it touches and of its place. -/
theorem Planner.emits_measureAndPlace (name : String) (routine : Routine α) :
    Emits Event.IsPlacing (measureAndPlace name routine : Run (Layout σ) RowSpan) := by
  have hannounce : ∀ c : RegionCall, Emits Event.IsPlacing (c.announce : Run Footprint Unit) := by
    intro c
    cases c with
    | nameColumn | globalRow => exact Emits.pure ()
    | _ => exact Emits.emit trivial
  have hcall : ∀ c : RegionCall, Emits Event.IsPlacing (do
      c.announce
      Footprint.observe c : Run Footprint c.Reply) := by
    intro c
    refine (hannounce c).bind fun _ => ?_
    intro f e he
    rw [(Footprint.observe_eq c f).1] at he
    cases he
  -- events of rows used again belong to the place
  have hreused : ∀ (planner : Planner) (shape : Footprint),
      ∀ e ∈ planner.frontiers.placeEvents shape, e.IsPlacing := by
    intro planner shape e he
    obtain ⟨_, _, _, rfl⟩ := Frontiers.reused_of_mem_placeEvents he
    trivial
  have hmeasure : ∀ region, Emits Event.IsPlacing
      (Footprint.measure region routine : Run (Layout σ) Footprint) :=
    fun region => (Program.emits_run (fun _ => trivial) hcall routine).within.map _
  refine (Emits.get.map _).bind fun planner => ?_
  refine (Emits.emit trivial).bind fun _ => ?_
  refine (hmeasure planner.starts.size).bind fun shape => ?_
  refine Emits.bind ?_ fun _ => (Emits.get.map _).bind fun _ => Emits.pure _
  refine (Emits.get.map _).bind fun planner => ?_
  refine (Emits.emitAll (hreused planner shape)).bind fun _ => ?_
  exact (Emits.modify _).bind fun _ => Emits.emit trivial

/-- A region that is measured and placed starts where its lanes are free, behind the regions before
it, and nothing else changes. -/
theorem Planner.of_ends_measureAndPlace {name : String} {routine : Routine α} {d d' : Layout σ}
    {span : RowSpan} (hends : (measureAndPlace name routine).Ends d span d') :
    ∃ shape, (Footprint.measure d.kept.starts.size routine).Ends d shape d ∧
      span = ⟨(d.kept.frontiers.place shape).1, Word.add (d.kept.frontiers.place shape).1 shape.height⟩ ∧
      d' = ⟨d.target, { d.kept with
        starts := d.kept.starts.push (d.kept.frontiers.place shape).1
        frontiers := (d.kept.frontiers.place shape).2 }⟩ := by
  rw [Run.Ends, measureAndPlace, Desk.getKept_bind_apply, ← Run.Ends] at hends
  have hrest := (Run.ends_emit_bind ..).1 hends
  obtain ⟨shape, u, hmeasure, hplace⟩ := (Run.ends_bind ..).1 hrest
  -- the measuring pass has a state of its own
  have hsame : u = d := hmeasure.of_keeps (P := (· = d)) ((Run.Keeps.within _ _).map _) rfl
  subst hsame
  obtain ⟨_, v, hplaced, hread⟩ := (Run.ends_bind ..).1 hplace
  rw [Run.Ends, Desk.getKept_bind_apply, ← Run.Ends] at hread
  obtain ⟨rfl, rfl⟩ := (Run.ends_pure ..).1 hread
  -- it is placed where its lanes are free
  rw [Run.Ends, place, Desk.getKept_bind_apply, ← Run.Ends] at hplaced
  obtain ⟨_, w, hreused, hpush⟩ := (Run.ends_bind ..).1 hplaced
  obtain rfl := (Run.ends_emitAll ..).1 hreused
  obtain ⟨_, x, hpush, htold⟩ := (Run.ends_bind ..).1 hpush
  obtain rfl := (Run.ends_modify ..).1 hpush
  obtain rfl := (Run.ends_emit ..).1 htold
  refine ⟨shape, hmeasure, ?_, rfl⟩
  simp only [Books.getD_push_size]
  rfl

end CircuitLayout
