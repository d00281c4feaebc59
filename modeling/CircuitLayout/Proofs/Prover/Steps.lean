import CircuitLayout.KeyBuilder
import CircuitLayout.Prover
import CircuitLayout.Proofs.Board.Steps
import CircuitLayout.Proofs.Simulation.Keeps

namespace CircuitLayout

/-! # What happens to provers and key builders

Between forks and merges little happens to a prover, and all of it is listed here. A property that
none of these steps takes away is kept by every call, whether it fails or not; to a key builder
nothing happens but what happens to its board. Main statements: `Prover.Stable.layoutKeeps` and
`KeyBuilder.layoutKeeps_of_board`.
-/

variable {α : Type}

/-! ## Provers -/

namespace Prover

/-- What may happen to a prover between forks and merges, other than a region being opened or
closed. -/
inductive Step : Prover → Prover → Prop where
  | board {p : Prover} {b : Board Content} (h : Board.Step p.board b) : Step p { p with board := b }
  | cell {p : Prover} {column row : Nat} {value : Content} {advice : Store Content}
      (h : p.advice.set column row value = .ok advice) : Step p { p with advice := advice }
  | record (p : Prover) (change : RegionRecord → RegionRecord) :
      Step p { p with current := p.current.map change }
  | scopes (p : Prover) (scopes : List String) : Step p { p with scopes := scopes }

/-- A property of provers that no step takes away. -/
def Stable (P : Prover → Prop) : Prop := ∀ ⦃p q⦄, Step p q → P p → P q

namespace Stable

variable {P : Prover → Prop} (h : Stable P)

include h

/-- What no step of the board takes away, no run on the board does. -/
theorem keeps_onBoard {m : Run (Board Content) α}
    (hm : ∀ Q : Board Content → Prop, Board.Stable Q → Run.Keeps Q m) : Run.Keeps P (onBoard m) := by
  refine Run.Keeps.zoom fun p hp => ?_
  have hstable : Board.Stable fun b => P { p with board := b } := fun b c hstep hb =>
    h (p := { p with board := b }) (.board hstep) hb
  exact hm _ hstable p.board hp

/-- A stable property does not ask for the open region. -/
theorem keeps_record (change : RegionRecord → RegionRecord) : Run.Keeps P (record change) :=
  Run.Keeps.modify fun p hp => h (.record p change) hp

/-- An assignment is one step of a cell, and then one of the records. -/
theorem keeps_assignAdvice (label : String) (column row : Nat) (value : Producer) :
    Run.Keeps P (assignAdvice label column row value) := by
  refine (h.keeps_onBoard fun _ _ => Board.keeps_requireSynthesizing _).bind fun _ => ?_
  refine (h.keeps_onBoard fun _ _ => Board.keeps_requireWritable _ row).bind fun _ => ?_
  refine (keeps_askProducer _ value).bind fun v => ?_
  cases v with
  -- without a value nothing is written
  | none => exact Run.Keeps.raise _
  | some v =>
    refine Run.Keeps.get_bind fun p hp => ?_
    refine Run.Keeps.ofExcept_bind fun advice hset => ?_
    refine (Run.Keeps.set (h (.cell hset) hp)).bind fun _ => ?_
    refine (Run.Keeps.emit _).bind fun _ => ?_
    exact (h.keeps_record _).bind fun _ => Run.Keeps.pure _

theorem keeps_queryInput (column row : Nat) : Run.Keeps P (queryInput column row) := by
  refine (h.keeps_onBoard fun _ _ => Board.keeps_requireUsable row).bind fun _ => ?_
  refine Run.Keeps.get.bind fun p => ?_
  split
  · exact Run.Keeps.raise _
  · exact Run.Keeps.pure _

omit h in
theorem keeps_challenge (index : Nat) : Run.Keeps P (challenge index) := by
  refine Run.Keeps.get.bind fun p => ?_
  split
  · exact Run.Keeps.raise _
  · exact Run.Keeps.pure _

/-- What no step takes away, no call does but the opening and closing of regions, forks and
merges. -/
theorem callKeeps : CallKeeps P where
  nameColumn _ _ := h.keeps_record _
  enableSelector _ selector row :=
    (h.keeps_onBoard fun _ hQ => hQ.keeps_enableSelector selector row).bind fun _ => h.keeps_record _
  -- a query checks the row and reads; it is no step of the prover
  queryAdvice _ row :=
    (h.keeps_onBoard fun _ _ => Board.keeps_requireUsable row).bind fun _ =>
      Run.Keeps.get.bind fun _ => (Run.Keeps.ofExcept _).bind fun _ => Run.Keeps.pure _
  queryFixed _ row :=
    (h.keeps_onBoard fun _ _ => Board.keeps_requireUsable row).bind fun _ =>
      Run.Keeps.get.bind fun _ => (Run.Keeps.ofExcept _).bind fun _ => Run.Keeps.pure _
  queryInput := h.keeps_queryInput
  assignAdvice label column row value := (h.keeps_assignAdvice label column row value).map some
  assignFixed label column row value :=
    ((h.keeps_onBoard fun _ hQ => hQ.keeps_assignFixed _ label column row value).bind fun _ =>
      (h.keeps_record _).bind fun _ => Run.Keeps.pure _).map some
  copy left right := h.keeps_onBoard fun _ hQ => hQ.keeps_copy left right
  -- the phase is a step of the board
  start := h.keeps_onBoard fun _ hQ => hQ.keeps_advance _
  close := h.keeps_onBoard fun _ hQ => hQ.keeps_advance _
  fillFrom column row value := h.keeps_onBoard fun _ hQ => hQ.keeps_fillFrom _ column row value
  challenge := keeps_challenge
  pushScope _ := Run.Keeps.modify fun p hp => h (.scopes p _) hp
  popScope _ := Run.Keeps.modify fun p hp => h (.scopes p _) hp

/-- What no change of the records takes away either, no call on a region does. -/
theorem regionKeeps
    (hrecords : ∀ p records current, P p → P { p with records := records, current := current }) :
    RegionKeeps P where
  toCellKeeps := h.callKeeps.toCellKeeps
  enterRegion name := by
    refine Run.Keeps.get_bind fun p hp => ?_
    split
    · exact Run.Keeps.raise _
    · exact Run.Keeps.set (hrecords p p.records _ hp)
  exitRegion := by
    refine Run.Keeps.get_bind fun p hp => ?_
    split
    · exact Run.Keeps.raise _
    · exact Run.Keeps.set (hrecords p _ _ hp)

/-- What no change of the records takes away either, no fork does whose copies and records are taken
over. -/
theorem keeps_mergeOnes (hrecords : ∀ p records, P p → P { p with records := records })
    (forks : List Prover) :
    Run.Keeps P (Run.each (fun (offer, i) => mergeOne i offer) (forks.map Offer.fork).zipIdx) := by
  refine Run.Keeps.each ?_
  rintro ⟨offer, i⟩ hx
  rcases List.mem_map.1 (List.fst_mem_of_mem_zipIdx hx) with ⟨fork, -, rfl⟩
  refine Run.Keeps.bind ?_ fun _ => ?_
  · refine (h.keeps_onBoard fun _ hQ => hQ.keeps_replay fork.board).bind fun _ => ?_
    exact Run.Keeps.modify fun p hp => hrecords p _ hp
  · exact (h.keeps_onBoard fun _ _ => Board.keeps_reportMerge i fork.board).bind fun _ =>
      Run.Keeps.pure _

end Stable

/-- What does not depend on the cells stays when a prover is forked, whether it may be or not. -/
theorem keeps_fork_of_cells {P : Prover → Prop}
    (hcells : ∀ p fixed selectors advice, P p →
      P { p with board := { p.board with fixed := fixed, selectors := selectors }, advice := advice })
    (ranges : List RowSpan) : Run.Keeps P (fork ranges) := by
  have hadvice : ∀ (p : Prover) advice, P p → P { p with advice := advice } :=
    fun p advice hp => hcells p p.board.fixed p.board.selectors advice hp
  -- the board is forked in two parts: the ranges are granted, and carved out of its stores
  have hcarve : Run.Keeps P (onBoard (Board.carve ranges)) :=
    Run.Keeps.zoom fun p hp => Board.keeps_carve_of_cells
      (fun b fixed selectors hb => hcells { p with board := b } fixed selectors p.advice hb)
      ranges p.board hp
  have hgrant : Run.Keeps P (onBoard (Board.grant ranges)) := Run.Keeps.zoom fun p hp =>
    Board.keeps_grant (P := fun b => P { p with board := b }) ranges p.board hp
  refine hgrant.bind fun _ => ?_
  refine Run.Keeps.get_bind fun p hp => ?_
  refine (Run.Keeps.ofExcept _).bind fun parts => ?_
  refine (Run.Keeps.set (hadvice p _ hp)).bind fun _ => ?_
  exact hcarve.bind fun _ => Run.Keeps.pure _

/-- What no step takes away, nor any change of cells and records, is kept whatever a prover is asked
for. -/
theorem Stable.layoutKeeps {P : Prover → Prop} (h : Stable P)
    (hcells : ∀ p fixed selectors advice, P p →
      P { p with board := { p.board with fixed := fixed, selectors := selectors }, advice := advice })
    (hrecords : ∀ p records current, P p → P { p with records := records, current := current }) :
    LayoutKeeps P := by
  refine { h.regionKeeps hrecords, h.callKeeps with
    fork := keeps_fork_of_cells hcells, merge := fun forks => ?_ }
  -- the copies and the records are steps; the cells are what the property does not ask for
  have hrejoin : ∀ boards, Run.Keeps P (onBoard (Board.rejoin boards)) := fun boards =>
    Run.Keeps.zoom fun p hp => Board.keeps_rejoin_of_cells
      (fun b fixed selectors hb => hcells { p with board := b } fixed selectors p.advice hb)
      boards p.board hp
  refine (h.keeps_onBoard fun _ _ => Board.keeps_requireSynthesizing _).bind fun _ => ?_
  refine (h.keeps_mergeOnes (fun p _ hp => hrecords p _ p.current hp) forks).bind fun forks => ?_
  refine Run.Keeps.get_bind fun p hp => ?_
  refine (Run.Keeps.ofExcept _).bind fun advice => ?_
  refine (Run.Keeps.set ?_).bind fun _ => hrejoin _
  exact hcells p p.board.fixed p.board.selectors advice hp

end Prover

/-! ## Key builders -/

namespace KeyBuilder

variable {P : Board Fraction → Prop}

/-- What the board of a key builder keeps, the key builder does. -/
theorem keeps_onBoard {m : Run (Board Fraction) α} (h : Run.Keeps P m) :
    Run.Keeps (fun k : KeyBuilder => P k.board) (onBoard m) :=
  Run.Keeps.zoom fun k hk => h k.board hk

variable (h : Board.Stable P)

include h

/-- What no step of the board takes away, no call does but forks and merges. -/
theorem regionKeeps : RegionKeeps fun k : KeyBuilder => P k.board where
  enterRegion _ := Run.Keeps.pure ()
  exitRegion := Run.Keeps.pure ()
  nameColumn _ _ := Run.Keeps.pure ()
  enableSelector _ selector row := keeps_onBoard (h.keeps_enableSelector selector row)
  queryAdvice _ _ := Run.Keeps.pure _
  queryFixed _ row :=
    (keeps_onBoard (Board.keeps_requireWritable _ row)).bind fun _ =>
      Run.Keeps.get.bind fun _ => (Run.Keeps.ofExcept _).bind fun _ => Run.Keeps.pure _
  queryInput _ row := (keeps_onBoard (Board.keeps_requireUsable row)).bind fun _ => Run.Keeps.pure _
  assignAdvice _ _ _ _ := Run.Keeps.pure none
  assignFixed label column row value :=
    (keeps_onBoard (h.keeps_assignFixed _ label column row value)).map some
  copy left right := keeps_onBoard (h.keeps_copy left right)

/-- So is it with the other calls. -/
theorem callKeeps : CallKeeps fun k : KeyBuilder => P k.board where
  toCellKeeps := (regionKeeps h).toCellKeeps
  start := keeps_onBoard (h.keeps_advance _)
  close := keeps_onBoard (h.keeps_advance _)
  fillFrom column row value := keeps_onBoard (h.keeps_fillFrom _ column row value)
  challenge _ := Run.Keeps.pure none
  pushScope _ := Run.Keeps.pure ()
  popScope _ := Run.Keeps.pure ()

/-- Nor does any fork whose copies are taken over. -/
theorem keeps_mergeOnes (forks : List KeyBuilder) :
    Run.Keeps (fun k : KeyBuilder => P k.board)
      (Run.each (fun (offer, i) => mergeOne i offer) (forks.map Offer.fork).zipIdx) := by
  refine Run.Keeps.each ?_
  rintro ⟨offer, i⟩ hx
  rcases List.mem_map.1 (List.fst_mem_of_mem_zipIdx hx) with ⟨fork, -, rfl⟩
  refine (keeps_onBoard (h.keeps_replay fork.board)).bind fun _ => ?_
  exact (keeps_onBoard (Board.keeps_reportMerge i fork.board)).bind fun _ => Run.Keeps.pure _

/-- What no step of the board takes away, nor lending and taking back its cells, is kept whatever a
key builder is asked for. -/
theorem layoutKeeps_of_board (hcarve : ∀ ranges, Run.Keeps P (Board.carve ranges))
    (hrejoin : ∀ boards, Run.Keeps P (Board.rejoin boards)) :
    LayoutKeeps fun k : KeyBuilder => P k.board := by
  refine { regionKeeps h, callKeeps h with fork := fun ranges => ?_, merge := fun forks => ?_ }
  · refine (keeps_onBoard (Board.keeps_grant ranges)).bind fun _ => ?_
    exact (keeps_onBoard (hcarve ranges)).bind fun _ => Run.Keeps.pure _
  · refine (keeps_onBoard (Board.keeps_requireSynthesizing _)).bind fun _ => ?_
    exact (keeps_mergeOnes h forks).bind fun _ => keeps_onBoard (hrejoin _)

/-- So it is with what no change of cells takes away. -/
theorem layoutKeeps_of_cells
    (hcells : ∀ b fixed selectors, P b → P { b with fixed := fixed, selectors := selectors }) :
    LayoutKeeps fun k : KeyBuilder => P k.board :=
  layoutKeeps_of_board h (Board.keeps_carve_of_cells hcells) (Board.keeps_rejoin_of_cells hcells)

end KeyBuilder

end CircuitLayout
