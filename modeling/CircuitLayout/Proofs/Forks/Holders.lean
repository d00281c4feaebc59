import CircuitLayout.Proofs.Forks.Stranded

namespace CircuitLayout

/-! # Forks that somebody holds

Rows that are lent come back by a merge of as many forks as there are ranges, so whoever lends rows is
owed forks. Main statements: `Holding.held_le`, nobody holds more forks than there are ranges lent, and
`Holding.outline_eq`, rows that are lent while nobody holds a fork stay lent, whatever is done.
-/

open Run (Keeps)
open Desk (OnTarget onTarget)

/-! ## Layouts and the forks in the hands of others -/

/-- A layout, and the forks of its assignment that somebody holds. -/
structure Holding (σ : Type) where
  layout : Layout σ
  held : List σ

/-- What may become of a layout and of its forks. Planners and calls are asked for, successfully or
not, and planners are replaced by others. The forks that a request gives are held from then on. A fork
that is held may be used, in ways that are not followed here. Forks are given away for a merge, in any
order and not all of them at once, and they are gone whether it succeeds or fails. -/
inductive Holding.Becomes {σ : Type} [Assignment σ] : Holding σ → Holding σ → Prop where
  | refl (a : Holding σ) : Becomes a a
  | perform {a b : Holding σ} (h : Becomes a b) {ρ : Type} (c : LayoutCall ρ) :
      Becomes a { b with layout := (Planner.perform c b.layout).state }
  | call {a b : Holding σ} (h : Becomes a b) (c : AssignmentCall) :
      Becomes a { b with layout := { b.layout with target := (c.perform b.layout.target).state } }
  | replan {a b : Holding σ} (h : Becomes a b) (planner : Planner) :
      Becomes a { b with layout := { b.layout with kept := planner } }
  | refused {a b : Holding σ} (h : Becomes a b) {ranges : List RowSpan} {fault : Fault}
      (hfork : ((Assignment.fork ranges : Run σ (List σ)) b.layout.target).result = .error fault) :
      Becomes a { b with layout := { b.layout with
        target := ((Assignment.fork ranges : Run σ (List σ)) b.layout.target).state } }
  | forked {a b : Holding σ} (h : Becomes a b) {ranges : List RowSpan} {forks : List σ} {lent : σ}
      (hfork : (Assignment.fork ranges).Ends b.layout.target forks lent) :
      Becomes a ⟨{ b.layout with target := lent }, b.held ++ forks⟩
  | used {a b : Holding σ} (h : Becomes a b) {before after : List σ} {f : σ}
      (hheld : b.held = before ++ f :: after) (g : σ) :
      Becomes a { b with held := before ++ g :: after }
  | merged {a b : Holding σ} (h : Becomes a b) {forks rest : List σ}
      (hheld : (forks ++ rest).Perm b.held) :
      Becomes a ⟨{ b.layout with
        target := ((Assignment.merge (forks.map .fork) : Run σ Unit) b.layout.target).state }, rest⟩

/-! ## What is owed -/

/-- Does a store of an assignment lend rows for forks, one for each range, and only if it lends none
yet? It takes them back for as many forks, if at all, and else it keeps its outline. -/
structure Owes {σ : Type} [Assignment σ] (outline : σ → Store.Outline) : Prop where
  region : ∀ o, RegionKeeps fun s => outline s = o
  call : ∀ o, CallKeeps fun s => outline s = o
  /-- What is lent is not split again. -/
  fork : ∀ (o : Store.Outline) ranges, o.lent ≠ [] →
    Keeps (fun s => outline s = o) (Assignment.fork ranges : Run σ (List σ))
  forked : ∀ {s t : σ} {ranges : List RowSpan} {forks : List σ},
    (Assignment.fork ranges).Ends s forks t →
      (outline s).lent = [] ∧ forks.length = ranges.length ∧
        outline t = ⟨(outline s).window, ranges⟩ ∧ ∀ range ∈ ranges, (outline s).window.Covers range
  merge : ∀ (o : Store.Outline) (forks : List σ), forks.length ≠ o.lent.length →
    Keeps (fun s => outline s = o) (Assignment.merge (forks.map .fork) : Run σ Unit)

namespace Owes

variable {σ : Type} [Assignment σ] {outline : σ → Store.Outline} (h : Owes outline)

include h

/-- Planners leave what is lent, since their batches find nothing to fork. -/
theorem batchKeeps {o : Store.Outline} (ho : o.lent ≠ []) : BatchKeeps fun s => outline s = o := by
  refine { h.region o, h.call o with
    writeForked := fun name starts first ranges routines d hd => ?_ }
  have hlent : outline d.target = o := hd
  have hkept := h.fork o ranges ho d.target hlent
  cases hresult : ((Assignment.fork ranges : Run σ (List σ)) d.target).result with
  | error fault =>
    rw [Desk.OnTarget, (Planner.writeForked_of_fork_error hresult name starts first routines).2]
    exact hkept
  | ok forks =>
    have hnone := (h.forked ⟨hresult, rfl⟩).1
    exact absurd (hlent ▸ hnone) ho

variable {a b : Holding σ}

/-- Nobody holds more forks than there are ranges lent. -/
theorem held_le (hb : a.Becomes b) (ha : a.held = []) :
    b.held.length ≤ (outline b.layout.target).lent.length := by
  -- so it stays where the outline does, unless nothing was lent
  have hstays : ∀ {n : Nat} {s t : σ}, n ≤ (outline s).lent.length →
      ((outline s).lent ≠ [] → outline t = outline s) → n ≤ (outline t).lent.length := by
    intro n s t hn hsame
    by_cases hlent : (outline s).lent = []
    · rw [hlent] at hn
      exact Nat.le_trans hn (Nat.zero_le _)
    · rwa [hsame hlent]
  induction hb with
  | refl => simp [ha]
  | perform _ c ih => exact hstays ih fun hlent => (h.batchKeeps hlent).perform c _ rfl
  | call _ c ih =>
    exact hstays ih fun _ => c.keeps_perform (h.region _) (h.call _) _ rfl
  | replan _ _ ih => exact ih
  | @refused b _ ranges fault hfork ih => exact hstays ih fun hlent => h.fork _ ranges hlent _ rfl
  | @forked b _ ranges forks lent hfork ih =>
    -- before the fork nothing was lent, so nobody held a fork
    obtain ⟨hlent, hlength, hafter, -⟩ := h.forked hfork
    rw [hlent] at ih
    have hheld : b.held = [] := List.eq_nil_of_length_eq_zero (Nat.le_zero.1 ih)
    rw [hheld, List.nil_append, hafter, hlength]
  | @used b _ before after f hheld g ih =>
    -- a fork that is used stays in its holder's hands
    rw [hheld] at ih
    simpa using ih
  | @merged b _ forks rest hheld ih =>
    have hlength := hheld.length_eq
    rw [List.length_append] at hlength
    by_cases hcount : forks.length = (outline b.layout.target).lent.length
    · -- all forks were given away
      have hrest : rest.length = 0 := by omega
      rw [hrest]
      exact Nat.zero_le _
    · rw [h.merge _ forks hcount b.layout.target rfl]
      show rest.length ≤ _
      omega

/-- Where forks are given, nobody held one. -/
theorem held_eq_nil (hb : a.Becomes b) (ha : a.held = []) {ranges : List RowSpan} {forks : List σ}
    {lent : σ} (hfork : (Assignment.fork ranges).Ends b.layout.target forks lent) : b.held = [] := by
  have hle := h.held_le hb ha
  rw [(h.forked hfork).1] at hle
  exact List.eq_nil_of_length_eq_zero (Nat.le_zero.1 hle)

/-- Rows that are lent while nobody holds a fork stay lent, and nobody will hold one. -/
theorem outline_eq (hb : a.Becomes b) (ha : a.held = [])
    (hlent : (outline a.layout.target).lent ≠ []) :
    outline b.layout.target = outline a.layout.target ∧ b.held = [] := by
  -- as long as rows are missing there is nobody to bring them back
  induction hb with
  | refl => exact ⟨rfl, ha⟩
  | perform _ c ih => exact ⟨(h.batchKeeps hlent).perform c _ ih.1, ih.2⟩
  | call _ c ih => exact ⟨c.keeps_perform (h.region _) (h.call _) _ ih.1, ih.2⟩
  | replan _ _ ih => exact ih
  | @refused b _ ranges fault hfork ih => exact ⟨h.fork _ ranges hlent _ ih.1, ih.2⟩
  | forked _ hfork ih => exact absurd (ih.1 ▸ (h.forked hfork).1) hlent
  | used _ hheld g ih =>
    rw [ih.2] at hheld
    simp at hheld
  | @merged b _ forks rest hheld ih =>
    -- there is nothing to merge, and rows are missing
    rw [ih.2] at hheld
    obtain ⟨rfl, rfl⟩ := List.append_eq_nil_iff.1 hheld.eq_nil
    exact ⟨h.merge _ [] (fun hzero => hlent (List.eq_nil_of_length_eq_zero hzero.symm)) _ ih.1, rfl⟩

end Owes

/-! ## Boards -/

namespace Board

variable {φ : Type}

/-- Does one of the stores of a board keep its outline but where a board is carved or rejoined as it
should be? -/
structure Owes (outline : Board φ → Store.Outline) : Prop where
  stable : ∀ o, Stable fun b => outline b = o
  carve : ∀ (o : Store.Outline) ranges, o.lent ≠ [] → Keeps (fun b => outline b = o) (carve ranges)
  carved : ∀ {b c : Board φ} {ranges : List RowSpan} {boards : List (Board φ)},
    (Board.carve ranges).Ends b boards c →
      (outline b).lent = [] ∧ outline c = ⟨(outline b).window, ranges⟩ ∧
        ∀ range ∈ ranges, (outline b).window.Covers range
  rejoin : ∀ (o : Store.Outline) (forks : List (Board φ)), forks.length ≠ o.lent.length →
    Keeps (fun b => outline b = o) (rejoin forks)

/-- The fixed cells of a board. -/
theorem owes_fixed : Owes fun b : Board φ => b.fixed.outline where
  stable o b c hstep hb := by
    cases hstep with
    | cell h => exact (Store.outline_of_set h).trans hb
    | filled h => exact (Store.outline_of_fill h).trans hb
    | phase | selector | joined | kept => exact hb
  -- what is lent already cannot be split
  carve o ranges ho b hb := by
    cases hsplit : b.fixed.split ranges with
    | error fault =>
      simp only [Board.carve, Run.bind_apply, Run.get, Run.ofExcept, Run.raise, hsplit]
      exact hb
    | ok x =>
      have hnone : b.fixed.outline.lent = [] := (Store.split_eq_ok_iff.1 hsplit).1
      exact absurd (hb ▸ hnone) ho
  carved hends := by
    obtain ⟨hlent, hranges, -, -, rfl⟩ := (ends_carve ..).1 hends
    exact ⟨hlent.1, rfl, Even.covers_of_checkRanges hranges⟩
  -- as many forks as ranges are asked for, and there are none
  rejoin o forks ho := by
    refine Keeps.get_bind fun b hb => ?_
    refine Keeps.ofExcept_bind fun fixed hfixed => ?_
    have hcount := (Store.rejoin_eq_ok_iff.1 hfixed).1
    rw [List.length_map] at hcount
    exact absurd (hcount.trans (congrArg (·.lent.length) hb)) ho

/-- The selectors of a board. -/
theorem owes_selectors : Owes fun b : Board φ => b.selectors.outline where
  stable o b c hstep hb := by
    cases hstep with
    | selector h => exact (Store.outline_of_set h).trans hb
    | phase | cell | filled | joined | kept => exact hb
  carve o ranges ho := by
    refine Keeps.get_bind fun b hb => ?_
    refine (Keeps.ofExcept _).bind ?_
    -- the fixed cells may be split already when the selectors are refused
    rintro ⟨parts, fixed⟩
    refine Keeps.bind (P := fun b : Board φ => b.selectors.outline = o) (Keeps.set hb) fun _ => ?_
    refine Keeps.ofExcept_bind fun selectors hsplit => ?_
    have hnone : b.selectors.outline.lent = [] := (Store.split_eq_ok_iff.1 hsplit).1
    exact absurd (hb ▸ hnone) ho
  carved hends := by
    obtain ⟨hlent, -, hranges, -, rfl⟩ := (ends_carve ..).1 hends
    exact ⟨hlent.2, rfl, Even.covers_of_checkRanges hranges⟩
  -- the selectors are rejoined last, and ask for as many forks as the rest
  rejoin o forks ho := by
    refine Keeps.get_bind fun b hb => ?_
    refine (Keeps.ofExcept _).bind fun fixed => ?_
    refine Keeps.bind (P := fun b : Board φ => b.selectors.outline = o) (Keeps.set hb) fun _ => ?_
    refine Keeps.ofExcept_bind fun selectors hselectors => ?_
    have hcount := (Store.rejoin_eq_ok_iff.1 hselectors).1
    rw [List.length_map] at hcount
    exact absurd (hcount.trans (congrArg (·.lent.length) hb)) ho

end Board

/-! ## Provers -/

namespace Prover

/-- What is kept of the board is kept of the prover. -/
theorem keeps_onBoard {P : Board Content → Prop} {α : Type} {m : Run (Board Content) α}
    (h : Keeps P m) : Keeps (fun p : Prover => P p.board) (onBoard m) :=
  Keeps.zoom fun p hp => h p.board hp

theorem stable_outline {outline : Board Content → Store.Outline} (h : Board.Owes outline)
    (o : Store.Outline) : Stable fun p => outline p.board = o := by
  intro p q hstep hp
  cases hstep with
  | board hstep => exact h.stable o hstep hp
  | cell | record | scopes => exact hp

theorem stable_outline_advice (o : Store.Outline) : Stable fun p => p.advice.outline = o := by
  intro p q hstep hp
  cases hstep with
  | cell h => exact (Store.outline_of_set h).trans hp
  | board | record | scopes => exact hp

/-- What a store of the board owes, the prover owes. -/
theorem owes_board {outline : Board Content → Store.Outline} (h : Board.Owes outline) :
    Owes fun p : Prover => outline p.board where
  region o := (stable_outline h o).regionKeeps fun _ _ _ hp => hp
  call o := (stable_outline h o).callKeeps
  fork o ranges ho := by
    refine ((stable_outline h o).keeps_onBoard fun _ _ => Board.keeps_grant ranges).bind fun _ => ?_
    refine Keeps.get_bind fun p hp => ?_
    refine (Keeps.ofExcept _).bind ?_
    -- the advice is split before the board is carved
    rintro ⟨parts, advice⟩
    refine Keeps.bind (P := fun p : Prover => outline p.board = o) (Keeps.set hp) fun _ => ?_
    exact (keeps_onBoard (h.carve o ranges ho)).bind fun _ => Keeps.pure _
  forked hends := by
    obtain ⟨b, parts, advice, boards, c, hgrant, hsplit, hcarve, rfl, rfl⟩ := (ends_fork ..).1 hends
    obtain ⟨-, -, rfl⟩ := (Board.ends_grant ..).1 hgrant
    obtain ⟨hlent, hafter⟩ := h.carved hcarve
    refine ⟨hlent, ?_, hafter⟩
    obtain ⟨-, -, rfl, -⟩ := Store.split_eq_ok_iff.1 hsplit
    rw [List.length_map, List.length_zip, List.length_map, Board.length_of_carve hcarve, Nat.min_self]
  merge o forks ho := by
    have hstable := stable_outline h o
    refine (hstable.keeps_onBoard fun _ _ => Board.keeps_requireSynthesizing _).bind fun _ => ?_
    refine (hstable.keeps_mergeOnes (fun _ _ hp => hp) forks).bind_of_ends
      fun s taken t hends ht => ?_
    obtain ⟨rfl, -⟩ := ends_mergeOnes.1 hends
    refine Keeps.get_bind (P := fun p : Prover => outline p.board = o) (fun p hp => ?_) t ht
    refine (Keeps.ofExcept _).bind fun advice => ?_
    refine Keeps.bind (P := fun p : Prover => outline p.board = o) (Keeps.set hp) fun _ => ?_
    -- the rejoin finds the rows of the board missing
    exact keeps_onBoard (h.rejoin o _ (by rwa [List.length_map]))

/-- The advice of a prover. -/
theorem owes_advice : Owes fun p : Prover => p.advice.outline where
  region o := (stable_outline_advice o).regionKeeps fun _ _ _ hp => hp
  call o := (stable_outline_advice o).callKeeps
  fork o ranges ho := by
    refine ((stable_outline_advice o).keeps_onBoard fun _ _ => Board.keeps_grant ranges).bind
      fun _ => ?_
    refine Keeps.get_bind fun p hp => ?_
    refine Keeps.ofExcept_bind fun x hsplit => ?_
    -- a split that succeeds begins with nothing lent
    have hnone : p.advice.outline.lent = [] := (Store.split_eq_ok_iff.1 hsplit).1
    exact absurd (hp ▸ hnone) ho
  forked hends := by
    obtain ⟨-, hlength, -⟩ := (owes_board Board.owes_fixed).forked hends
    obtain ⟨b, parts, advice, boards, c, -, hsplit, -, -, rfl⟩ := (ends_fork ..).1 hends
    obtain ⟨hnone, hranges, -, rfl⟩ := Store.split_eq_ok_iff.1 hsplit
    exact ⟨hnone, hlength, rfl, Board.Even.covers_of_checkRanges hranges⟩
  merge o forks ho := by
    have hstable := stable_outline_advice o
    refine (hstable.keeps_onBoard fun _ _ => Board.keeps_requireSynthesizing _).bind fun _ => ?_
    refine (hstable.keeps_mergeOnes (fun _ _ hp => hp) forks).bind_of_ends
      fun s taken t hends ht => ?_
    obtain ⟨rfl, -⟩ := ends_mergeOnes.1 hends
    refine Keeps.get_bind (P := fun p : Prover => p.advice.outline = o) (fun p hp => ?_) t ht
    refine Keeps.ofExcept_bind fun advice hadvice => ?_
    -- as many forks as ranges are asked for, and there are none
    have hcount := (Store.rejoin_eq_ok_iff.1 hadvice).1
    rw [List.length_map] at hcount
    exact absurd (hcount.trans (congrArg (·.lent.length) hp)) ho

end Prover

/-! ## Key builders -/

/-- What a store of the board owes, the key builder owes. -/
theorem KeyBuilder.owes_board {outline : Board Fraction → Store.Outline} (h : Board.Owes outline) :
    Owes fun k : KeyBuilder => outline k.board where
  region o := regionKeeps (h.stable o)
  call o := callKeeps (h.stable o)
  fork o ranges ho := by
    have hgrant : Keeps (fun b => outline b = o) (Board.grant ranges) := Board.keeps_grant ranges
    exact (keeps_onBoard hgrant).bind fun _ =>
      (keeps_onBoard (h.carve o ranges ho)).bind fun _ => Keeps.pure _
  forked hends := by
    obtain ⟨b, boards, hgrant, hcarve, rfl⟩ := (ends_fork ..).1 hends
    obtain ⟨-, -, rfl⟩ := (Board.ends_grant ..).1 hgrant
    obtain ⟨hlent, hafter⟩ := h.carved hcarve
    exact ⟨hlent, by rw [List.length_map, Board.length_of_carve hcarve], hafter⟩
  merge o forks ho := by
    have hcheck : Keeps (fun b => outline b = o) (Board.requireSynthesizing "merge") :=
      Board.keeps_requireSynthesizing _
    refine (keeps_onBoard hcheck).bind fun _ => ?_
    refine (keeps_mergeOnes (h.stable o) forks).bind_of_ends fun s taken t hends ht => ?_
    obtain ⟨rfl, -⟩ := ends_mergeOnes.1 hends
    -- the rejoin finds the rows of the board missing
    exact keeps_onBoard (h.rejoin o _ (by rwa [List.length_map])) t ht

end CircuitLayout
