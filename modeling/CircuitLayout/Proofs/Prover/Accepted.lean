import CircuitLayout.Proofs.Forks.FailedMerges
import CircuitLayout.Proofs.Prover.Effects

namespace CircuitLayout

/-! # Which copies are accepted

A copy that is asked for is accepted or refused, and what a fork has accepted waits for the merge,
which takes it over up to the first copy that is refused. Main statement: `Prover.accepted_iff`, the
copies of a prover are those that were accepted on the way to it, in their order.
-/

namespace Board

variable {φ : Type} {b c : Board φ} {fs : List (Board φ)} {l m : List (Position × Position)}

/-- Of some copies that are added one after another, those before the first one that is refused. -/
def accepted (b : Board φ) : List (Position × Position) → List (Position × Position)
  | [] => []
  | x :: rest =>
    let added := connect x.1 x.2 b
    match added.result with
    | .ok _ => x :: added.state.accepted rest
    | .error _ => []

/-- The copies that a merge takes over, given those that the forks have kept. Outside of a synthesis
it takes over none. -/
def takenOver (b : Board φ) (copies : List (Position × Position)) : List (Position × Position) :=
  if b.phase = .synthesizing then b.accepted copies else []

/-- Behind copies that are taken it is decided on the others by what is then left. -/
theorem accepted_append (h : b.Takes l c) (m : List (Position × Position)) :
    b.accepted (l ++ m) = l ++ c.accepted m := by
  induction l generalizing b with
  | nil =>
    obtain rfl := takes_nil.1 h
    rfl
  | cons x l ih =>
    obtain ⟨d, ⟨hresult, hstate⟩, hrest⟩ := takes_cons.1 h
    rw [List.cons_append, accepted, hresult, hstate, ih hrest, List.cons_append]

/-- Copies that are all taken are all accepted. -/
theorem accepted_of_takes (h : b.Takes l c) : b.accepted l = l := by
  simpa [accepted] using accepted_append h []

/-- The copies before the first one that is refused. -/
theorem accepted_of_refuses (h : b.Takes l c) {x : Position × Position} (hrefuses : c.Refuses x) :
    b.accepted (l ++ x :: m) = l := by
  obtain ⟨fault, hfault⟩ := hrefuses
  rw [accepted_append h, accepted, hfault, List.append_nil]

/-- Wherever a merge stops, it has taken over what it can. -/
theorem Stops.takes_takenOver {n : Nat} (h : b.Stops fs n c) : b.Takes (b.takenOver (kept fs)) c := by
  cases h with
  | phase h => rw [takenOver, if_neg h, takes_nil]
  | @copy before after f _ l m x hphase hfs hpending htakes hrefuses =>
    have hkept : kept fs = (kept before ++ l) ++ x :: (m ++ kept after) := by
      simp [hfs, kept, hpending]
    rwa [takenOver, if_pos hphase, hkept, accepted_of_refuses htakes hrefuses]
  | cells hphase htakes _ => rwa [takenOver, if_pos hphase, accepted_of_takes htakes]

end Board

/-- The copies that a call adds to those of a prover: a copy that is accepted adds itself, and no
other call adds any. -/
def AssignmentCall.added (p : Prover) : AssignmentCall → List (Position × Position)
  | copy left right =>
    match ((Assignment.copy left right : Run Prover Unit) p).result with
    | .ok _ => [(left, right)]
    | .error _ => []
  | _ => []

namespace Prover

variable {schema : Schema} {rows : RowSpan} {a b p q : Prover} {copies : List (Position × Position)}

/-! ## Single steps -/

/-- A call that succeeds adds a copy if it is one. -/
theorem copies_of_ends {c : AssignmentCall} {x : c.Reply}
    (hends : (c.perform : Run Prover c.Reply).Ends p x q) :
    q.board.copies.toList = p.board.copies.toList ++ c.added p := by
  have heffect := (effect_of_ends hends).1
  cases c with
  | copy left right =>
    have hresult : ((Assignment.copy left right : Run Prover Unit) p).result = .ok x := hends.1
    rw [heffect.2, Array.toList_push, AssignmentCall.added, hresult]
  | _ => exact (congrArg Array.toList heffect.2).trans (List.append_nil _).symm

/-- A call adds its copy to those that were there, if it is one that is accepted. -/
theorem copies_perform (c : AssignmentCall) (p : Prover) :
    (c.perform p).state.board.copies.toList = p.board.copies.toList ++ c.added p := by
  cases hresult : ((c.perform : Run Prover c.Reply) p).result with
  | ok x => exact copies_of_ends ⟨hresult, rfl⟩
  | error fault =>
    -- of the calls that fail only a copy could have added one, and it was refused
    have hnone : c.added p = [] := by
      cases c with
      | copy left right =>
        have hrefused : ((Assignment.copy left right : Run Prover Unit) p).result = .error fault :=
          hresult
        rw [AssignmentCall.added, hrefused]
      | _ => rfl
    rw [atomic_perform c p fault hresult, hnone, List.append_nil]

/-- Forks are given none of the copies, and none is lost. -/
theorem copies_fork (ranges : List RowSpan) (p : Prover) :
    (fork ranges p).state.board.copies = p.board.copies :=
  keeps_fork_of_cells (fun _ _ _ _ hp => hp) ranges p (P := (·.board.copies = p.board.copies)) rfl

/-- A merge takes over what it can of the copies that the forks have kept. -/
theorem Even.copies_merge {fs : List Prover} (hp : p.Even schema rows)
    (hfs : ∀ f ∈ fs, ∃ range, f.Even schema range) :
    (merge (fs.map .fork) p).state.board.copies.toList =
      p.board.copies.toList ++ p.board.takenOver (Board.kept (fs.map (·.board))) := by
  cases hresult : (merge (fs.map .fork) p).result with
  | ok x =>
    have hends : (merge (fs.map .fork)).Ends p x (merge (fs.map .fork) p).state := ⟨hresult, rfl⟩
    -- the copies are replayed before the cells are taken back
    obtain ⟨hphase, forks, q, advice, b, hones, -, hrejoin, hstate⟩ := (ends_merge ..).1 hends
    obtain ⟨rfl, results, c, hreplays, rfl⟩ := ends_mergeOnes.1 hones
    obtain ⟨fixed, selectors, -, -, rfl⟩ := (Board.ends_rejoin ..).1 hrejoin
    have htakes := Board.ends_replays_iff.1 ⟨_, hreplays⟩
    rw [hstate, Board.takenOver, if_pos hphase, Board.accepted_of_takes htakes]
    exact htakes.copies
  | error fault =>
    -- up to the fault the copies of the forks were replayed in order
    obtain ⟨n, c, hstops, hstate⟩ := hp.of_merge_error hfs hresult
    rw [hstate]
    exact hstops.takes_takenOver.copies

/-! ## Whole histories -/

mutual

/-- Are these the copies that are accepted on the way from one prover to another, in order? A merge
takes over what its forks have accepted, up to the first copy that is refused. -/
inductive Accepted : Prover → Prover → List (Position × Position) → Prop where
  | refl (a : Prover) : Accepted a a []
  | call {a b : Prover} {copies : List (Position × Position)} (h : Accepted a b copies)
      (c : AssignmentCall) : Accepted a (c.perform b).state (copies ++ c.added b)
  | fork {a b : Prover} {copies : List (Position × Position)} (h : Accepted a b copies)
      (ranges : List RowSpan) : Accepted a (Prover.fork ranges b).state copies
  | merge {a b : Prover} {copies : List (Position × Position)} {forks : List Prover}
      {more : Prover → List (Position × Position)} (h : Accepted a b copies)
      (hforks : ∀ f ∈ forks, ForkAccepted a f (more f)) :
      Accepted a (Prover.merge (forks.map .fork) b).state
        (copies ++ b.board.takenOver (forks.flatMap more))

/-- Are these the copies that are accepted on the way from a fork of a prover, or of what comes of
that prover, to another one, in order? -/
inductive ForkAccepted : Prover → Prover → List (Position × Position) → Prop where
  | fork {a b c f g : Prover} {ranges : List RowSpan} {forks : List Prover}
      {copies : List (Position × Position)} (h : Reached a b)
      (hforks : (Prover.fork ranges).Ends b forks c) (hf : f ∈ forks) (hg : Accepted f g copies) :
      ForkAccepted a g copies

end

mutual

/-- Whatever copies were accepted, the prover is reached. -/
theorem Accepted.reached {a b : Prover} {copies : List (Position × Position)} :
    Accepted a b copies → Reached a b
  | .refl _ => .refl _
  | .call h c => h.reached.call c
  | .fork h ranges => h.reached.fork ranges
  | .merge h hforks => h.reached.merge fun f hf => (hforks f hf).forked

/-- So is a fork. -/
theorem ForkAccepted.forked {a f : Prover} {copies : List (Position × Position)} :
    ForkAccepted a f copies → Forked a f
  | .fork h hforks hf hg => .fork h hforks hf hg.reached

end

/-- A fork connects nothing. -/
theorem layoutKeeps_unrooted : LayoutKeeps fun p : Prover => p.board.permutation = none := by
  have hstable : Stable fun p : Prover => p.board.permutation = none := by
    intro p q hstep hp
    cases hstep with
    | board h =>
      cases h with
      | joined hsome _ => exact absurd (hp.symm.trans hsome) (by simp)
      | _ => exact hp
    | _ => exact hp
  exact hstable.layoutKeeps (fun _ _ _ _ hp => hp) fun _ _ _ hp => hp

/-- A fork begins over some rows, without a permutation and without copies. -/
theorem of_mem_fork {p q f : Prover} {ranges : List RowSpan} {forks : List Prover}
    (hp : p.Even schema rows) (hforks : (fork ranges).Ends p forks q) (hf : f ∈ forks) :
    ∃ range, f.Even schema range ∧ f.board.permutation = none ∧ f.board.copies.toList = [] := by
  obtain ⟨hranges, rfl⟩ := Even.of_ends_fork hforks
  obtain ⟨range, hrange, rfl⟩ := List.mem_map.1 hf
  exact ⟨range, hp.sliver (Board.Even.covers_of_checkRanges hranges range hrange), rfl, rfl⟩

mutual

/-- What is accepted comes after the copies that were there. -/
theorem Accepted.copies_eq {rows : RowSpan} {a b : Prover} {copies : List (Position × Position)} :
    Accepted a b copies → a.Even schema rows →
      b.board.copies.toList = a.board.copies.toList ++ copies
  | .refl _, _ => (List.append_nil _).symm
  | .call h c, ha => by rw [copies_perform, h.copies_eq ha, List.append_assoc]
  | .fork h ranges, ha => by rw [copies_fork, h.copies_eq ha]
  | @Accepted.merge _ _ _ forks _ h hforks, ha => by
    have heven : ∀ f ∈ forks, ∃ range, f.Even schema range := fun f hf =>
      (hforks f hf).forked.of_familyKeeps familyKeeps ha
    rw [(h.reached.of_familyKeeps familyKeeps ha).copies_merge heven, h.copies_eq ha,
      List.append_assoc, Board.kept, List.flatMap_map,
      List.flatMap_congr fun f hf => (hforks f hf).pending_eq ha]

/-- What a fork accepts is all that it keeps. -/
theorem ForkAccepted.pending_eq {rows : RowSpan} {a f : Prover}
    {copies : List (Position × Position)} :
    ForkAccepted a f copies → a.Even schema rows → f.board.pending.toList = copies
  | .fork h hforks hf hg, ha => by
    obtain ⟨range, heven, hnone, hnew⟩ := of_mem_fork (h.of_familyKeeps familyKeeps ha) hforks hf
    have hcopies := hg.copies_eq heven
    rwa [Board.copies, hg.reached.of_keeps layoutKeeps_unrooted hnone, hnew] at hcopies

end

mutual

/-- On every way from one prover to another some copies are accepted. -/
theorem exists_accepted {rows : RowSpan} {a b : Prover} :
    Reached a b → a.Even schema rows → ∃ copies, Accepted a b copies
  | .refl _, _ => ⟨[], .refl _⟩
  | .call h c, ha => by
    obtain ⟨copies, hcopies⟩ := exists_accepted h ha
    exact ⟨_, hcopies.call c⟩
  | .fork h ranges, ha => by
    obtain ⟨copies, hcopies⟩ := exists_accepted h ha
    exact ⟨_, hcopies.fork ranges⟩
  | .merge h hforks, ha => by
    obtain ⟨copies, hcopies⟩ := exists_accepted h ha
    exact ⟨_, hcopies.merge fun f hf => forkAccepted_pending (hforks f hf) ha⟩

/-- What a fork keeps was accepted on the way to it. -/
theorem forkAccepted_pending {rows : RowSpan} {a f : Prover} :
    Forked a f → a.Even schema rows → ForkAccepted a f f.board.pending.toList
  | .fork h hforks hf hg, ha => by
    obtain ⟨range, heven, -⟩ := of_mem_fork (h.of_familyKeeps familyKeeps ha) hforks hf
    obtain ⟨copies, hcopies⟩ := exists_accepted hg heven
    have hfork : ForkAccepted a _ copies := .fork h hforks hf hcopies
    rwa [hfork.pending_eq ha]

end

/-- The copies of what comes of a new prover are those that were accepted on the way to it. -/
theorem accepted_iff (ha : a.Even schema rows) (hnew : a.board.copies = #[]) (h : Reached a p) :
    Accepted a p copies ↔ copies = p.board.copies.toList := by
  have hunique : ∀ {copies}, Accepted a p copies → p.board.copies.toList = copies := by
    intro copies hcopies
    rw [hcopies.copies_eq ha, hnew]
    rfl
  constructor
  · intro hcopies
    exact (hunique hcopies).symm
  · rintro rfl
    obtain ⟨copies, hcopies⟩ := exists_accepted h ha
    rwa [hunique hcopies]

end Prover

end CircuitLayout
