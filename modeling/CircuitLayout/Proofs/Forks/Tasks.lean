import CircuitLayout.Proofs.Forks.Splits

namespace CircuitLayout

/-! # Tasks

A task is worked on an assignment: it makes calls on the grid, and has parts of it worked on forks,
each of which may be forked in turn, and which are merged in order. Main statement:
`Nesting.direct`, the calls of a task could as well be made of the assignment itself, one after
another, and have the same answers.
-/

open Run (Anywhere Keeps Refines)

/-- Does a call read or change cells, selectors or copies? -/
def AssignmentCall.OnGrid : AssignmentCall → Prop
  | enableSelector .. | queryAdvice .. | queryFixed .. | queryInput .. | assignAdvice ..
  | assignFixed .. | copy .. | fillFrom .. => True
  | start | close | enterRegion .. | exitRegion | nameColumn .. | challenge .. | pushScope ..
  | popScope .. => False

/-- A call with its reply. -/
abbrev Exchange : Type := Σ c : AssignmentCall, c.Reply

mutual

/-- Work on an assignment: calls on the grid, and parts that are worked on forks of it. -/
inductive Task where
  | done
  | call (c : AssignmentCall) (h : c.OnGrid) (rest : Task)
  | split (parts : Parts) (rest : Task)

/-- Parts of a task, each with the rows of its fork. -/
inductive Parts where
  | none
  | part (rows : RowSpan) (task : Task) (others : Parts)

end

/-- The rows of the parts of a task. -/
def Parts.ranges : Parts → List RowSpan
  | .none => []
  | .part rows _ others => rows :: others.ranges

mutual

/-- The calls of a task: each part comes with its own parts before the next one. -/
def Task.calls : Task → List AssignmentCall
  | .done => []
  | .call c _ rest => c :: rest.calls
  | .split parts rest => parts.calls ++ rest.calls

def Parts.calls : Parts → List AssignmentCall
  | .none => []
  | .part _ task others => task.calls ++ others.calls

end

variable {σ : Type} [Assignment σ]

/-- Makes a call. -/
def AssignmentCall.ask (c : AssignmentCall) : Run σ Exchange := (⟨c, ·⟩) <$> c.perform

mutual

/-- Works on a task: its parts are worked on forks, which are merged in order. -/
def Task.onForks : Task → Run σ (List Exchange)
  | .done => return []
  | .call c _ rest => do
    let answer ← c.ask
    let answers ← rest.onForks
    return answer :: answers
  | .split parts rest => do
    let forks ← Assignment.fork parts.ranges
    let worked ← parts.onForks forks
    Assignment.merge (worked.map fun x => .fork x.2)
    let answers ← rest.onForks
    return worked.flatMap (·.1) ++ answers

/-- Works on the parts of a task, each on its fork. -/
def Parts.onForks : Parts → List σ → Run σ (List (List Exchange × σ))
  | .part _ task others, fork :: forks => do
    let first ← Run.within fork task.onForks
    let rest ← others.onForks forks
    return first :: rest
  | _, _ => return []

end

/-- Makes the calls of a task, one after another. -/
def Task.direct (task : Task) : Run σ (List Exchange) := Run.each AssignmentCall.ask task.calls

mutual

/-- The calls of a task are all on the grid. -/
theorem Task.onGrid : (task : Task) → ∀ c ∈ task.calls, c.OnGrid
  | .done => by simp [Task.calls]
  | .call c h rest => by
    simp only [Task.calls, List.mem_cons, forall_eq_or_imp]
    exact ⟨h, rest.onGrid⟩
  | .split parts rest => by
    simp only [Task.calls, List.mem_append]
    rintro c (hc | hc)
    · exact parts.onGrid c hc
    · exact rest.onGrid c hc

/-- The calls of the parts of a task are all on the grid. -/
theorem Parts.onGrid : (parts : Parts) → ∀ c ∈ parts.calls, c.OnGrid
  | .none => by simp [Parts.calls]
  | .part _ task others => by
    simp only [Parts.calls, List.mem_append]
    rintro c (hc | hc)
    · exact task.onGrid c hc
    · exact others.onGrid c hc

end

/-- Working on forks leaves the assignment that they were taken from as it is. -/
theorem Parts.state_of_onForks {forks : List σ} {u v : σ} {worked : List (List Exchange × σ)} :
    (parts : Parts) → (parts.onForks forks).Ends u worked v → v = u
  | .none, hends => ((Run.ends_pure ..).1 hends).2
  | .part range task others, hends => by
    cases forks with
    | nil => exact ((Run.ends_pure ..).1 hends).2
    | cons fork forks =>
      simp only [Parts.onForks, Run.ends_bind, Run.ends_pure] at hends
      obtain ⟨⟨answers, f⟩, w, hfirst, more, x, hothers, -, rfl⟩ := hends
      obtain ⟨-, rfl⟩ := (Run.ends_within ..).1 hfirst
      exact others.state_of_onForks hothers

/-- Forks are worked on alike whatever becomes of the assignment that they were taken from. -/
theorem Parts.refines_onForks {S : σ → σ → Prop} (forks : List σ) :
    (parts : Parts) → Refines Anywhere S S Eq (parts.onForks forks) (parts.onForks forks)
  | .none => .pure rfl
  | .part range task others => by
    cases forks with
    | nil => exact .pure rfl
    | cons fork forks =>
      have hwithin : Refines Anywhere S S Eq (Run.within fork task.onForks)
          (Run.within fork task.onForks) := by
        rintro s t ⟨answers, f⟩ s' hS hends -
        obtain ⟨htask, rfl⟩ := (Run.ends_within ..).1 hends
        exact ⟨(answers, f), t, (Run.ends_within ..).2 ⟨htask, rfl⟩, rfl, hS⟩
      refine hwithin.andThen fun first _ hfirst => ?_
      subst hfirst
      exact (others.refines_onForks forks).andThen fun rest _ hrest => .pure (hrest ▸ rfl)

/-- What matters to no call, fork or merge does not matter to a task. -/
theorem Task.refines_onForks {S : σ → σ → Prop}
    (hcall : ∀ c : AssignmentCall, c.OnGrid →
      Refines Anywhere S S Eq (c.perform : Run σ c.Reply) (c.perform : Run σ c.Reply))
    (hfork : ∀ ranges, Refines Anywhere S S Eq (Assignment.fork ranges : Run σ (List σ))
      (Assignment.fork ranges : Run σ (List σ)))
    (hmerge : ∀ fs : List σ, Refines Anywhere S S Eq (Assignment.merge (fs.map .fork) : Run σ Unit)
      (Assignment.merge (fs.map .fork) : Run σ Unit)) :
    (task : Task) → Refines Anywhere S S Eq (task.onForks : Run σ (List Exchange)) task.onForks
  | .done => .pure rfl
  | .call c h rest => by
    refine ((hcall c h).map fun _ _ => congrArg (Sigma.mk c)).andThen fun answer _ hanswer => ?_
    subst hanswer
    exact (rest.refines_onForks hcall hfork hmerge).andThen fun _ _ hmore => .pure (hmore ▸ rfl)
  -- the parts run aside, on the same forks on both sides
  | .split parts rest => by
    refine (hfork parts.ranges).andThen fun forks _ hforks => ?_
    subst hforks
    refine (parts.refines_onForks forks).andThen fun worked _ hworked => ?_
    subst hworked
    have hmerged := hmerge (worked.map (·.2))
    rw [List.map_map] at hmerged
    -- the same forks come back, so the merges end alike
    refine hmerged.andThen fun _ _ _ => ?_
    exact (rest.refines_onForks hcall hfork hmerge).andThen fun _ _ hmore => .pure (hmore ▸ rfl)

/-- A task that is done directly respects what its calls respect. -/
theorem Task.refines_direct {S : σ → σ → Prop}
    (hcall : ∀ c : AssignmentCall, c.OnGrid →
      Refines Anywhere S S Eq (c.perform : Run σ c.Reply) (c.perform : Run σ c.Reply))
    (task : Task) : Refines Anywhere S S Eq (task.direct : Run σ (List Exchange)) task.direct := by
  have hsame : List.Forall₂ (fun c d : AssignmentCall => c = d ∧ c.OnGrid) task.calls task.calls :=
    List.forall₂_same.2 fun c hc => ⟨rfl, task.onGrid c hc⟩
  have heach := Refines.each (f := AssignmentCall.ask) (g := AssignmentCall.ask) hsame
    (fun _ => Keeps.not_anywhere) fun c d hcd => by
      obtain ⟨rfl, hc⟩ := hcd
      exact (hcall c hc).map fun _ _ => congrArg (Sigma.mk c)
  refine heach.mono (fun answers answers' hanswers => ?_) fun _ _ hS => hS
  rwa [List.forall₂_eq_eq_eq] at hanswers

/-- A call on the grid keeps what calls inside of regions keep. -/
theorem AssignmentCall.OnGrid.keeps {P : σ → Prop} {c : AssignmentCall} (hc : c.OnGrid)
    (h : CallKeeps P) : Keeps P (c.perform : Run σ c.Reply) := by
  cases c with
  | enableSelector label selector row => exact h.enableSelector label selector row
  | queryAdvice column row => exact h.queryAdvice column row
  | queryFixed column row => exact h.queryFixed column row
  | queryInput column row => exact h.queryInput column row
  | assignAdvice label column row value => exact h.assignAdvice label column row value
  | assignFixed label column row value => exact h.assignFixed label column row value
  | copy left right => exact h.copy left right
  | fillFrom column row value => exact h.fillFrom column row value
  | start | close | enterRegion | exitRegion | nameColumn | challenge | pushScope | popScope =>
    exact absurd hc id

/-- What tasks need of assignments and their forks. -/
structure Nesting (σ : Type) [Assignment σ] where
  /-- Can an assignment over some rows be worked on? -/
  Fits : RowSpan → σ → Prop
  splitting : RowSpan → Splitting σ
  /-- Will an assignment take the copies that forks keep, one fork after another? -/
  Honors : σ → List σ → Prop
  call : ∀ {rows} {c : AssignmentCall}, c.OnGrid → Keeps (Fits rows) (c.perform : Run σ c.Reply)
  /-- What is forked is at rest, and nothing was written to the forks. -/
  forked : ∀ {rows s ranges forks lent}, Fits rows s →
    (Assignment.fork ranges).Ends s forks lent →
      (splitting rows).Rested s ∧ forks = ranges.map ((splitting rows).sliver s)
  sliver : ∀ {rows s range}, Fits rows s → ((splitting rows).window s).Covers range →
    Fits range ((splitting rows).sliver s range)
  mirrored : ∀ {rows s range f t}, Fits rows s → (splitting rows).Rested s →
    (splitting rows).Mirrors false range s f t → Fits rows t
  honors_of_merge : ∀ {rows s ranges forks lent fs t}, Fits rows s →
    (Assignment.fork ranges).Ends s forks lent →
      (Assignment.merge (fs.map .fork)).Ends lent () t → Honors s fs
  head : ∀ {s f fs}, Honors s (f :: fs) → Honors s [f]
  tail : ∀ {rows s range f fs t}, (splitting rows).Mirrors false range s f t → Honors s (f :: fs) →
    Honors t fs
  keeps_not_honors : ∀ s (c : AssignmentCall),
    Keeps (fun f => ¬ Honors s [f]) (c.perform : Run σ c.Reply)
  /-- What succeeds on a fork does so on what the fork mirrors. -/
  echoed : ∀ {rows s range} {c : AssignmentCall}, c.OnGrid → Fits rows s →
    ((splitting rows).window s).Covers range →
      Refines (fun f => Honors s [f]) (fun f t => (splitting rows).Mirrors false range s f t)
        (fun f t => (splitting rows).Mirrors false range s f t) Eq c.perform c.perform

namespace Nesting

variable (n : Nesting σ) {rows range : RowSpan} {s f t u v : σ}

/-- Calls that a fork answers the board answers alike. -/
theorem echoed_each {calls : List AssignmentCall} (hcalls : ∀ c ∈ calls, c.OnGrid)
    (hs : n.Fits rows s) (hrange : ((n.splitting rows).window s).Covers range)
    (hmirrors : (n.splitting rows).Mirrors false range s f t) {answers : List Exchange} {g : σ}
    (hends : (Run.each AssignmentCall.ask calls).Ends f answers g) (hhonors : n.Honors s [g]) :
    ∃ t', (Run.each AssignmentCall.ask calls).Ends t answers t' ∧
      (n.splitting rows).Mirrors false range s g t' := by
  have hsame : List.Forall₂ (fun c d : AssignmentCall => c = d ∧ c.OnGrid) calls calls :=
    List.forall₂_same.2 fun c hc => ⟨rfl, hcalls c hc⟩
  have hecho := Refines.each (f := AssignmentCall.ask) (g := AssignmentCall.ask) hsame
    (fun c => (n.keeps_not_honors s c).map _) fun c d hcd => by
      obtain ⟨rfl, hc⟩ := hcd
      exact (n.echoed hc hs hrange).map fun a b (hab : a = b) => congrArg (Sigma.mk c) hab
  obtain ⟨answers', t', hends', hanswers, hmirrors'⟩ := hecho f t answers g hmirrors hends hhonors
  obtain rfl : answers = answers' := by rwa [List.forall₂_eq_eq_eq] at hanswers
  exact ⟨t', hends', hmirrors'⟩

mutual

/-- What comes of a task on forks comes of its calls, made one after another. -/
theorem direct {rows : RowSpan} {s t : σ} {answers : List Exchange} :
    (task : Task) → n.Fits rows s → task.onForks.Ends s answers t →
      task.direct.Ends s answers t ∧ n.Fits rows t
  | .done, hs, hends => by
    obtain ⟨rfl, rfl⟩ := (Run.ends_pure ..).1 hends
    exact ⟨(Run.ends_each_nil ..).2 ⟨rfl, rfl⟩, hs⟩
  | .call c h rest, hs, hends => by
    simp only [Task.onForks, Run.ends_bind, Run.ends_pure] at hends
    obtain ⟨answer, u, hask, more, v, hmore, rfl, rfl⟩ := hends
    have hu : n.Fits rows u := hask.of_keeps ((n.call h).map _) hs
    obtain ⟨hdirect, ht⟩ := direct rest hu hmore
    exact ⟨(Run.ends_each_cons ..).2 ⟨answer, u, more, hask, hdirect, rfl⟩, ht⟩
  | .split parts rest, hs, hends => by
    simp only [Task.onForks, Run.ends_bind, Run.ends_pure] at hends
    obtain ⟨forks, before, hfork, worked, lent, hworked, _, u, hmerge, more, v, hmore, rfl, rfl⟩ := hends
    obtain ⟨hrested, rfl⟩ := n.forked hs hfork
    have hranges := (n.splitting rows).granted hfork
    obtain ⟨hfollow, hordered⟩ := Store.follow_of_checkRanges hranges (Nat.le_refl _)
    obtain rfl := parts.state_of_onForks hworked
    have hmerge' : (Assignment.merge ((worked.map (·.2)).map .fork)).Ends lent () u := by
      rw [List.map_map]
      exact hmerge
    -- the parts could be worked where they were forked, and the merge leaves what comes of that
    obtain ⟨w, hdirect, hgathers, hw⟩ := direct_parts parts hs hrested hfollow hordered hworked
      (n.honors_of_merge hs hfork hmerge')
    obtain ⟨lent', hlent, hgathered⟩ := (n.splitting rows).split hrested hranges
    obtain rfl := (hfork.unique hlent).2
    obtain rfl := (hmerge'.unique (hgathered _ _ hgathers)).2
    obtain ⟨hrest, ht⟩ := direct rest hw hmore
    exact ⟨hdirect.each_append hrest, ht⟩

/-- Parts that are done on forks may be done on the board, one after the other. -/
theorem direct_parts {rows : RowSpan} {s u v : σ} {cursor : Nat} {worked : List (List Exchange × σ)} :
    (parts : Parts) → n.Fits rows s → (n.splitting rows).Rested s →
      ((n.splitting rows).window s).Follow cursor parts.ranges →
      (∀ r ∈ parts.ranges, r.start ≤ r.stop) →
      (parts.onForks (parts.ranges.map ((n.splitting rows).sliver s))).Ends u worked v →
      n.Honors s (worked.map (·.2)) →
        ∃ t, (Run.each AssignmentCall.ask parts.calls).Ends s (worked.flatMap (·.1)) t ∧
          Gathers ((n.splitting rows).Mirrors false) s parts.ranges (worked.map (·.2)) t ∧
          n.Fits rows t
  | .none, hs, _, _, _, hends, _ => by
    obtain ⟨rfl, -⟩ := (Run.ends_pure ..).1 hends
    exact ⟨s, (Run.ends_each_nil ..).2 ⟨rfl, rfl⟩, .nil s, hs⟩
  | .part range task others, hs, hrested, hfollow, hordered, hends, hhonors => by
    simp only [Parts.ranges, List.map_cons, Parts.onForks, Run.ends_bind, Run.ends_pure] at hends
    obtain ⟨⟨answers, f⟩, w, hfirst, more, x, hothers, rfl, rfl⟩ := hends
    obtain ⟨htask, rfl⟩ := (Run.ends_within ..).1 hfirst
    obtain ⟨hstart, hcovers, hlater⟩ := hfollow
    -- the first part is worked directly on its fork, and so on what the fork mirrors
    obtain ⟨hdirect, -⟩ := direct task (n.sliver hs hcovers) htask
    obtain ⟨t, hdirect', hmirrors⟩ := n.echoed_each task.onGrid hs hcovers
      ((n.splitting rows).mirrors_sliver hrested hcovers) hdirect (n.head hhonors)
    -- the forks behind the first one could have been taken from what it mirrors
    have hordered' : ∀ r ∈ others.ranges, r.start ≤ r.stop := fun r hr =>
      hordered r (List.mem_cons_of_mem _ hr)
    have hslivers : others.ranges.map ((n.splitting rows).sliver s) =
        others.ranges.map ((n.splitting rows).sliver t) := by
      refine List.map_congr_left fun r hr => ?_
      obtain ⟨hr, hbehind⟩ := hlater.mem hordered' r hr
      exact ((n.splitting rows).sliver_eq hrested hmirrors hr hbehind).symm
    rw [← (n.splitting rows).window_eq hmirrors] at hlater
    rw [hslivers] at hothers
    obtain ⟨u, hrest, hgathers, hu⟩ := direct_parts others (n.mirrored hs hrested hmirrors)
      ((n.splitting rows).rested hrested hmirrors) hlater hordered' hothers (n.tail hmirrors hhonors)
    exact ⟨u, hdirect'.each_append hrest, .cons hmirrors hgathers, hu⟩

end

end Nesting

end CircuitLayout
