import CircuitLayout.AnyAssignment
import CircuitLayout.Prover.Verify
import CircuitLayout.Script.Transcript

namespace CircuitLayout

/-!
# Sessions

A session holds assignments under names, with one planner over one of them, and carries out
commands on them one by one. A command that fails leaves the session as far as it came.
-/

/-- The kinds of assignments that a session can hold. -/
inductive AssignmentKind where
  | prover
  | keys
  | log
  deriving DecidableEq, Repr

/-- Named assignments and a planner over one of them. -/
structure Session where
  logRows : Nat
  schema : Schema
  held : List (String × AnyAssignment)
  planner : Planner
  /-- The name of the assignment that the planner writes to. -/
  target : String
  registers : Script.Registers

/-- A command on one assignment. -/
inductive Command where
  | start
  | close
  | phase
  | enterRegion (name : String)
  | exitRegion
  | nameColumn (label : String) (column : Column)
  | pushScope (name : String)
  | popScope (name : Option String)
  | enableSelector (label : String) (selector : Selector) (row : Nat)
  | queryAdvice (column row : Nat)
  | queryFixed (column row : Nat)
  | queryInput (column row : Nat)
  | challenge (index : Nat)
  | assignAdvice (label : String) (column row : Nat) (value : Script.ValueExpr)
  | assignFixed (label : String) (column row : Nat) (value : Script.ValueExpr)
  | copy (left right : Position)
  | fillFrom (column row : Nat) (value : Script.ValueExpr)
  | canFork
  /-- Forks, and holds the forks under a name followed by their numbers. -/
  | fork (ranges : List RowSpan) (name : String)
  /-- Merges held assignments, which are then no longer held. -/
  | merge (forks : List String)
  | inspect
  | verify
  | layout
  | adviceCell (column row : Nat)
  | fixedCell (column row : Nat)
  | selectorEnabled (selector row : Nat)
  | sameCycle (left right : Position)
  /-- Derives the verifying key, or the proving key, from a key builder, which is then no longer
  held. -/
  | release (proving : Bool)

/-- A command of a session. -/
inductive SessionCommand where
  | on (name : String) (command : Command)
  | step (step : Script.Step)
  /-- Puts a planner that has placed nothing over an assignment. -/
  | planOn (name : String) (constants : Option (List Nat)) (settings : Settings)
  | hold (kind : AssignmentKind) (name : String) (inputs : List (List Goldilocks))

/-- The answer to a command. -/
inductive Answer where
  | done
  | phase (phase : Phase)
  | scalar (value : Goldilocks)
  | optional (value : Option Goldilocks)
  | count (n : Nat)
  | flag (b : Option Bool)
  | names (names : List String)
  | assignment (a : AnyAssignment)
  | mismatches (found : List Mismatch)
  | document (document : Json)
  | content (content : Content)
  | verifyingKey (key : VerifyingKey)
  | provingKey (key : ProvingKey)
  | step (report : Script.StepReport)

/-- The number of producers that a journal tells of. -/
def producerCount (events : List Event) : Nat :=
  (events.filter fun
    | .produced _ => true
    | _ => false).length

namespace AnyAssignment

/-- An assignment of a kind. -/
def create (kind : AssignmentKind) (logRows : Nat) (schema : Schema)
    (inputs : List (List Goldilocks)) : Except Fault AnyAssignment :=
  match kind with
  | .prover => prover <$> Prover.create logRows schema inputs
  | .keys => keys <$> KeyBuilder.create logRows schema
  | .log => .ok (log .empty)

/-- The permutation of a root. -/
def permutation? : AnyAssignment → Option Permutation
  | prover p => p.board.permutation
  | keys b => b.board.permutation
  | log _ => none

end AnyAssignment

namespace Session

/-- A session that holds one assignment, with a planner over it. -/
def create (kind : AssignmentKind) (name : String) (logRows : Nat) (schema : Schema)
    (inputs : List (List Goldilocks)) (settings : Settings) : Except Fault Session := do
  let a ← AnyAssignment.create kind logRows schema inputs
  return {
    logRows := logRows
    schema := schema
    held := [(name, a)]
    planner := .fresh schema.constants settings
    target := name
    registers := [] }

/-- The assignment of a name. -/
def find (s : Session) (name : String) : Except Fault AnyAssignment :=
  match s.held.lookup name with
  | some a => .ok a
  | none => .error (.unboundName name)

/-- Holds an assignment under a name, in place of the one that was. -/
def put (s : Session) (name : String) (a : AnyAssignment) : Session :=
  { s with held := (name, a) :: s.held.filter fun h => decide (h.1 ≠ name) }

/-- Puts an assignment in the place of one that is held; where none is held, nothing changes. -/
def replace (s : Session) (name : String) (a : AnyAssignment) : Session :=
  { s with held := s.held.map fun h => if h.1 = name then (name, a) else h }

/-- Lets an assignment go. -/
def drop (s : Session) (name : String) : Session :=
  { s with held := s.held.filter fun h => decide (h.1 ≠ name) }

/-- Runs on the assignment of a name. -/
def onHeld {α : Type} (name : String) (m : Run AnyAssignment α) : Run Session α := do
  let s ← Run.get
  let a ← Run.ofExcept (s.find name)
  let (result, a) ← Run.aside a m
  Run.modify (·.put name a)
  Run.settle result

/-- The assignment under the planner. A look at the planner alone needs none, so that it may have
been let go. -/
def underPlanner (s : Session) : Script.Step → Except Fault AnyAssignment
  | .inspect => .ok ((s.held.lookup s.target).getD (.log .empty))
  | _ => s.find s.target

/-- Runs a step of a script on the planner and the assignment under it. -/
def runStep (step : Script.Step) : Run Session Answer := do
  let s ← Run.get
  let a ← Run.ofExcept (s.underPlanner step)
  let desk : Layout AnyAssignment := ⟨a, s.planner⟩
  let ((result, desk), events) ←
    (Run.aside desk ((step.perform s.registers).run Planner.perform)).listen
  let registers := match result with
    | .ok (.ok registers) => registers
    | _ => s.registers
  Run.modify fun s =>
    { s.replace s.target desk.target with planner := desk.kept, registers := registers }
  return .step (step.report events)

/-- What a session offers to the assignment of a name under another name. -/
def offer (s : Session) (name fork : String) : Offer AnyAssignment :=
  match s.held.lookup fork with
  | none => .stranger
  | some a => if fork = name then .itself else .fork a

/-- Takes held assignments out of a session and offers them to the assignment of a name. What is
named twice is no longer there the second time. -/
def offerAll (name : String) : List String → Session → List (Offer AnyAssignment) × Session
  | [], s => ([], s)
  | fork :: forks, s =>
    let (rest, left) := offerAll name forks (s.drop fork)
    (s.offer name fork :: rest, left)

/-- Merges held assignments into the one of a name. All of them must be held; they are let go even
if the merge fails, the one of the name itself among them. -/
def mergeHeld (name : String) (forks : List String) : Run Session Answer := do
  let s ← Run.get
  let a ← Run.ofExcept (s.find name)
  let _ ← Run.ofExcept (forks.mapM s.find)
  let (offers, s) := offerAll name forks s
  let (result, a) ← Run.aside a (Assignment.merge offers)
  Run.set (s.replace name a)
  Run.settle result
  return .done

/-- Forks the assignment of a name and holds the forks. -/
def forkHeld (name : String) (ranges : List RowSpan) (forkName : String) : Run Session Answer := do
  let forks ← onHeld name (Assignment.fork ranges)
  let named := forks.zipIdx.map fun (fork, i) => (s!"{forkName}{i}", fork)
  Run.modify fun s => named.foldl (fun s (name, fork) => s.put name fork) s
  return .names (named.map (·.1))

/-- Derives a key from the key builder of a name. -/
def releaseKeys (name : String) (proving : Bool) : Run Session Answer := do
  let s ← Run.get
  match ← Run.ofExcept (s.find name) with
  | .keys builder =>
    let vk ← Run.ofExcept (VerifyingKey.ofBuilder s.logRows s.schema builder)
    Run.modify (·.drop name)
    if proving then
      let pk ← Run.ofExcept (ProvingKey.ofVerifying vk)
      return .provingKey pk
    else return .verifyingKey vk
  | _ => Run.raise .outOfRange

/-- Reads from the prover of a name. -/
def fromProver {α : Type} (name : String) (read : Prover → Except Fault α) : Run Session α := do
  let s ← Run.get
  match ← Run.ofExcept (s.find name) with
  | .prover p => Run.ofExcept (read p)
  | _ => Run.raise .outOfRange

/-- Assigns a cell of the assignment of a name; answers with how many producers were asked. -/
def assignHeld (name : String) (m : Producer → Run AnyAssignment (Option Fraction))
    (value : Script.ValueExpr) : Run Session Answer := do
  let s ← Run.get
  let (_, events) ← (onHeld name (m (value.producer s.registers))).listen
  return .count (producerCount events)

/-- Fills the rest of a column of the assignment of a name. -/
def fillHeld (name : String) (column row : Nat) (value : Script.ValueExpr) :
    Run Session Answer := do
  let s ← Run.get
  let _ ← Run.ofExcept (s.find name)
  let value ← Run.ofExcept (value.producer s.registers ())
  onHeld name (Assignment.fillFrom column row value)
  return .done

/-- Runs on the assignment of a name, and answers nothing. -/
def command (name : String) (m : Run AnyAssignment Unit) : Run Session Answer := do
  onHeld name m
  return .done

/-- Runs on the assignment of a name, and answers with its phase. -/
def phaseAfter (name : String) (m : Run AnyAssignment Unit) : Run Session Answer := do
  onHeld name m
  let s ← Run.get
  let a ← Run.ofExcept (s.find name)
  return .phase (Assignment.phase a)

/-- Carries out a command on the assignment of a name. -/
def runOn (name : String) : Command → Run Session Answer
  | .start => phaseAfter name Assignment.start
  | .close => phaseAfter name Assignment.close
  | .phase => phaseAfter name (pure ())
  | .enterRegion region => command name (Assignment.enterRegion region)
  | .exitRegion => command name Assignment.exitRegion
  | .nameColumn label column => command name (Assignment.nameColumn label column)
  | .pushScope scope => command name (Assignment.pushScope scope)
  | .popScope scope => command name (Assignment.popScope scope)
  | .enableSelector label selector row =>
    command name (Assignment.enableSelector label selector row)
  | .queryAdvice column row => .scalar <$> onHeld name (Assignment.queryAdvice column row)
  | .queryFixed column row => .scalar <$> onHeld name (Assignment.queryFixed column row)
  | .queryInput column row => .optional <$> onHeld name (Assignment.queryInput column row)
  | .challenge index => .optional <$> onHeld name (Assignment.challenge index)
  | .assignAdvice label column row value =>
    assignHeld name (Assignment.assignAdvice label column row) value
  | .assignFixed label column row value =>
    assignHeld name (Assignment.assignFixed label column row) value
  | .copy left right => command name (Assignment.copy left right)
  | .fillFrom column row value => fillHeld name column row value
  | .canFork => do
    let s ← Run.get
    let a ← Run.ofExcept (s.find name)
    return .flag (some (Assignment.canFork a))
  | .fork ranges forkName => forkHeld name ranges forkName
  | .merge forks => mergeHeld name forks
  | .inspect => do
    let s ← Run.get
    let a ← Run.ofExcept (s.find name)
    return .assignment a
  | .verify => .mismatches <$> fromProver name Prover.verify
  | .layout => .document <$> fromProver name Prover.layout
  | .adviceCell column row => .content <$> fromProver name fun p => p.advice.get column row
  | .fixedCell column row => .content <$> fromProver name fun p => p.board.fixed.get column row
  | .selectorEnabled selector row => do
    let enabled ← fromProver name fun p => p.board.selectors.get selector row
    return .flag (some enabled)
  | .sameCycle left right => do
    let s ← Run.get
    let a ← Run.ofExcept (s.find name)
    match a.permutation? with
    | none => return .flag none
    | some p =>
      let same ← Run.ofExcept (p.sameCycle left right)
      return .flag (some same)
  | .release proving => releaseKeys name proving

/-- Carries out a command. -/
def run : SessionCommand → Run Session Answer
  | .on name c => runOn name c
  | .step step => runStep step
  | .planOn name constants settings => do
    let s ← Run.get
    let _ ← Run.ofExcept (s.find name)
    Run.set { s with
      planner := .fresh (constants.getD s.schema.constants) settings
      target := name }
    return .done
  | .hold kind name inputs => do
    let s ← Run.get
    let a ← Run.ofExcept (AnyAssignment.create kind s.logRows s.schema inputs)
    Run.set (s.put name a)
    return .done

end Session

end CircuitLayout
