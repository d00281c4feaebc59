import CircuitLayout.Run.Keeps

namespace CircuitLayout

/-!
# Programs

A program makes calls of an interface and goes on according to the answers. It may leave remarks,
give up, or handle the fault of a call. What the calls do is decided by whoever runs it, so one
program can be run against several backends. Main statements: `run_bind`, by which a run of a
program is put together from runs of its parts, and `keeps_run`, by which a run keeps what its calls
keep.
-/

/-- The calls that a program can make, and the type of the answer to each. -/
structure Interface where
  Call : Type
  Reply : Call → Type

/-- A program over an interface. -/
inductive Program (I : Interface) (α : Type) : Type where
  | done (result : α)
  | fail (fault : Fault)
  | note (note : Note) (rest : Program I α)
  | call (call : I.Call) (next : Except Fault (I.Reply call) → Program I α)

namespace Program

variable {I : Interface} {α β σ : Type}

/-- Goes on with the result of a program, unless it gave up. -/
def bind (p : Program I α) (f : α → Program I β) : Program I β :=
  match p with
  | done a => f a
  | fail fault => fail fault
  | note n rest => note n (bind rest f)
  | call c next => call c fun reply => bind (next reply) f

instance : Monad (Program I) where
  pure := done
  bind := bind

/-- Makes a call and gives up if it fails. -/
def perform (c : I.Call) : Program I (I.Reply c) :=
  call c fun
    | .ok reply => done reply
    | .error fault => fail fault

/-- Leaves a remark. -/
def remark (n : Note) : Program I Unit := note n (done ())

/-- Makes the fault with which a program gives up, if it does, its result. -/
def attempt (p : Program I α) : Program I (Except Fault α) :=
  match p with
  | done a => done (.ok a)
  | fail fault => done (.error fault)
  | note n rest => note n (attempt rest)
  | call c next => call c fun reply => attempt (next reply)

/-- Goes on with a value, or gives up with a fault. -/
def ofExcept : Except Fault α → Program I α
  | .ok a => done a
  | .error fault => fail fault

/-- Runs a program, given what each call does. A fault that the program gives up with arose in a
call or is the program's own; it enters no diagnostics of its own. -/
def run (handle : (c : I.Call) → Run σ (I.Reply c)) : Program I α → Run σ α
  | done a => pure a
  | fail fault => Run.rethrow fault
  | note n rest => do
    Run.emit (.note n)
    run handle rest
  | call c next => do
    let reply ← (handle c).attempt
    run handle (next reply)

/-- Running a program and then what follows it is running the one and then the other. -/
theorem run_bind (handle : (c : I.Call) → Run σ (I.Reply c)) (p : Program I α)
    (f : α → Program I β) :
    (p.bind f).run handle = p.run handle >>= fun a => (f a).run handle := by
  induction p with
  | done a => simp [bind, run]
  | fail fault => rfl
  | note n rest ih => simp [bind, run, ih]
  | call c next ih => simp [bind, run, ih]

/-- A run of a program keeps what all its calls keep. -/
theorem keeps_run {P : σ → Prop} {handle : (c : I.Call) → Run σ (I.Reply c)}
    (hhandle : ∀ c, Run.Keeps P (handle c)) (p : Program I α) : Run.Keeps P (p.run handle) := by
  induction p with
  | done a => exact Run.Keeps.pure a
  | fail fault => exact Run.Keeps.rethrow fault
  | note n rest ih => exact Run.Keeps.bind (Run.Keeps.emit _) fun _ => ih
  | call c next ih => exact Run.Keeps.bind (hhandle c).attempt fun reply => ih reply

/-- Does a program hand every fault of a call on, with nothing but remarks before it? -/
inductive GivesUp (fault : Fault) : Program I α → Prop where
  | fail : GivesUp fault (fail fault)
  | note {n : Note} {rest : Program I α} (h : GivesUp fault rest) : GivesUp fault (note n rest)

/-- Programs that never handle the fault of a call. -/
inductive Propagates : Program I α → Prop where
  | done (a : α) : Propagates (done a)
  | fail (fault : Fault) : Propagates (fail fault)
  | note {n : Note} {rest : Program I α} (h : Propagates rest) : Propagates (note n rest)
  | call {c : I.Call} {next : Except Fault (I.Reply c) → Program I α}
      (ok : ∀ reply, Propagates (next (.ok reply)))
      (error : ∀ fault, GivesUp fault (next (.error fault))) : Propagates (call c next)

/-- Programs that make only calls with a property. -/
inductive Every (P : I.Call → Prop) : Program I α → Prop where
  | done (a : α) : Every P (done a)
  | fail (fault : Fault) : Every P (fail fault)
  | note {n : Note} {rest : Program I α} (h : Every P rest) : Every P (note n rest)
  | call {c : I.Call} {next : Except Fault (I.Reply c) → Program I α} (h : P c)
      (answers : ∀ reply, Every P (next reply)) : Every P (call c next)

end Program

end CircuitLayout
