import GetterRename.Run.Fix

/-!
# Runs with several workers

The files of a run may be worked on side by side.  The work on one file is a task of a few steps:
it begins, looks whether the run is cancelled, reads the file, keeps the new text, and hands over
its outcome.  Reading and keeping are one step each, and a schedule says whose step comes next.  The
tasks begin in the order of the files, and a limit may hold back those for which no thread is free.

- `Stage`, `Task` : how far the work on a file has come;
- `Pool` : the tasks of a run, and what they share;
- `Pool.step`, `Pool.run` : the next step, and the steps of a schedule;
- `fixScheduled` : the whole run, in the order of a schedule.
-/

namespace GetterRename.Run

/-! ## Tasks -/

/-- How far the work on a file has come. -/
inductive Stage where
  | waiting
  /-- Begun, but before the look at whether the run is cancelled. -/
  | begun
  /-- The run was not cancelled; the file is read next. -/
  | admitted
  | drafted (d : Draft)
  /-- The outcome is known, but not handed over. -/
  | settled (outcome : Except Failure (Option FileResult))
  | gathered (outcome : Except Failure (Option FileResult))
  /-- The run was cancelled before the file was read. -/
  | refused

namespace Stage

/-- Whether the work has begun. -/
def hasBegun : Stage → Bool
  | waiting => false
  | _ => true

/-- Whether the work is over. -/
def isOver : Stage → Bool
  | gathered _ | refused => true
  | _ => false

/-- Whether the work was refused. -/
def isRefused : Stage → Bool
  | refused => true
  | _ => false

/-- Whether the work takes up a thread. -/
def isActive (s : Stage) : Bool := s.hasBegun && !s.isOver

/-- The stage behind the reading of a file. -/
def ofDraft : Except Failure (Option Draft) → Stage
  | .ok (some d) => drafted d
  | .ok none => settled (.ok none)
  | .error e => settled (.error e)

end Stage

/-- The work on the file at a path. -/
structure Task where
  path : Bytes
  stage : Stage := .waiting

/-! ## Pools -/

/-- The tasks of a run, and what they share. -/
structure Pool where
  tree : FileTree
  /-- The tasks in the order of their files. -/
  tasks : List Task
  cancelled : Bool
  logs : List LogRecord := []
  results : List FileResult := []
  failures : List Failure := []
  /-- The paths of the files written, in the order of writing. -/
  written : List Bytes := []

/-- What happens next: a task takes a step, or the run is cancelled. -/
inductive Event where
  | turn (i : Nat)
  | cancel
  deriving DecidableEq, Repr

namespace Pool

/-- The pool of a run before its first step. -/
def start (args : Args) (t : FileTree) (sources : List Bytes) : Pool :=
  { tree := t, tasks := sources.map fun path => { path }, cancelled := args.cancelled }

/-- Whether the task number `i` may begin: all before it have begun, and a thread is free. Without
a limit, which is a limit of zero, there is always one. -/
def mayBegin (threads : Nat) (p : Pool) (i : Nat) : Bool :=
  (p.tasks.take i).all (·.stage.hasBegun) &&
    (threads == 0 || p.tasks.countP (·.stage.isActive) < threads)

/-- The task number `i` is at another stage. -/
def move (p : Pool) (i : Nat) (path : Bytes) (stage : Stage) : Pool :=
  { p with tasks := p.tasks.set i ⟨path, stage⟩ }

/-- A task reads its file. -/
def read (args : Args) (p : Pool) (i : Nat) (path : Bytes) : Pool :=
  let (logs, outcome) := draft args p.tree path
  { p.move i path (.ofDraft outcome) with logs := p.logs ++ logs }

/-- A task keeps the new text of its file. -/
def write (args : Args) (base : Bytes) (p : Pool) (i : Nat) (path : Bytes) (d : Draft) : Pool :=
  let (tree, logs, outcome) := keep args base p.tree path d
  let written := if outcome.isOk && !args.dryRun then [path] else []
  { p.move i path (.settled outcome) with
    tree, logs := p.logs ++ logs, written := p.written ++ written }

/-- A task hands over its outcome. -/
def gather (p : Pool) (i : Nat) (path : Bytes) (outcome : Except Failure (Option FileResult)) :
    Pool :=
  let p := p.move i path (.gathered outcome)
  match outcome with
  | .ok result => { p with results := p.results ++ result.toList }
  | .error e => { p with failures := p.failures ++ [e], logs := p.logs ++ [failureNote path e] }

/-- The next step of the task number `i`, from its stage. -/
def advance (args : Args) (base : Bytes) (threads : Nat) (p : Pool) (i : Nat) (path : Bytes) :
    Stage → Pool
  | .waiting => if p.mayBegin threads i then p.move i path .begun else p
  | .begun => p.move i path (if p.cancelled then .refused else .admitted)
  | .admitted => p.read args i path
  | .drafted d => p.write args base i path d
  | .settled outcome => p.gather i path outcome
  | .gathered _ | .refused => p

/-- What an event does to the pool. A task that cannot take a step leaves it as it is. -/
def step (args : Args) (base : Bytes) (threads : Nat) (p : Pool) : Event → Pool
  | .cancel => { p with cancelled := true }
  | .turn i =>
    match p.tasks[i]? with
    | some task => p.advance args base threads i task.path task.stage
    | none => p

/-- The pool behind the events of a schedule. -/
def run (args : Args) (base : Bytes) (threads : Nat) (p : Pool) (schedule : List Event) : Pool :=
  schedule.foldl (step args base threads) p

/-- Whether all work is over. -/
def isOver (p : Pool) : Bool := p.tasks.all (·.stage.isOver)

/-- The outcome of the work, with the results in the order of their paths. Where a file was refused
the run fails for that reason alone. -/
def outcome (p : Pool) : Outcome where
  tree := p.tree
  logs := p.logs
  results := p.results.mergeSort fun a b => Bytes.le a.path b.path
  failures := if p.tasks.any (·.stage.isRefused) then [.cancelled] else p.failures

end Pool

/-! ## Runs -/

/-- The pool behind the schedule of a run. -/
def Plan.pool (p : Plan) (threads : Nat) (schedule : List Event) (t : FileTree) (args : Args) :
    Pool :=
  (Pool.start args t p.sources).run args p.base threads schedule

/-- The whole run in the order of a schedule; nothing if the schedule leaves work behind. A limit of
zero threads is none. -/
def fixScheduled [Globs] (threads : Nat) (schedule : List Event) (t : FileTree) (args : Args) :
    Option Result :=
  match plan t args with
  | .error e => some (.refused t args e)
  | .ok p =>
    let pool := p.pool threads schedule t args
    if pool.isOver then some (p.conclude args pool.outcome) else none

end GetterRename.Run
