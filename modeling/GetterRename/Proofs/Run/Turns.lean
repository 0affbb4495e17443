import GetterRename.Proofs.Run.Schedule
import Mathlib.Algebra.GroupWithZero.Nat

/-!
# Schedules that end

No schedule gets stuck: as long as some work is left, either a task that has begun can take its next
step, or no thread is taken and the first task that waits can begin.  A schedule that gives the
tasks their turns one after the other does what the run over the list of files does.

* `Pool.left` — the steps that are left;
* `Pool.exists_over` — every schedule can be carried on to its end;
* `Pool.run_turnsFrom` — what the turns of one task after the other lead to;
* `exists_schedule_fix` — the run over the list of files is one of the scheduled runs.
-/

namespace GetterRename.Run

/-! ### Steps left -/

/-- The most steps that are left from a stage. -/
def Stage.left : Stage → Nat
  | waiting => 5
  | begun => 4
  | admitted => 3
  | drafted _ => 2
  | settled _ => 1
  | gathered _ | refused => 0

theorem Stage.hasBegun_of_isOver {stage : Stage} (h : stage.isOver = true) :
    stage.hasBegun = true := by
  cases stage with
  | waiting => simp [isOver] at h
  | _ => rfl

theorem Stage.left_ofDraft (outcome : Except Failure (Option Draft)) :
    (Stage.ofDraft outcome).left < Stage.admitted.left := by
  cases outcome with
  | error e => simp [ofDraft, left]
  | ok draft? => cases draft? <;> simp [ofDraft, left]

namespace Pool

variable {args : Args} {base : Bytes} {threads : Nat} {p : Pool} {i : Nat} {path : Bytes}
  {stage stage' : Stage}

/-- The most steps that are left in a pool. -/
def left (p : Pool) : Nat := (p.tasks.map (·.stage.left)).sum

theorem left_move (hi : p.tasks[i]? = some ⟨path, stage⟩) (h : stage'.left < stage.left) :
    (p.move i path stage').left < p.left := by
  obtain ⟨before, after, htasks, hset⟩ := exists_split_set hi
  have hmoved : (p.move i path stage').tasks = before ++ ⟨path, stage'⟩ :: after := hset _
  simp only [left, hmoved, htasks, List.map_append, List.map_cons, List.sum_append, List.sum_cons]
  omega

theorem left_gather {outcome : Except Failure (Option FileResult)} :
    (p.gather i path outcome).left = (p.move i path (.gathered outcome)).left := by
  cases outcome <;> rfl

theorem step_turn (hi : p.tasks[i]? = some ⟨path, stage⟩) :
    p.step args base threads (.turn i) = p.advance args base threads i path stage := by
  simp only [step, hi]

theorem left_turn (hi : p.tasks[i]? = some ⟨path, stage⟩) (hactive : stage.isActive = true) :
    (p.step args base threads (.turn i)).left < p.left := by
  rw [step_turn hi]
  cases stage with
  | waiting => simp [Stage.isActive, Stage.hasBegun] at hactive
  | begun =>
    refine left_move hi ?_
    split <;> decide
  | admitted => exact left_move hi (Stage.left_ofDraft _)
  | drafted d => exact left_move hi (Nat.lt_succ_self 1)
  | settled outcome =>
    rw [advance, left_gather]
    exact left_move hi Nat.one_pos
  | gathered outcome => simp [Stage.isActive, Stage.isOver] at hactive
  | refused => simp [Stage.isActive, Stage.isOver] at hactive

/-- While no thread is taken, the first task that waits can begin. -/
theorem mayBegin_of_first (hidle : ∀ task ∈ p.tasks, task.stage.isActive = false)
    (hbefore : ∀ task ∈ p.tasks.take i, task.stage.hasBegun = true) :
    p.mayBegin threads i = true := by
  have hcount : p.tasks.countP (·.stage.isActive) = 0 :=
    List.countP_eq_zero.2 fun task htask => by simp [hidle task htask]
  have hthreads : (threads == 0 || decide (0 < threads)) = true := by
    cases threads <;> simp
  rw [mayBegin, hcount, hthreads, Bool.and_true]
  exact List.all_eq_true.2 hbefore

/-- **Progress**: while work is left, the turn of some task leaves less of it. -/
theorem exists_turn (args : Args) (base : Bytes) (threads : Nat) (h : p.isOver = false) :
    ∃ i, (p.step args base threads (.turn i)).left < p.left := by
  by_cases hactive : ∃ task ∈ p.tasks, task.stage.isActive = true
  · obtain ⟨task, htask, hactive⟩ := hactive
    obtain ⟨i, hi⟩ := List.mem_iff_getElem?.1 htask
    exact ⟨i, left_turn hi hactive⟩
  · have hidle : ∀ task ∈ p.tasks, task.stage.isActive = false := by simpa using hactive
    have hwaits : ∃ task ∈ p.tasks, (!task.stage.hasBegun) = true := by
      obtain ⟨task, htask, hover⟩ := List.all_eq_false.1 h
      refine ⟨task, htask, ?_⟩
      have := hidle task htask
      simp_all [Stage.isActive]
    -- the first task that waits
    let i := p.tasks.findIdx fun task => !task.stage.hasBegun
    have hlength : i < p.tasks.length := List.findIdx_lt_length.2 hwaits
    have hfirst : p.tasks[i].stage.hasBegun = false := by
      simpa using List.findIdx_getElem (w := hlength)
    have hbefore : ∀ task ∈ p.tasks.take i, task.stage.hasBegun = true := by
      intro task htask
      obtain ⟨j, hj, rfl⟩ := List.mem_take_iff_getElem.1 htask
      simpa using List.not_of_lt_findIdx (Nat.lt_of_lt_of_le hj (Nat.min_le_left _ _))
    have hbegin : p.mayBegin threads i = true := mayBegin_of_first hidle hbefore
    have hi : p.tasks[i]? = some ⟨p.tasks[i].path, .waiting⟩ := by
      rw [List.getElem?_eq_getElem hlength]
      cases hstage : p.tasks[i].stage with
      | waiting => rw [← hstage]
      | _ => simp [hstage, Stage.hasBegun] at hfirst
    refine ⟨i, ?_⟩
    rw [step_turn hi, advance, if_pos hbegin]
    exact left_move hi (Nat.lt_succ_self 4)

theorem run_append (p : Pool) (schedule more : List Event) :
    p.run args base threads (schedule ++ more) =
      (p.run args base threads schedule).run args base threads more :=
  List.foldl_append

/-- **No schedule gets stuck**: turns of the tasks end every one of them. -/
theorem exists_over (args : Args) (base : Bytes) (threads : Nat) (p : Pool) :
    ∃ schedule, .cancel ∉ schedule ∧ (p.run args base threads schedule).isOver = true := by
  generalize hleft : p.left = n
  induction n using Nat.strongRecOn generalizing p with
  | ind n ih =>
    cases hover : p.isOver with
    | true => exact ⟨[], nofun, hover⟩
    | false =>
      obtain ⟨i, hi⟩ := exists_turn args base threads hover
      obtain ⟨schedule, hcancel, hend⟩ := ih _ (hleft ▸ hi) _ rfl
      exact ⟨.turn i :: schedule, by simp [hcancel], hend⟩

/-! ### One task after the other -/

/-- All turns of the tasks from number `i` on, one task after the other. -/
def turnsFrom (i : Nat) : Nat → List Event
  | 0 => []
  | n + 1 => List.replicate 5 (.turn i) ++ turnsFrom (i + 1) n

theorem cancel_not_mem_turnsFrom (i n : Nat) : .cancel ∉ turnsFrom i n := by
  induction n generalizing i with
  | zero => exact nofun
  | succ n ih => simp [turnsFrom, ih]

theorem move_move (p : Pool) (i : Nat) (path : Bytes) (stage stage' : Stage) :
    (p.move i path stage).move i path stage' = p.move i path stage' := by
  simp [Pool.move]

theorem getElem?_move (hi : p.tasks[i]? = some ⟨path, stage⟩) (stage' : Stage) :
    (p.move i path stage').tasks[i]? = some ⟨path, stage'⟩ := by
  obtain ⟨hlength, -⟩ := List.getElem?_eq_some_iff.1 hi
  exact List.getElem?_set_self hlength

theorem step_waiting (hi : p.tasks[i]? = some ⟨path, .waiting⟩)
    (hbegin : p.mayBegin threads i = true) :
    p.step args base threads (.turn i) = p.move i path .begun := by
  rw [step_turn hi, advance, if_pos hbegin]

theorem step_begun (hi : p.tasks[i]? = some ⟨path, stage⟩) :
    (p.move i path .begun).step args base threads (.turn i) =
      p.move i path (if p.cancelled then .refused else .admitted) := by
  rw [step_turn (getElem?_move hi _), advance, move_move]
  rfl

theorem step_of_isOver (hi : p.tasks[i]? = some ⟨path, stage⟩) (hover : stage.isOver = true) :
    p.step args base threads (.turn i) = p := by
  rw [step_turn hi]
  cases stage with
  | gathered outcome => rfl
  | refused => rfl
  | waiting | begun | admitted | drafted | settled => simp [Stage.isOver] at hover

theorem gather_move (p : Pool) (i : Nat) (path : Bytes) (stage : Stage)
    (outcome : Except Failure (Option FileResult)) :
    (p.move i path stage).gather i path outcome = p.gather i path outcome := by
  cases outcome <;> simp [gather, Pool.move]

theorem read_move (args : Args) (p : Pool) (i : Nat) (path : Bytes) (stage : Stage) :
    (p.move i path stage).read args i path =
      { p with logs := p.logs ++ (draft args p.tree path).1 }.move i path
        (.ofDraft (draft args p.tree path).2) := by
  simp [Pool.read, Pool.move]

theorem write_move (args : Args) (base : Bytes) (p : Pool) (i : Nat) (path : Bytes) (stage : Stage)
    (d : Draft) :
    ∃ written, (p.move i path stage).write args base i path d =
      { p with
        tree := (keep args base p.tree path d).1
        logs := p.logs ++ (keep args base p.tree path d).2.1
        written }.move i path (.settled (keep args base p.tree path d).2.2) :=
  ⟨_, by simp only [Pool.write, Pool.move, List.set_set]; rfl⟩

theorem run_settled (p : Pool) (n : Nat) {outcome : Except Failure (Option FileResult)}
    (hi : p.tasks[i]? = some ⟨path, stage⟩) :
    (p.move i path (.settled outcome)).run args base threads (List.replicate (n + 1) (.turn i)) =
      p.gather i path outcome := by
  have hgather : (p.move i path (.settled outcome)).step args base threads (.turn i) =
      p.gather i path outcome := by
    rw [step_turn (getElem?_move hi _)]
    exact gather_move p i path _ outcome
  have hover : (p.gather i path outcome).tasks[i]? = some ⟨path, .gathered outcome⟩ := by
    have hmove := getElem?_move hi (.gathered outcome)
    cases outcome <;> exact hmove
  show ((p.move i path (.settled outcome)).step args base threads (.turn i)).run args base threads
    (List.replicate n (.turn i)) = _
  rw [hgather]
  induction n with
  | zero => rfl
  | succ n ih =>
    show ((p.gather i path outcome).step args base threads (.turn i)).run args base threads
      (List.replicate n (.turn i)) = _
    rw [step_of_isOver hover rfl]
    exact ih

variable (args base) in
/-- The turns of one task do the work on its file. -/
theorem run_file (hi : p.tasks[i]? = some ⟨path, .waiting⟩) (hbegin : p.mayBegin threads i = true)
    (hcancelled : p.cancelled = false) :
    ∃ written, p.run args base threads (List.replicate 5 (.turn i)) =
      { p with
        tree := (fixFile args base p.tree path).1
        logs := p.logs ++ (fixFile args base p.tree path).2.1
        written }.gather i path (fixFile args base p.tree path).2.2 := by
  have hbegun : p.step args base threads (.turn i) = p.move i path .begun := step_waiting hi hbegin
  have hadmitted : (p.move i path .begun).step args base threads (.turn i) =
      p.move i path .admitted := by
    simp [step_begun hi, hcancelled]
  have hread : (p.move i path .admitted).step args base threads (.turn i) =
      { p with logs := p.logs ++ (draft args p.tree path).1 }.move i path
        (.ofDraft (draft args p.tree path).2) := by
    rw [step_turn (getElem?_move hi _), advance, read_move]
  have hrun : p.run args base threads (List.replicate 5 (.turn i)) =
      ((p.move i path .admitted).step args base threads (.turn i)).run args base threads
        (List.replicate 2 (.turn i)) := by
    rw [← hadmitted, ← hbegun]
    rfl
  rw [hrun, hread]
  rcases hdraft : draft args p.tree path with ⟨logs, e | d?⟩
  · have hfile : fixFile args base p.tree path = (p.tree, logs, .error e) := by
      simp only [fixFile, hdraft]
    rw [hfile]
    exact ⟨p.written, run_settled { p with logs := p.logs ++ logs } 1 hi⟩
  · cases d? with
    | none =>
      have hfile : fixFile args base p.tree path = (p.tree, logs, .ok none) := by
        simp only [fixFile, hdraft]
      rw [hfile]
      exact ⟨p.written, run_settled { p with logs := p.logs ++ logs } 1 hi⟩
    | some d =>
      let drafted : Pool := { p with logs := p.logs ++ logs }
      have hdrafted : drafted.tasks[i]? = some ⟨path, .waiting⟩ := hi
      obtain ⟨written, hwrite⟩ := write_move args base drafted i path (.drafted d) d
      have hstep : (drafted.move i path (.drafted d)).step args base threads (.turn i) = _ :=
        (step_turn (getElem?_move hdrafted _)).trans hwrite
      have hfile : fixFile args base p.tree path = ((keep args base p.tree path d).1,
          logs ++ (keep args base p.tree path d).2.1, (keep args base p.tree path d).2.2) := by
        simp only [fixFile, hdraft]
      refine ⟨written, ?_⟩
      rw [hfile, ← List.append_assoc]
      show ((drafted.move i path (.drafted d)).step args base threads (.turn i)).run args base
        threads (List.replicate 1 (.turn i)) = _
      rw [hstep]
      exact run_settled { p with
        tree := (keep args base p.tree path d).1
        logs := p.logs ++ logs ++ (keep args base p.tree path d).2.1
        written } 0 hi

/-- From one pool to another all files are worked on, with a common outcome. -/
structure Ends (p q : Pool) (outcome : Outcome) : Prop where
  stages : ∀ task ∈ q.tasks, ∃ outcome, task.stage = .gathered outcome
  tree : q.tree = outcome.tree
  logs : q.logs = p.logs ++ outcome.logs
  results : q.results = p.results ++ outcome.results
  failures : q.failures = p.failures ++ outcome.failures

/-- Behind tasks that are over, the first that waits can begin. -/
theorem mayBegin_of_over {done : List Task} {rest : List Bytes}
    (hdone : ∀ task ∈ done, task.stage.isOver = true)
    (htasks : p.tasks = done ++ rest.map fun path => ⟨path, .waiting⟩) :
    p.mayBegin threads done.length = true := by
  refine mayBegin_of_first (fun task htask => ?_) fun task htask => ?_
  · rw [htasks, List.mem_append] at htask
    rcases htask with htask | htask
    · simp [Stage.isActive, hdone task htask]
    · obtain ⟨other, -, rfl⟩ := List.mem_map.1 htask
      rfl
  · rw [htasks, List.take_left] at htask
    exact Stage.hasBegun_of_isOver (hdone task htask)

theorem tasks_gather (p : Pool) (i : Nat) (path : Bytes)
    (outcome : Except Failure (Option FileResult)) :
    (p.gather i path outcome).tasks = p.tasks.set i ⟨path, .gathered outcome⟩ := by
  cases outcome <;> rfl

/-- **One task after the other**: the tasks that wait do what the run over their files does. -/
theorem run_turnsFrom {done : List Task} {rest : List Bytes}
    (hdone : ∀ task ∈ done, ∃ outcome, task.stage = .gathered outcome)
    (htasks : p.tasks = done ++ rest.map fun path => ⟨path, .waiting⟩)
    (hcancelled : p.cancelled = false) :
    Ends p (p.run args base threads (turnsFrom done.length rest.length))
      (fixAll args base p.tree rest) := by
  induction rest generalizing p done with
  | nil =>
    have hstages : ∀ task ∈ p.tasks, ∃ outcome, task.stage = .gathered outcome := by
      simpa [htasks] using hdone
    exact ⟨hstages, rfl, (List.append_nil _).symm, (List.append_nil _).symm,
      (List.append_nil _).symm⟩
  | cons path rest ih =>
    have hi : p.tasks[done.length]? = some ⟨path, .waiting⟩ := by simp [htasks]
    have hbegin : p.mayBegin threads done.length = true := by
      refine mayBegin_of_over (fun task htask => ?_) htasks
      obtain ⟨outcome, hstage⟩ := hdone task htask
      rw [hstage]
      rfl
    obtain ⟨written, hfile⟩ := run_file args base hi hbegin hcancelled
    rw [List.length_cons, turnsFrom, run_append, hfile]
    rcases hfix : fixFile args base p.tree path with ⟨t, logs, outcome⟩
    -- the pool behind the turns of the first task that waits
    let next : Pool := { p with tree := t, logs := p.logs ++ logs, written }
    have hnext : (next.gather done.length path outcome).tasks =
        (done ++ [⟨path, .gathered outcome⟩]) ++ rest.map fun path => ⟨path, .waiting⟩ := by
      rw [tasks_gather]
      show p.tasks.set done.length _ = _
      simp [htasks]
    have hdone' : ∀ task ∈ done ++ [⟨path, .gathered outcome⟩],
        ∃ outcome, task.stage = .gathered outcome := by
      intro task htask
      rcases List.mem_append.1 htask with htask | htask
      · exact hdone task htask
      · rw [List.mem_singleton.1 htask]
        exact ⟨outcome, rfl⟩
    have hends := ih hdone' hnext (cancelled_gather.trans hcancelled)
    rw [List.length_append] at hends
    cases outcome with
    | ok result =>
      have hall : fixAll args base p.tree (path :: rest) =
          { fixAll args base t rest with
            logs := logs ++ (fixAll args base t rest).logs
            results := result.toList ++ (fixAll args base t rest).results } := by
        simp only [fixAll, hfix]
      rw [hall]
      exact ⟨hends.stages, hends.tree, hends.logs.trans (List.append_assoc _ _ _),
        hends.results.trans (List.append_assoc _ _ _), hends.failures⟩
    | error e =>
      have hall : fixAll args base p.tree (path :: rest) =
          { fixAll args base t rest with
            logs := logs ++ failureNote path e :: (fixAll args base t rest).logs
            failures := e :: (fixAll args base t rest).failures } := by
        simp only [fixAll, hfix]
      rw [hall]
      exact ⟨hends.stages, hends.tree, by simpa [gather, next, Pool.move] using hends.logs,
        hends.results, hends.failures.trans (List.append_assoc _ _ _)⟩

theorem run_file_of_cancelled (hi : p.tasks[i]? = some ⟨path, .waiting⟩)
    (hbegin : p.mayBegin threads i = true) (hcancelled : p.cancelled = true) :
    p.run args base threads (List.replicate 5 (.turn i)) = p.move i path .refused := by
  have hbegun : p.step args base threads (.turn i) = p.move i path .begun := step_waiting hi hbegin
  have hrefused : (p.move i path .begun).step args base threads (.turn i) =
      p.move i path .refused := by
    simp [step_begun hi, hcancelled]
  have hover : (p.move i path .refused).step args base threads (.turn i) =
      p.move i path .refused := step_of_isOver (getElem?_move hi _) rfl
  have hrun : p.run args base threads (List.replicate 5 (.turn i)) =
      (p.move i path .refused).run args base threads (List.replicate 3 (.turn i)) := by
    rw [← hrefused, ← hbegun]
    rfl
  rw [hrun]
  simp [run, hover]

theorem run_turnsFrom_of_cancelled {done : List Task} {rest : List Bytes}
    (hdone : ∀ task ∈ done, task.stage.isOver = true)
    (htasks : p.tasks = done ++ rest.map fun path => ⟨path, .waiting⟩)
    (hcancelled : p.cancelled = true) :
    p.run args base threads (turnsFrom done.length rest.length) =
      { p with tasks := done ++ rest.map fun path => ⟨path, .refused⟩ } := by
  induction rest generalizing p done with
  | nil =>
    obtain rfl : p.tasks = done := by simpa using htasks
    simp [turnsFrom, run]
  | cons path rest ih =>
    have hi : p.tasks[done.length]? = some ⟨path, .waiting⟩ := by simp [htasks]
    have hmoved : (p.move done.length path .refused).tasks =
        (done ++ [⟨path, .refused⟩]) ++ rest.map fun path => ⟨path, .waiting⟩ := by
      simp [Pool.move, htasks]
    have hdone' : ∀ task ∈ done ++ [⟨path, .refused⟩], task.stage.isOver = true := by
      simpa [or_imp, forall_and, Stage.isOver] using hdone
    have hrest := ih hdone' hmoved hcancelled
    rw [List.length_append] at hrest
    rw [List.length_cons, turnsFrom, run_append,
      run_file_of_cancelled hi (mayBegin_of_over hdone htasks) hcancelled]
    simpa [Pool.move] using hrest

end Pool

/-! ### The run over the list of files -/

theorem path_keep {args : Args} {base path : Bytes} {t : FileTree} {d : Draft} {f : FileResult}
    (h : (keep args base t path d).2.2 = .ok (some f)) : f.path = path := by
  unfold keep at h
  split at h
  · simp at h
  simp only at h
  split at h
  · cases h
    rfl
  split at h
  · simp at h
  split at h
  · simp at h
  · cases h
    rfl

theorem path_fixFile {args : Args} {base path : Bytes} {t : FileTree} {f : FileResult}
    (h : (fixFile args base t path).2.2 = .ok (some f)) : f.path = path := by
  unfold fixFile at h
  split at h
  · simp at h
  · simp at h
  · exact path_keep h

theorem sublist_fixAll (args : Args) (base : Bytes) (t : FileTree) (paths : List Bytes) :
    ((fixAll args base t paths).results.map (·.path)).Sublist paths := by
  induction paths generalizing t with
  | nil => exact .slnil
  | cons path rest ih =>
    rcases hfix : fixFile args base t path with ⟨t', logs, e | result⟩
    · simpa only [fixAll, hfix] using (ih t').cons path
    · cases result with
      | none => simpa [fixAll, hfix] using (ih t').cons path
      | some f =>
        obtain rfl : f.path = path := path_fixFile (by rw [hfix])
        simpa [fixAll, hfix] using ih t'

section Fix

variable {args : Args} {base : Bytes} {t : FileTree} {sources : List Bytes}

/-- One task after the other gives the outcome of the run over the files. -/
theorem outcome_inTurn (threads : Nat) (hordered : sources.Pairwise Bytes.Before)
    (hcancelled : args.cancelled = false) :
    let p := (Pool.start args t sources).run args base threads (Pool.turnsFrom 0 sources.length)
    p.isOver = true ∧ p.outcome = fixAll args base t sources := by
  intro p
  have hends : Pool.Ends (Pool.start args t sources) p (fixAll args base t sources) :=
    Pool.run_turnsFrom (List.forall_mem_nil _) rfl hcancelled
  have hrefused : p.tasks.any (·.stage.isRefused) = false := by
    rw [List.any_eq_false]
    intro task htask
    obtain ⟨outcome, hstage⟩ := hends.stages task htask
    simp [hstage, Stage.isRefused]
  have hsorted : (fixAll args base t sources).results.Pairwise fun f g =>
      Bytes.le f.path g.path = true :=
    List.pairwise_map.1 ((hordered.imp And.left).sublist (sublist_fixAll args base t sources))
  have hresults : p.results = (fixAll args base t sources).results := hends.results
  have hlogs : p.logs = (fixAll args base t sources).logs := hends.logs
  have hfailures : p.failures = (fixAll args base t sources).failures := hends.failures
  constructor
  · refine List.all_eq_true.2 fun task htask => ?_
    obtain ⟨outcome, hstage⟩ := hends.stages task htask
    rw [hstage]
    rfl
  · simp [Pool.outcome, hrefused, hends.tree, hlogs, hfailures, hresults,
      List.mergeSort_of_pairwise hsorted]

theorem outcome_of_cancelled (threads : Nat) (hcancelled : args.cancelled = true) :
    let p := (Pool.start args t sources).run args base threads (Pool.turnsFrom 0 sources.length)
    p.isOver = true ∧ p.outcome = fixSources args base t sources := by
  intro p
  have hp : p = { Pool.start args t sources with
      tasks := sources.map fun path => ⟨path, .refused⟩ } :=
    Pool.run_turnsFrom_of_cancelled (List.forall_mem_nil _) rfl hcancelled
  rw [hp]
  constructor
  · simp [Pool.isOver, Stage.isOver]
  · cases sources with
    | nil => simp [Pool.outcome, Pool.start, fixSources, fixAll]
    | cons path rest =>
      simp [Pool.outcome, Pool.start, Stage.isRefused, fixSources, hcancelled]

/-- **The run over the list of files** is one of the scheduled runs. -/
theorem exists_schedule_fix [Globs] (ht : t.isWellNamed = true) (threads : Nat) (args : Args) :
    ∃ schedule, .cancel ∉ schedule ∧
      fixScheduled threads schedule t args = some (fix t args) := by
  cases hplan : plan t args with
  | error e => exact ⟨[], nofun, by simp only [fixScheduled, fix, hplan]⟩
  | ok plan =>
    refine ⟨Pool.turnsFrom 0 plan.sources.length, Pool.cancel_not_mem_turnsFrom _ _, ?_⟩
    let pool := plan.pool threads (Pool.turnsFrom 0 plan.sources.length) t args
    obtain ⟨hover, houtcome⟩ : pool.isOver = true ∧
        pool.outcome = fixSources args plan.base t plan.sources := by
      cases hcancelled : args.cancelled with
      | true => exact outcome_of_cancelled threads hcancelled
      | false =>
        have hfix : fixSources args plan.base t plan.sources =
            fixAll args plan.base t plan.sources := by simp [fixSources, hcancelled]
        rw [hfix]
        exact outcome_inTurn threads (plan_spec ht hplan).1 hcancelled
    simp only [fixScheduled, fix, hplan]
    show (if pool.isOver = true then some (plan.conclude args pool.outcome) else none) = _
    rw [if_pos hover, houtcome]

end Fix

end GetterRename.Run
