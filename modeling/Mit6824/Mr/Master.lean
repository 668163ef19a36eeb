/-
  File:      Mit6824/Mr/Master.lean
  Subject:   THE MAPREDUCE MASTER AND ITS WORKERS (mr/master.go, mr/rpc.go, mr/worker.go lines
             61-123): tasks handed out, taken back by timers, reported.

  `Schedule` runs under the master's lock, and so does the callback of each 10-second timer: these
  are the steps, with `Register`. A worker is sequential, its calls are synchronous: it asks, is
  busy with the reply, reports once, and asks again. A worker that has crashed, or is slow, is one
  that has no step for ever, or for a while; a timer may fire at any moment.

  `Worker2task` is a map from worker ids; a Go map gives the zero `Task` for a key it does not
  hold (`scheduleDone`). A file name carries the place of the file in the list `MakeMaster` was
  given; `assigned` and `reported` are a history. No section reads any of these.

  * `Master.scheduleTask`, `Master.scheduleDone` -- the two request types of `Schedule`;
  * `Master.timeout` -- the timer callbacks of both phases;
  * `World.step` -- the master, its timers and the workers;
  * `World.Move`, `move_of_step` -- what a step can be.
-/
import Mathlib.Data.List.AList
import Mathlib.Logic.Function.Basic
import Mit6824.Lib.Runs

namespace Mit6824.Mr

/-! ## 1. Data -/

/-- The field `phase`: 0 map, 1 reduce, 2 finish. -/
inductive Phase where
  | map
  | reduce
  | finish
  deriving DecidableEq, Repr

/-- The field `Task` of a reply: 0 map, 1 reduce, 2 idle. -/
inductive TaskType where
  | map
  | reduce
  | idle
  deriving DecidableEq, Repr

structure File where
  name : String
  entry : Option Nat
  deriving DecidableEq, Repr

structure Task where
  taskNum : Nat
  file : List File
  deriving DecidableEq, Repr

structure TaskReply where
  task : TaskType
  taskNum : Nat
  file : List File
  nReduce : Nat
  deriving DecidableEq, Repr

/-- A reply nobody has written to. Its `Task` is 0, a map task. -/
def TaskReply.zero : TaskReply := ⟨.map, 0, [], 0⟩

/-- The goroutine `Schedule` starts with a task of this type: it knows the worker and the number. -/
structure Timer where
  task : TaskType
  workerId : Nat
  taskNum : Nat
  deriving DecidableEq, Repr

structure Master where
  nReduce : Nat
  files : List File
  mTask : Nat
  rTask : List Nat
  worker2task : AList fun _ : Nat => Task
  phase : Phase
  workerNum : Nat
  validTask : List Nat

/-! ## 2. The master -/

namespace Master

/-- `len(m.Worker2task)`. -/
def held (m : Master) : Nat := m.worker2task.keys.length

def makeMaster (files : List String) (nReduce : Nat) : Master where
  nReduce := nReduce
  files := files.mapIdx fun i name => ⟨name, some i⟩
  mTask := 0
  rTask := List.range nReduce
  worker2task := ∅
  phase := .map
  workerNum := 0
  validTask := []

/-- What a map task leaves behind for the reduce task `r`. -/
def reduceFile (taskNum r : Nat) : File := ⟨"mr-" ++ toString taskNum ++ "-" ++ toString r, none⟩

/-- `Schedule` with `RequestType` 0, and the timer it starts. -/
def scheduleTask (m : Master) (workerId : Nat) : Master × TaskReply × Option Timer :=
  match m.phase with
  | .map =>
      match m.files.getLast? with
      | some file =>
          ({ m with
              files := m.files.dropLast
              worker2task := m.worker2task.insert workerId ⟨m.mTask, [file]⟩
              mTask := m.mTask + 1 },
            ⟨.map, m.mTask, [file], m.nReduce⟩, some ⟨.map, workerId, m.mTask⟩)
      | none => (m, if 0 < m.held then { TaskReply.zero with task := .idle } else .zero, none)
  | .reduce =>
      match m.rTask.getLast? with
      | some r =>
          let reduceFiles := m.validTask.map fun taskNum => reduceFile taskNum r
          ({ m with
              worker2task := m.worker2task.insert workerId ⟨r, reduceFiles⟩
              rTask := m.rTask.dropLast },
            ⟨.reduce, r, reduceFiles, 0⟩, some ⟨.reduce, workerId, r⟩)
      | none => (m, { TaskReply.zero with task := .idle }, none)
  | .finish => (m, { TaskReply.zero with task := .idle }, none)

/-- `Schedule` with `RequestType` 1. -/
def scheduleDone (m : Master) (workerId : Nat) : Master :=
  match m.phase with
  | .map =>
      let taskNum := ((m.worker2task.lookup workerId).map Task.taskNum).getD 0
      let m := { m with
        validTask := m.validTask ++ [taskNum]
        worker2task := m.worker2task.erase workerId }
      if m.files = [] ∧ m.held = 0 then { m with phase := .reduce } else m
  | .reduce =>
      let m := { m with worker2task := m.worker2task.erase workerId }
      if m.rTask = [] ∧ m.held = 0 then { m with phase := .finish } else m
  | .finish => m

/-- The callback of a timer: lines 56-66 for a map task, 104-113 for a reduce task. Both look
    only at the number of the task the worker holds. -/
def timeout (m : Master) (timer : Timer) : Master :=
  match m.worker2task.lookup timer.workerId with
  | some value =>
      if value.taskNum = timer.taskNum then
        match timer.task with
        | .map =>
            { m with
              files := m.files ++ value.file
              worker2task := m.worker2task.erase timer.workerId }
        | _ =>
            { m with
              rTask := m.rTask ++ [value.taskNum]
              worker2task := m.worker2task.erase timer.workerId }
      else m
  | none => m

/-- `Register`: the id is the number before. -/
def register (m : Master) : Master := { m with workerNum := m.workerNum + 1 }

def done (m : Master) : Bool := decide (m.phase = .finish)

end Master

/-! ## 3. The master with its workers and timers -/

/-- `workers w` is the reply the worker is busy with; `assigned` holds every task the master gave
    to a worker, `reported` every reply whose worker has reported it complete. -/
structure World where
  master : Master
  timers : List Timer
  workers : Nat → Option TaskReply
  assigned : List (Nat × TaskReply)
  reported : List (Nat × TaskReply)

inductive Action where
  | register
  | ask (w : Nat)
  | report (w : Nat)
  | timeout (k : Nat)
  deriving DecidableEq, Repr

namespace World

def init (files : List String) (nReduce : Nat) : World where
  master := .makeMaster files nReduce
  timers := []
  workers _ := none
  assigned := []
  reported := []

/-- A registered worker that is not busy asks. An idle reply leaves it free. -/
def ask (s : World) (w : Nat) : Option World :=
  if w < s.master.workerNum ∧ (s.workers w).isNone = true then
    let r := s.master.scheduleTask w
    some
      { s with
        master := r.1
        timers := s.timers ++ r.2.2.toList
        workers := if r.2.1.task = .idle then s.workers
          else Function.update s.workers w (some r.2.1)
        assigned := s.assigned ++ r.2.2.toList.map fun _ => (w, r.2.1) }
  else none

def report (s : World) (w : Nat) : Option World :=
  match s.workers w with
  | none => none
  | some reply =>
      some
        { s with
          master := s.master.scheduleDone w
          workers := Function.update s.workers w none
          reported := s.reported ++ [(w, reply)] }

def timeout (s : World) (k : Nat) : Option World :=
  match s.timers[k]? with
  | none => none
  | some timer => some { s with master := s.master.timeout timer, timers := s.timers.eraseIdx k }

/-- **One step.** -/
def step (s : World) : Action → Option World
  | .register => some { s with master := s.master.register }
  | .ask w => s.ask w
  | .report w => s.report w
  | .timeout k => s.timeout k

end World

/-! ## 4. What a step can be -/

namespace Master

/-- The map holds nothing: no worker has a task. -/
theorem held_eq_zero {m : Master} : m.held = 0 ↔ ∀ w, m.worker2task.lookup w = none := by
  unfold held
  rw [List.length_eq_zero_iff, List.eq_nil_iff_forall_not_mem]
  refine forall_congr' fun w => ?_
  rw [AList.lookup_eq_none, AList.mem_keys]

/-- A report in the map phase: a number for `ValidTask`, and perhaps the end of the phase. -/
theorem scheduleDone_map {m : Master} (hp : m.phase = .map) (w : Nat) : ∃ phase,
    m.scheduleDone w = { m with
      validTask := m.validTask ++ [((m.worker2task.lookup w).map Task.taskNum).getD 0]
      worker2task := m.worker2task.erase w
      phase := phase } ∧
    (phase = .map ∨
      phase = .reduce ∧ m.files = [] ∧ ∀ v, (m.worker2task.erase w).lookup v = none) := by
  unfold scheduleDone
  rw [hp]
  dsimp only
  split
  · rename_i h
    exact ⟨.reduce, rfl, Or.inr ⟨rfl, h.1, held_eq_zero.mp h.2⟩⟩
  · exact ⟨.map, by rw [← hp], Or.inl rfl⟩

theorem scheduleDone_reduce {m : Master} (hp : m.phase = .reduce) (w : Nat) : ∃ phase,
    m.scheduleDone w = { m with worker2task := m.worker2task.erase w, phase := phase } ∧
    (phase = .reduce ∨
      phase = .finish ∧ m.rTask = [] ∧ ∀ v, (m.worker2task.erase w).lookup v = none) := by
  unfold scheduleDone
  rw [hp]
  dsimp only
  split
  · rename_i h
    exact ⟨.finish, rfl, Or.inr ⟨rfl, h.1, held_eq_zero.mp h.2⟩⟩
  · exact ⟨.reduce, by rw [← hp], Or.inl rfl⟩

theorem scheduleDone_finish {m : Master} (hp : m.phase = .finish) (w : Nat) :
    m.scheduleDone w = m := by
  unfold scheduleDone
  rw [hp]

/-- What a timer does: nothing, or it takes back the task with its number. -/
theorem timeout_cases (m : Master) (timer : Timer) :
    m.timeout timer = m ∨
      ∃ value, m.worker2task.lookup timer.workerId = some value ∧ value.taskNum = timer.taskNum ∧
        ((timer.task = .map ∧ m.timeout timer = { m with
            files := m.files ++ value.file
            worker2task := m.worker2task.erase timer.workerId }) ∨
          (timer.task ≠ .map ∧ m.timeout timer = { m with
            rTask := m.rTask ++ [value.taskNum]
            worker2task := m.worker2task.erase timer.workerId })) := by
  unfold timeout
  split
  · rename_i value hv
    split
    · rename_i hn
      refine Or.inr ⟨value, hv, hn, ?_⟩
      cases ht : timer.task with
      | map => exact Or.inl ⟨rfl, rfl⟩
      | reduce => exact Or.inr ⟨nofun, rfl⟩
      | idle => exact Or.inr ⟨nofun, rfl⟩
    · exact Or.inl rfl
  · exact Or.inl rfl

end Master

namespace World

/-- **What a step can be.** -/
inductive Move (s : World) : Action → World → Prop where
  | register : Move s .register { s with master := s.master.register }
  /-- An idle reply. -/
  | wait (w : Nat) (hfree : s.workers w = none) : Move s (.ask w) s
  /-- No file and no task held in the map phase: the reply is left as it is. -/
  | zero (w : Nat) (hfree : s.workers w = none) (hphase : s.master.phase = .map)
      (hfiles : s.master.files = []) (hheld : ∀ v, s.master.worker2task.lookup v = none) :
      Move s (.ask w) { s with workers := Function.update s.workers w (some .zero) }
  | map (w : Nat) (rest : List File) (file : File) (hfree : s.workers w = none)
      (hphase : s.master.phase = .map) (hfiles : s.master.files = rest ++ [file]) :
      Move s (.ask w)
        { s with
          master := { s.master with
            files := rest
            worker2task := s.master.worker2task.insert w ⟨s.master.mTask, [file]⟩
            mTask := s.master.mTask + 1 }
          timers := s.timers ++ [⟨.map, w, s.master.mTask⟩]
          workers := Function.update s.workers w
            (some ⟨.map, s.master.mTask, [file], s.master.nReduce⟩)
          assigned := s.assigned ++ [(w, ⟨.map, s.master.mTask, [file], s.master.nReduce⟩)] }
  | reduce (w : Nat) (rest : List Nat) (r : Nat) (files : List File) (hfree : s.workers w = none)
      (hphase : s.master.phase = .reduce) (hr : s.master.rTask = rest ++ [r])
      (hfiles : files = s.master.validTask.map fun t => Master.reduceFile t r) :
      Move s (.ask w)
        { s with
          master := { s.master with
            worker2task := s.master.worker2task.insert w ⟨r, files⟩
            rTask := rest }
          timers := s.timers ++ [⟨.reduce, w, r⟩]
          workers := Function.update s.workers w (some ⟨.reduce, r, files, 0⟩)
          assigned := s.assigned ++ [(w, ⟨.reduce, r, files, 0⟩)] }
  | report (w : Nat) (reply : TaskReply) (hbusy : s.workers w = some reply) :
      Move s (.report w)
        { s with
          master := s.master.scheduleDone w
          workers := Function.update s.workers w none
          reported := s.reported ++ [(w, reply)] }
  | timeout (k : Nat) (timer : Timer) (hk : s.timers[k]? = some timer) :
      Move s (.timeout k)
        { s with master := s.master.timeout timer, timers := s.timers.eraseIdx k }

theorem ask_inv {s s' : World} {w : Nat} (h : s.ask w = some s') :
    s.workers w = none ∧ s' =
      { s with
        master := (s.master.scheduleTask w).1
        timers := s.timers ++ (s.master.scheduleTask w).2.2.toList
        workers := if (s.master.scheduleTask w).2.1.task = .idle then s.workers
          else Function.update s.workers w (some (s.master.scheduleTask w).2.1)
        assigned := s.assigned ++ (s.master.scheduleTask w).2.2.toList.map
          fun _ => (w, (s.master.scheduleTask w).2.1) } := by
  unfold ask at h
  split at h
  · rename_i hw
    exact ⟨Option.isNone_iff_eq_none.mp hw.2, (Option.some.inj h).symm⟩
  · cases h

theorem ask_idle {s s' : World} {w : Nat} {r : TaskReply} (hr : r.task = .idle)
    (e : s.master.scheduleTask w = (s.master, r, none)) (h : s.ask w = some s') : s' = s := by
  obtain ⟨_, rfl⟩ := ask_inv h
  rw [e]
  simp only [hr, if_true, Option.toList_none, List.map_nil, List.append_nil]

theorem move_of_ask {s s' : World} {w : Nat} (h : s.ask w = some s') : Move s (.ask w) s' := by
  obtain ⟨hfree, hs'⟩ := ask_inv h
  have idle : s.master.scheduleTask w = (s.master, ⟨.idle, 0, [], 0⟩, none) →
      Move s (.ask w) s' := fun e => by
    rw [ask_idle rfl e h]
    exact .wait w hfree
  cases hp : s.master.phase with
  | map =>
      rcases List.eq_nil_or_concat s.master.files with hf | ⟨rest, file, hf⟩
      · by_cases hh : 0 < s.master.held
        · refine idle ?_
          simp [Master.scheduleTask, hp, hf, hh, TaskReply.zero]
        · have hz : s.master.held = 0 := by omega
          have e : s.master.scheduleTask w = (s.master, .zero, none) := by
            simp [Master.scheduleTask, hp, hf, hz]
          rw [e] at hs'
          simp only [Option.toList_none, List.map_nil, List.append_nil] at hs'
          rw [hs']
          exact .zero w hfree hp hf (Master.held_eq_zero.mp hz)
      · rw [List.concat_eq_append] at hf
        have e := Move.map w rest file hfree hp hf
        rw [hs']
        simpa [Master.scheduleTask, hp, hf] using e
  | reduce =>
      rcases List.eq_nil_or_concat s.master.rTask with hr | ⟨rest, r, hr⟩
      · refine idle ?_
        simp [Master.scheduleTask, hp, hr, TaskReply.zero]
      · rw [List.concat_eq_append] at hr
        have e := Move.reduce w rest r _ hfree hp hr rfl
        rw [hs']
        simpa [Master.scheduleTask, hp, hr] using e
  | finish =>
      refine idle ?_
      simp [Master.scheduleTask, hp, TaskReply.zero]

theorem move_of_step {s s' : World} {a : Action} (h : s.step a = some s') : Move s a s' := by
  cases a with
  | register =>
      cases Option.some.inj h
      exact .register
  | ask w => exact move_of_ask h
  | report w =>
      simp only [step, report] at h
      split at h
      · cases h
      · rename_i reply hb
        cases Option.some.inj h
        exact .report w reply hb
  | timeout k =>
      simp only [step, timeout] at h
      split at h
      · cases h
      · rename_i timer hk
        cases Option.some.inj h
        exact .timeout k timer hk

end World

end Mit6824.Mr
