/-
  File:      Mit6824/Mr/Job.lean
  Subject:   A WHOLE JOB (mr/worker.go lines 61-165 over mr/master.go): workers that share a
             directory, one step for each call to the system, and crash between any two of them.

  A map task creates its temporary files, appends its records to them one by one, and gives each
  its final name; a reduce task reads its input files, writes the lines of its keys to a temporary
  file in any order, and gives it its final name. A file is removed before it is created or
  replaced, and a process goes on writing to a file it has open whatever its name is by then.

  Input files are there and readable and are none of the files the workers write; JSON gives back
  the records it was given, and a file is decoded in one step; a call to the master succeeds. The
  directory may hold anything at the start.

  * `work` -- one call to the system; `Job.step` -- the master, its timers, the workers, crashes;
  * `prompt` -- a timer takes a task back only from a worker that has crashed, and none of the map
    phase a reduce task;
  * `StageOk` -- what a worker has done when it stands at some call;
  * `work_ok` -- **one call**: the task goes on, and no file of another task is touched.
-/
import Mit6824.Lib.Directory
import Mit6824.Mr.Orderly
import Mit6824.Mr.Output

namespace Mit6824.Mr

open Lib

/-! ## 1. Files -/

/-- What one `Encode` or one `Fprintf` appends to a file. -/
inductive Item where
  | record (kv : KeyValue)
  | line (text : String)
  deriving DecidableEq, Repr

abbrev Fs := Directory String Item

/-- Lines 133-140: records, up to what is none. -/
def decode : List Item → List KeyValue
  | .record kv :: items => kv :: decode items
  | _ => []

def tmpName (taskNum i : Nat) : String := "tmp-" ++ toString taskNum ++ "-" ++ toString i

def tmpOutName (taskNum : Nat) : String := "tmp-out-" ++ toString taskNum

def outName (taskNum : Nat) : String := "mr-out-" ++ toString taskNum

section Names

variable {t i t' i' r r' : Nat}

theorem mrName_toList (t i : Nat) : (mrName t i).toList =
    'm' :: 'r' :: '-' :: ((toString t).toList ++ '-' :: (toString i).toList) := by
  simp [mrName, String.toList_append]

theorem tmpName_toList (t i : Nat) : (tmpName t i).toList =
    't' :: 'm' :: 'p' :: '-' :: ((toString t).toList ++ '-' :: (toString i).toList) := by
  simp [tmpName, String.toList_append]

theorem outName_toList (r : Nat) : (outName r).toList =
    'm' :: 'r' :: '-' :: 'o' :: 'u' :: 't' :: '-' :: (toString r).toList := by
  simp [outName, String.toList_append]

theorem tmpOutName_toList (r : Nat) : (tmpOutName r).toList =
    't' :: 'm' :: 'p' :: '-' :: 'o' :: 'u' :: 't' :: '-' :: (toString r).toList := by
  simp [tmpOutName, String.toList_append]

/-- A number does not begin with a letter. -/
theorem digits_ne_out (t : Nat) (l l' : List Char) : (toString t).toList ++ '-' :: l ≠ 'o' :: l' := by
  intro h
  cases hd : (toString t).toList with
  | nil =>
      rw [hd] at h
      cases h
  | cons c cs =>
      rw [hd, List.cons_append, List.cons.injEq] at h
      have hc : 'o' ∈ (toString t).toList := by
        rw [hd, h.1]
        exact List.mem_cons_self
      rw [Nat.toString_eq_repr, Nat.toList_repr] at hc
      exact absurd (Nat.isDigit_of_mem_toDigits (by decide) (by decide) hc) (by decide)

theorem tmpName_inj (h : tmpName t i = tmpName t' i') : t = t' ∧ i = i' := by
  have hl := congrArg String.toList h
  rw [tmpName_toList, tmpName_toList] at hl
  refine mrName_inj (String.toList_injective ?_)
  rw [mrName_toList, mrName_toList]
  injection hl with _ hl
  injection hl with _ hl
  injection hl with _ hl
  injection hl with _ hl
  rw [hl]

theorem outName_inj (h : outName r = outName r') : r = r' := by
  have hl := congrArg String.toList h
  simp only [outName_toList, List.cons.injEq, true_and] at hl
  exact digits_inj hl

theorem tmpOutName_inj (h : tmpOutName r = tmpOutName r') : r = r' := by
  have hl := congrArg String.toList h
  simp only [tmpOutName_toList, List.cons.injEq, true_and] at hl
  exact digits_inj hl

theorem tmpName_ne_mrName : tmpName t i ≠ mrName t' i' := by
  intro h
  have hl := congrArg String.toList h
  rw [tmpName_toList, mrName_toList] at hl
  cases hl

theorem tmpOutName_ne_outName : tmpOutName r ≠ outName r' := by
  intro h
  have hl := congrArg String.toList h
  rw [tmpOutName_toList, outName_toList] at hl
  cases hl

theorem tmpOutName_ne_mrName : tmpOutName r ≠ mrName t i := by
  intro h
  have hl := congrArg String.toList h
  rw [tmpOutName_toList, mrName_toList] at hl
  cases hl

theorem outName_ne_mrName : outName r ≠ mrName t i := by
  intro h
  have hl := congrArg String.toList h
  simp only [outName_toList, mrName_toList, List.cons.injEq, true_and] at hl
  exact digits_ne_out _ _ _ hl.symm

end Names

/-! ## 2. The worker -/

/-- Where a worker stands in its task. `removed`: the next name is free, and the file comes next. -/
inductive Stage where
  /-- Lines 82-87. -/
  | creating (intermediate : List Nat) (removed : Bool)
  /-- Lines 88-109, with the files and the records that are left. -/
  | mapping (intermediate : List Nat) (file : List File) (kva : List KeyValue)
  /-- Lines 110-116. -/
  | naming (intermediate : List Nat) (i : Nat) (removed : Bool)
  /-- Lines 127-142, with the files that are left. -/
  | reading (file : List File) (kva : AList fun _ : String => List String)
  /-- Lines 143-145. -/
  | opening (kva : AList fun _ : String => List String) (removed : Bool)
  /-- Lines 146-148, with the keys that are left. -/
  | writing (file : Nat) (kva : List (String × List String))
  /-- Lines 149-152. -/
  | replacing (removed : Bool)
  | reporting

/-- A worker process: between two tasks, at a task, or no more. -/
inductive Proc where
  | free
  | busy (reply : TaskReply) (stage : Stage)
  | dead

/-- The switch of line 78. -/
def Stage.begin (reply : TaskReply) : Stage :=
  match reply.task with
  | .map => .creating [] false
  | .reduce => .reading reply.file ∅
  | .idle => .reporting

section Worker

variable (mapf : String → String → List KeyValue) (content : String → String)
  (reducef : String → List String → String)

/-- One call to the system. `k` says which of its keys `range` has next. -/
def work (fs : Fs) (reply : TaskReply) (k : Nat) : Stage → Option (Fs × Stage)
  | .creating intermediate removed =>
      if intermediate.length < reply.nReduce then
        let name := tmpName reply.taskNum intermediate.length
        if removed then
          some ((fs.create name).1, .creating (intermediate ++ [(fs.create name).2]) false)
        else some (fs.remove name, .creating intermediate true)
      else some (fs, .mapping intermediate reply.file [])
  | .mapping intermediate file (kv :: kva) =>
      (intermediate[ihash kv.key % reply.nReduce]?).map fun i =>
        (fs.write i (.record kv), .mapping intermediate file kva)
  | .mapping intermediate (f :: file) [] =>
      some (fs, .mapping intermediate file (mapf f.name (content f.name)))
  | .mapping intermediate [] [] => some (fs, .naming intermediate 0 false)
  | .naming intermediate i removed =>
      if i < intermediate.length then
        if removed then
          some (fs.rename (tmpName reply.taskNum i) (mrName reply.taskNum i),
            .naming intermediate (i + 1) false)
        else some (fs.remove (mrName reply.taskNum i), .naming intermediate i true)
      else some (fs, .reporting)
  | .reading (f :: file) kva =>
      some (fs, .reading file
        ((decode ((fs.read f.name).getD [])).foldl (collect KeyValue.key KeyValue.value) kva))
  | .reading [] kva => some (fs, .opening kva false)
  | .opening kva removed =>
      let name := tmpOutName reply.taskNum
      if removed then some ((fs.create name).1, .writing (fs.create name).2 (entriesOf kva))
      else some (fs.remove name, .opening kva true)
  | .writing _ [] => some (fs, .replacing false)
  | .writing file (x :: kva) =>
      ((x :: kva)[k]?).map fun y =>
        (fs.write file (.line (line y.1 (reducef y.1 y.2))), .writing file ((x :: kva).eraseIdx k))
  | .replacing removed =>
      if removed then
        some (fs.rename (tmpOutName reply.taskNum) (outName reply.taskNum), .reporting)
      else some (fs.remove (outName reply.taskNum), .replacing true)
  | .reporting => none

/-! ## 3. The job -/

structure Job where
  world : World
  fs : Fs
  procs : Nat → Proc

inductive JobAction where
  | register
  | ask (w : Nat)
  | work (w k : Nat)
  | report (w : Nat)
  | timeout (k : Nat)
  | crash (w : Nat)
  deriving DecidableEq, Repr

namespace Job

def init (files : List String) (nReduce : Nat) (fs : Fs) : Job :=
  ⟨.init files nReduce, fs, fun _ => .free⟩

def setProc (s : Job) (w : Nat) (p : Proc) : Job :=
  { s with procs := Function.update s.procs w p }

/-- A worker begins with what it was given, if anything. -/
def given (procs : Nat → Proc) (w : Nat) : Option TaskReply → Nat → Proc
  | some reply => Function.update procs w (.busy reply (.begin reply))
  | none => procs

def ask (s : Job) (w : Nat) : Option Job :=
  match s.procs w with
  | .free =>
      (s.world.ask w).map fun world =>
        { s with world := world, procs := given s.procs w (world.workers w) }
  | _ => none

def report (s : Job) (w : Nat) : Option Job :=
  match s.procs w with
  | .busy _ .reporting => (s.world.report w).map fun world => { s.setProc w .free with world := world }
  | _ => none

/-- **One step of a job.** -/
def step (s : Job) : JobAction → Option Job
  | .register => (s.world.step .register).map fun world => { s with world := world }
  | .ask w => s.ask w
  | .work w k =>
      match s.procs w with
      | .busy reply stage =>
          (Mr.work mapf content reducef s.fs reply k stage).map fun r =>
            { s.setProc w (.busy reply r.2) with fs := r.1 }
      | _ => none
  | .report w => s.report w
  | .timeout k => (s.world.timeout k).map fun world => { s with world := world }
  | .crash w => if w < s.world.master.workerNum then some (s.setProc w .dead) else none

end Job

end Worker

namespace Job

/-- **The condition**: a timer takes a task back only from a worker that has crashed, and a timer of
    the map phase no reduce task. -/
def prompt (s : Job) : JobAction → Bool
  | .timeout k =>
      match s.world.timers[k]? with
      | none => true
      | some timer =>
          match s.world.master.worker2task.lookup timer.workerId with
          | none => true
          | some T =>
              decide (T.taskNum ≠ timer.taskNum) ||
                ((match s.procs timer.workerId with | .dead => true | _ => false) &&
                  World.timersApart s.world (.timeout k))
  | _ => true

end Job

/-! ## 4. What a task has done so far -/

theorem decode_records (kvs : List KeyValue) : decode (kvs.map .record) = kvs := by
  induction kvs with
  | nil => rfl
  | cons kv kvs ih => rw [List.map_cons, decode, ih]

/-- The records that belong to the reduce task `j`. -/
def bucket (nReduce j : Nat) (kvs : List KeyValue) : List KeyValue :=
  kvs.filter fun kv => ihash kv.key % nReduce = j

/-- The file holds these records. -/
def Wrote (fs : Fs) (name : String) (kvs : List KeyValue) : Prop :=
  fs.read name = some (kvs.map .record)

/-- The records that a reduce task reads. -/
def inputs (fs : Fs) (file : List File) : List KeyValue :=
  file.flatMap fun f => decode ((fs.read f.name).getD [])

section Stages

variable (mapf : String → String → List KeyValue) (content : String → String)
  (reducef : String → List String → String)

/-- The records of a map task. -/
def records (file : List File) : List KeyValue :=
  file.flatMap fun f => mapf f.name (content f.name)

/-- The file holds the lines of these keys. -/
def Printed (fs : Fs) (name : String) (g : List (String × List String)) : Prop :=
  fs.read name = some (g.map fun x => .line (line x.1 (reducef x.1 x.2)))

/-- The file holds one line for each key of the input. -/
def Reduced (fs : Fs) (name : String) (file : List File) : Prop :=
  ∃ done g, Groups KeyValue.key KeyValue.value (inputs fs file) g ∧ done.Perm g ∧
    Printed reducef fs name done

/-- **What a worker has done when it stands here.** -/
def StageOk (fs : Fs) (reply : TaskReply) : Stage → Prop
  | .creating intermediate _ => reply.task = .map ∧ intermediate.length ≤ reply.nReduce ∧
      ∀ j i, intermediate[j]? = some i → fs.entry (tmpName reply.taskNum j) = some i ∧
        Wrote fs (tmpName reply.taskNum j) []
  | .mapping intermediate file kva => reply.task = .map ∧ intermediate.length = reply.nReduce ∧
      ∀ j i, intermediate[j]? = some i → fs.entry (tmpName reply.taskNum j) = some i ∧
        ∃ kvs, Wrote fs (tmpName reply.taskNum j) kvs ∧
          kvs ++ bucket reply.nReduce j (kva ++ records mapf content file) =
            bucket reply.nReduce j (records mapf content reply.file)
  | .naming intermediate i _ => reply.task = .map ∧ intermediate.length = reply.nReduce ∧
      ∀ j < reply.nReduce,
        Wrote fs (if j < i then mrName reply.taskNum j else tmpName reply.taskNum j)
          (bucket reply.nReduce j (records mapf content reply.file))
  | .reading file kva => reply.task = .reduce ∧ ∃ done, reply.file = done ++ file ∧
      Collected KeyValue.key KeyValue.value (inputs fs done) kva
  | .opening kva _ => reply.task = .reduce ∧
      Collected KeyValue.key KeyValue.value (inputs fs reply.file) kva
  | .writing file kva => reply.task = .reduce ∧ fs.entry (tmpOutName reply.taskNum) = some file ∧
      ∃ done g, Groups KeyValue.key KeyValue.value (inputs fs reply.file) g ∧
        (done ++ kva).Perm g ∧ Printed reducef fs (tmpOutName reply.taskNum) done
  | .replacing _ => reply.task = .reduce ∧
      Reduced reducef fs (tmpOutName reply.taskNum) reply.file
  | .reporting => (reply.task = .map ∧ ∀ j < reply.nReduce, Wrote fs (mrName reply.taskNum j)
        (bucket reply.nReduce j (records mapf content reply.file))) ∨
      (reply.task = .reduce ∧ Reduced reducef fs (outName reply.taskNum) reply.file)

/-- The files a task writes. -/
def Own (reply : TaskReply) (name : String) : Prop :=
  match reply.task with
  | .map => ∃ j, name = tmpName reply.taskNum j ∨ name = mrName reply.taskNum j
  | .reduce => name = tmpOutName reply.taskNum ∨ name = outName reply.taskNum
  | .idle => False

/-- The files a task writes or reads. -/
def Needs (reply : TaskReply) (name : String) : Prop :=
  Own reply name ∨ (reply.task = .reduce ∧ ∃ f ∈ reply.file, f.name = name)

variable {mapf content reducef} {fs fs' : Fs} {reply : TaskReply}

theorem own_tmpName (h : reply.task = .map) (j : Nat) : Own reply (tmpName reply.taskNum j) := by
  rw [Own, h]
  exact ⟨j, Or.inl rfl⟩

theorem own_mrName (h : reply.task = .map) (j : Nat) : Own reply (mrName reply.taskNum j) := by
  rw [Own, h]
  exact ⟨j, Or.inr rfl⟩

theorem own_tmpOutName (h : reply.task = .reduce) : Own reply (tmpOutName reply.taskNum) := by
  rw [Own, h]
  exact Or.inl rfl

theorem own_outName (h : reply.task = .reduce) : Own reply (outName reply.taskNum) := by
  rw [Own, h]
  exact Or.inr rfl

theorem inputs_congr {file : List File} (h : ∀ f ∈ file, fs'.read f.name = fs.read f.name) :
    inputs fs' file = inputs fs file :=
  List.flatMap_congr fun f hf => by rw [h f hf]

theorem inputs_append (file file' : List File) :
    inputs fs (file ++ file') = inputs fs file ++ inputs fs file' := List.flatMap_append

/-- Files that nobody has touched. -/
theorem Reduced.congr {name : String} {file : List File} (h : Reduced reducef fs name file)
    (hname : fs'.read name = fs.read name)
    (hfile : ∀ f ∈ file, fs'.read f.name = fs.read f.name) : Reduced reducef fs' name file := by
  obtain ⟨done, g, hg, hperm, hp⟩ := h
  exact ⟨done, g, by rw [inputs_congr hfile]; exact hg, hperm, hname.trans hp⟩

/-- **A task stands where it stood when nobody has touched its files.** -/
theorem StageOk.frame {stage : Stage} (h : StageOk mapf content reducef fs reply stage)
    (hs : Directory.SameOn (Needs reply) fs fs') : StageOk mapf content reducef fs' reply stage := by
  have own : ∀ {name}, Own reply name → fs'.entry name = fs.entry name ∧
      fs'.read name = fs.read name := fun h => hs _ (Or.inl h)
  have read : ∀ f ∈ reply.file, reply.task = .reduce → fs'.read f.name = fs.read f.name :=
    fun f hf hr => (hs _ (Or.inr ⟨hr, f, hf, rfl⟩)).2
  cases stage with
  | creating intermediate removed =>
      obtain ⟨ht, hlen, hw⟩ := h
      refine ⟨ht, hlen, fun j i hj => ?_⟩
      obtain ⟨he, hr⟩ := own (own_tmpName ht j)
      exact ⟨he.trans (hw j i hj).1, hr.trans (hw j i hj).2⟩
  | mapping intermediate file kva =>
      obtain ⟨ht, hlen, hw⟩ := h
      refine ⟨ht, hlen, fun j i hj => ?_⟩
      obtain ⟨he, hr⟩ := own (own_tmpName ht j)
      obtain ⟨he', kvs, hk, e⟩ := hw j i hj
      exact ⟨he.trans he', kvs, hr.trans hk, e⟩
  | naming intermediate i removed =>
      obtain ⟨ht, hlen, hw⟩ := h
      refine ⟨ht, hlen, fun j hj => ?_⟩
      have hj' := hw j hj
      split at hj' <;> rename_i hlt
      · rw [if_pos hlt]
        exact (own (own_mrName ht j)).2.trans hj'
      · rw [if_neg hlt]
        exact (own (own_tmpName ht j)).2.trans hj'
  | reading file kva =>
      obtain ⟨ht, done, e, hc⟩ := h
      refine ⟨ht, done, e, ?_⟩
      rw [inputs_congr fun f hf => read f (by rw [e]; exact List.mem_append_left _ hf) ht]
      exact hc
  | opening kva removed =>
      obtain ⟨ht, hc⟩ := h
      exact ⟨ht, by rw [inputs_congr fun f hf => read f hf ht]; exact hc⟩
  | writing file kva =>
      obtain ⟨ht, he, done, g, hg, hperm, hp⟩ := h
      obtain ⟨he', hr⟩ := own (own_tmpOutName ht)
      exact ⟨ht, he'.trans he, done, g, by rw [inputs_congr fun f hf => read f hf ht]; exact hg, hperm,
        hr.trans hp⟩
  | replacing removed =>
      obtain ⟨ht, hr⟩ := h
      exact ⟨ht, hr.congr (own (own_tmpOutName ht)).2 fun f hf => read f hf ht⟩
  | reporting =>
      rcases h with ⟨ht, hw⟩ | ⟨ht, hr⟩
      · exact Or.inl ⟨ht, fun j hj => (own (own_mrName ht j)).2.trans (hw j hj)⟩
      · exact Or.inr ⟨ht, hr.congr (own (own_outName ht)).2 fun f hf => read f hf ht⟩

/-! ## 5. One call to the system -/

/-- All that one call may do: the task goes on, and other files stay as they are. -/
structure Calls (mapf : String → String → List KeyValue) (content : String → String)
    (reducef : String → List String → String) (reply : TaskReply) (fs fs' : Fs) (stage' : Stage) :
    Prop where
  sound : fs'.Sound
  same : Directory.SameOn (fun name => ¬ Own reply name) fs fs'
  stage : StageOk mapf content reducef fs' reply stage'

/-- A call about one file of the task. -/
theorem sameOn_others {name : String} (h : Directory.SameOn (· ≠ name) fs fs')
    (hown : Own reply name) : Directory.SameOn (fun name => ¬ Own reply name) fs fs' :=
  h.mono fun _ ha e => ha (e ▸ hown)

theorem creating_ok {intermediate : List Nat} {removed : Bool} (hs : fs.Sound)
    (h : StageOk mapf content reducef fs reply (.creating intermediate removed))
    (hlt : intermediate.length < reply.nReduce) :
    Calls mapf content reducef reply fs (fs.remove (tmpName reply.taskNum intermediate.length))
        (.creating intermediate true) ∧
      Calls mapf content reducef reply fs (fs.create (tmpName reply.taskNum intermediate.length)).1
        (.creating (intermediate ++ [(fs.create (tmpName reply.taskNum intermediate.length)).2])
          false) := by
  obtain ⟨ht, hlen, hw⟩ := h
  have hown := own_tmpName ht intermediate.length
  have hrem : Directory.SameOn (· ≠ tmpName reply.taskNum intermediate.length) fs (fs.remove _) :=
    Directory.sameOn_remove fun h => h rfl
  have hcre : Directory.SameOn (· ≠ tmpName reply.taskNum intermediate.length) fs (fs.create _).1 :=
    Directory.sameOn_create hs fun h => h rfl
  have hne : ∀ j i, intermediate[j]? = some i →
      tmpName reply.taskNum j ≠ tmpName reply.taskNum intermediate.length := by
    intro j i hj e
    have := (List.getElem?_eq_some_iff.mp hj).1
    have := (tmpName_inj e).2
    omega
  refine ⟨⟨hs.remove _, sameOn_others hrem hown, ht, hlen, fun j i hj => ?_⟩,
    ⟨hs.create _, sameOn_others hcre hown, ht, ?_, fun j i hj => ?_⟩⟩
  · obtain ⟨he, hr⟩ := hrem _ (hne j i hj)
    exact ⟨he.trans (hw j i hj).1, hr.trans (hw j i hj).2⟩
  · rw [List.length_append]
    exact hlt
  · rcases Nat.lt_or_ge j intermediate.length with hold | hnew
    · rw [List.getElem?_append_left hold] at hj
      obtain ⟨he, hr⟩ := hcre _ (hne j i hj)
      exact ⟨he.trans (hw j i hj).1, hr.trans (hw j i hj).2⟩
    · rw [List.getElem?_append_right hnew, List.getElem?_singleton] at hj
      split at hj
      · obtain rfl : j = intermediate.length := by omega
        cases hj
        exact fs.entry_create _
      · cases hj

theorem bucket_cons (nReduce j : Nat) (kv : KeyValue) (kvs : List KeyValue) :
    bucket nReduce j (kv :: kvs) =
      if ihash kv.key % nReduce = j then kv :: bucket nReduce j kvs else bucket nReduce j kvs := by
  unfold bucket
  rw [List.filter_cons]
  simp only [decide_eq_true_eq]

/-- A record is appended to the file of its reduce task. -/
theorem mapping_ok {intermediate : List Nat} {file : List File} {kv : KeyValue}
    {kva : List KeyValue} {i : Nat} (hs : fs.Sound)
    (h : StageOk mapf content reducef fs reply (.mapping intermediate file (kv :: kva)))
    (hi : intermediate[ihash kv.key % reply.nReduce]? = some i) :
    Calls mapf content reducef reply fs (fs.write i (.record kv))
      (.mapping intermediate file kva) := by
  obtain ⟨ht, hlen, hw⟩ := h
  obtain ⟨he, kvs, hk, heq⟩ := hw _ i hi
  have hsame : Directory.SameOn (· ≠ tmpName reply.taskNum (ihash kv.key % reply.nReduce)) fs
      (fs.write i (.record kv)) := Directory.sameOn_write hs he (fun h => h rfl) _
  refine ⟨hs.write _ _, sameOn_others hsame (own_tmpName ht _), ht, hlen, fun j i' hj => ?_⟩
  by_cases hji : ihash kv.key % reply.nReduce = j
  · subst hji
    rw [hi, Option.some.injEq] at hj
    subst hj
    obtain ⟨he', hr⟩ := Directory.read_write he (.record kv)
    refine ⟨he', kvs ++ [kv], ?_, ?_⟩
    · rw [Wrote, hr, show fs.read _ = _ from hk, Option.map_some, List.map_append]
      rfl
    · rw [List.cons_append, bucket_cons, if_pos rfl] at heq
      rw [List.append_assoc]
      exact heq
  · have hne : tmpName reply.taskNum j ≠ tmpName reply.taskNum (ihash kv.key % reply.nReduce) :=
      fun e => hji (tmpName_inj e).2.symm
    obtain ⟨he', kvs', hk', heq'⟩ := hw j i' hj
    obtain ⟨he'', hr⟩ := hsame _ hne
    rw [List.cons_append, bucket_cons, if_neg hji] at heq'
    exact ⟨he''.trans he', kvs', hr.trans hk', heq'⟩

/-- A temporary file gets its final name. -/
theorem naming_ok {intermediate : List Nat} {i : Nat} {removed : Bool} (hs : fs.Sound)
    (h : StageOk mapf content reducef fs reply (.naming intermediate i removed))
    (hlt : i < intermediate.length) :
    Calls mapf content reducef reply fs (fs.remove (mrName reply.taskNum i))
        (.naming intermediate i true) ∧
      Calls mapf content reducef reply fs
        (fs.rename (tmpName reply.taskNum i) (mrName reply.taskNum i))
        (.naming intermediate (i + 1) false) := by
  obtain ⟨ht, hlen, hw⟩ := h
  have hrem : Directory.SameOn (· ≠ mrName reply.taskNum i) fs (fs.remove (mrName reply.taskNum i)) :=
    Directory.sameOn_remove fun h => h rfl
  have hren : ∀ P : String → Prop, ¬ P (tmpName reply.taskNum i) → ¬ P (mrName reply.taskNum i) →
      Directory.SameOn P fs (fs.rename (tmpName reply.taskNum i) (mrName reply.taskNum i)) :=
    fun P h1 h2 => Directory.sameOn_rename h1 h2
  refine ⟨⟨hs.remove _, sameOn_others hrem (own_mrName ht i), ht, hlen, fun j hj => ?_⟩,
    ⟨hs.rename _ _, hren _ (fun h => h (own_tmpName ht i)) fun h => h (own_mrName ht i), ht, hlen,
      fun j hj => ?_⟩⟩
  · have hj' := hw j hj
    split at hj' <;> rename_i hji
    · rw [if_pos hji]
      exact (hrem _ fun e => by have := (mrName_inj e).2; omega).2.trans hj'
    · rw [if_neg hji]
      exact (hrem _ tmpName_ne_mrName).2.trans hj'
  · have hj' := hw j hj
    rcases Nat.lt_trichotomy j i with hji | rfl | hji
    · rw [if_pos hji] at hj'
      rw [if_pos (by omega)]
      refine (hren (· = mrName reply.taskNum j) tmpName_ne_mrName (fun e => ?_) _ rfl).2.trans hj'
      have := (mrName_inj e).2
      omega
    · rw [if_neg (by omega)] at hj'
      rw [if_pos (by omega)]
      exact Directory.read_rename hj' _
    · rw [if_neg (by omega)] at hj'
      rw [if_neg (by omega)]
      refine (hren (· = tmpName reply.taskNum j) (fun e => ?_) tmpName_ne_mrName.symm _ rfl).2.trans hj'
      have := (tmpName_inj e).2
      omega

/-- Input files are not among the files a task writes. -/
def ReadsOthers (reply : TaskReply) : Prop :=
  reply.task = .reduce → ∀ f ∈ reply.file, ¬ Own reply f.name

theorem ReadsOthers.inputs_eq (h : ReadsOthers reply) (ht : reply.task = .reduce)
    (hs : Directory.SameOn (fun name => ¬ Own reply name) fs fs') :
    inputs fs' reply.file = inputs fs reply.file :=
  inputs_congr fun f hf => (hs _ (h ht f hf)).2

theorem opening_ok {kva : AList fun _ : String => List String} {removed : Bool} (hs : fs.Sound)
    (hin : ReadsOthers reply)
    (h : StageOk mapf content reducef fs reply (.opening kva removed)) :
    Calls mapf content reducef reply fs (fs.remove (tmpOutName reply.taskNum)) (.opening kva true) ∧
      Calls mapf content reducef reply fs (fs.create (tmpOutName reply.taskNum)).1
        (.writing (fs.create (tmpOutName reply.taskNum)).2 (entriesOf kva)) := by
  obtain ⟨ht, hc⟩ := h
  have hown := own_tmpOutName ht
  have hrem : Directory.SameOn (fun name => ¬ Own reply name) fs
      (fs.remove (tmpOutName reply.taskNum)) := Directory.sameOn_remove fun h => h hown
  have hcre : Directory.SameOn (fun name => ¬ Own reply name) fs
      (fs.create (tmpOutName reply.taskNum)).1 := Directory.sameOn_create hs fun h => h hown
  refine ⟨⟨hs.remove _, hrem, ht, ?_⟩, ⟨hs.create _, hcre, ht, ?_, [], entriesOf kva, ?_, ?_, ?_⟩⟩
  · rw [hin.inputs_eq ht hrem]
    exact hc
  · exact (fs.entry_create _).1
  · rw [hin.inputs_eq ht hcre]
    exact groups_collect hc
  · exact List.Perm.refl _
  · exact (fs.entry_create _).2

/-- The line of some key that is left. -/
theorem writing_ok {file k : Nat} {kva : List (String × List String)} {y : String × List String}
    (hs : fs.Sound) (hin : ReadsOthers reply)
    (h : StageOk mapf content reducef fs reply (.writing file kva)) (hy : kva[k]? = some y) :
    Calls mapf content reducef reply fs (fs.write file (.line (line y.1 (reducef y.1 y.2))))
      (.writing file (kva.eraseIdx k)) := by
  obtain ⟨ht, he, done, g, hg, hperm, hp⟩ := h
  have hsame : Directory.SameOn (fun name => ¬ Own reply name) fs
      (fs.write file (.line (line y.1 (reducef y.1 y.2)))) :=
    Directory.sameOn_write hs he (fun h => h (own_tmpOutName ht)) _
  obtain ⟨he', hr⟩ := Directory.read_write he (.line (line y.1 (reducef y.1 y.2)))
  refine ⟨hs.write _ _, hsame, ht, he', done ++ [y], g, ?_, ?_, ?_⟩
  · rw [hin.inputs_eq ht hsame]
    exact hg
  · obtain ⟨hlt, rfl⟩ := List.getElem?_eq_some_iff.mp hy
    rw [List.append_assoc, List.singleton_append]
    exact ((List.getElem_cons_eraseIdx_perm hlt).append_left done).trans hperm
  · rw [Printed, hr, show fs.read _ = _ from hp, Option.map_some, List.map_append]
    rfl

theorem replacing_ok {removed : Bool} (hs : fs.Sound) (hin : ReadsOthers reply)
    (h : StageOk mapf content reducef fs reply (.replacing removed)) :
    Calls mapf content reducef reply fs (fs.remove (outName reply.taskNum)) (.replacing true) ∧
      Calls mapf content reducef reply fs
        (fs.rename (tmpOutName reply.taskNum) (outName reply.taskNum)) .reporting := by
  obtain ⟨ht, done, g, hg, hperm, hp⟩ := h
  have hrem : Directory.SameOn (· ≠ outName reply.taskNum) fs (fs.remove (outName reply.taskNum)) :=
    Directory.sameOn_remove fun h => h rfl
  have hrem' := sameOn_others hrem (own_outName ht)
  have hren : Directory.SameOn (fun name => ¬ Own reply name) fs
      (fs.rename (tmpOutName reply.taskNum) (outName reply.taskNum)) :=
    Directory.sameOn_rename (fun h => h (own_tmpOutName ht)) fun h => h (own_outName ht)
  refine ⟨⟨hs.remove _, hrem', ht, done, g, ?_, hperm, ?_⟩,
    ⟨hs.rename _ _, hren, Or.inr ⟨ht, done, g, ?_, hperm, ?_⟩⟩⟩
  · rw [hin.inputs_eq ht hrem']
    exact hg
  · exact (hrem _ tmpOutName_ne_outName).2.trans hp
  · rw [hin.inputs_eq ht hren]
    exact hg
  · exact Directory.read_rename hp _

/-- A step that makes no call. -/
theorem calls_refl {stage' : Stage} (hs : fs.Sound)
    (h : StageOk mapf content reducef fs reply stage') :
    Calls mapf content reducef reply fs fs stage' :=
  ⟨hs, .refl _ _, h⟩

/-- **One step of a task.** -/
theorem work_ok {k : Nat} {stage stage' : Stage} (hs : fs.Sound) (hin : ReadsOthers reply)
    (h : StageOk mapf content reducef fs reply stage)
    (hw : work mapf content reducef fs reply k stage = some (fs', stage')) :
    Calls mapf content reducef reply fs fs' stage' := by
  cases stage with
  | creating intermediate removed =>
      simp only [work] at hw
      split at hw <;> rename_i hlt
      · split at hw <;> cases hw
        · exact (creating_ok hs h hlt).2
        · exact (creating_ok hs h hlt).1
      · cases hw
        obtain ⟨ht, hlen, hw⟩ := h
        refine calls_refl hs ⟨ht, by omega, fun j i hj => ?_⟩
        exact ⟨(hw j i hj).1, [], (hw j i hj).2, rfl⟩
  | mapping intermediate file kva =>
      cases kva with
      | cons kv kva =>
          simp only [work, Option.map_eq_some_iff, Prod.mk.injEq] at hw
          obtain ⟨i, hi, rfl, rfl⟩ := hw
          exact mapping_ok hs h hi
      | nil =>
          obtain ⟨ht, hlen, hk⟩ := h
          cases file with
          | cons f file =>
              cases hw
              exact calls_refl hs ⟨ht, hlen, hk⟩
          | nil =>
              cases hw
              refine calls_refl hs ⟨ht, hlen, fun j hj => ?_⟩
              obtain ⟨kvs, hkvs, e⟩ := (hk j _ (List.getElem?_eq_getElem (by omega))).2
              rw [if_neg (Nat.not_lt_zero j), ← e]
              simpa [records, bucket] using hkvs
  | naming intermediate i removed =>
      simp only [work] at hw
      split at hw <;> rename_i hlt
      · split at hw <;> cases hw
        · exact (naming_ok hs h hlt).2
        · exact (naming_ok hs h hlt).1
      · cases hw
        obtain ⟨ht, hlen, hk⟩ := h
        refine calls_refl hs (Or.inl ⟨ht, fun j hj => ?_⟩)
        have := hk j hj
        rwa [if_pos (by omega)] at this
  | reading file kva =>
      obtain ⟨ht, done, e, hc⟩ := h
      cases file with
      | cons f file =>
          cases hw
          refine calls_refl hs ⟨ht, done ++ [f], by rw [e]; simp, ?_⟩
          rw [inputs_append]
          have := collected_foldl hc (decode ((fs.read f.name).getD []))
          simpa [inputs] using this
      | nil =>
          cases hw
          rw [List.append_nil] at e
          exact calls_refl hs ⟨ht, by rw [e]; exact hc⟩
  | opening kva removed =>
      simp only [work] at hw
      split at hw <;> cases hw
      · exact (opening_ok hs hin h).2
      · exact (opening_ok hs hin h).1
  | writing file kva =>
      cases kva with
      | nil =>
          cases hw
          obtain ⟨ht, he, done, g, hg, hperm, hp⟩ := h
          exact calls_refl hs ⟨ht, done, g, hg, by rwa [List.append_nil] at hperm, hp⟩
      | cons x kva =>
          simp only [work, Option.map_eq_some_iff, Prod.mk.injEq] at hw
          obtain ⟨y, hy, rfl, rfl⟩ := hw
          exact writing_ok hs hin h hy
  | replacing removed =>
      simp only [work] at hw
      split at hw <;> cases hw
      · exact (replacing_ok hs hin h).2
      · exact (replacing_ok hs hin h).1
  | reporting => cases hw

end Stages

end Mit6824.Mr
