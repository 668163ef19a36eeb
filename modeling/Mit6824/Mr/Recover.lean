/-
  File:      Mit6824/Mr/Recover.lean
  Subject:   A JOB RECOVERS (mr/worker.go over mr/master.go): one new worker is enough.

  Every task comes to its end when its worker goes on (`task_ends`). So each step of the master with
  one worker alone (Mr/Finish.lean) is a run of the job in which that worker makes its calls, and
  timers only find workers that have crashed (`Follows`, `follows_step`).

  * `JobAlone` -- one worker works, timers fire, everyone else may crash;
  * `job_recovers` -- **from every state of a job, though every worker crashes, one new worker can
    finish it, and the output is that of the sequential program**.
-/
import Mit6824.Mr.JobOutput

namespace Mit6824.Mr

open Lib World

variable {mapf : String → String → List KeyValue} {content : String → String}
  {reducef : String → List String → String} {files : List String} {nReduce : Nat}

/-! ## 1. Every task ends -/

section Ends

variable (mapf content reducef)

/-- The calls that are left bring the task to its report. -/
def Ends (reply : TaskReply) (fs : Fs) (stage : Stage) : Prop :=
  ∃ fs', Reach (fun (x : Fs × Stage) k => work mapf content reducef x.1 reply k x.2) AnyStep
    (fs, stage) (fs', .reporting)

variable {mapf content reducef} {reply : TaskReply} {fs : Fs} {stage : Stage}

theorem Ends.step (k : Nat) (fs' : Fs) (stage' : Stage)
    (hw : work mapf content reducef fs reply k stage = some (fs', stage'))
    (h : Ends mapf content reducef reply fs' stage') : Ends mapf content reducef reply fs stage := by
  obtain ⟨fs'', hr⟩ := h
  exact ⟨fs'', (Reach.move _ _ k .start trivial hw).trans hr⟩

theorem ends_naming {intermediate : List Nat} {i : Nat} (removed : Bool) :
    Ends mapf content reducef reply fs (.naming intermediate i removed) := by
  -- one file fewer is left to be named
  induction hd : intermediate.length - i generalizing fs i removed with
  | zero =>
      refine Ends.step 0 fs .reporting ?_ ⟨_, .start⟩
      rw [work, if_neg (by omega)]
  | succ d ih =>
      have hlt : i < intermediate.length := by omega
      have hnext : ∀ fs, Ends mapf content reducef reply fs (.naming intermediate i true) :=
        fun fs => Ends.step 0 _ _ (by rw [work, if_pos hlt, if_pos rfl]) (ih false (by omega))
      cases removed with
      | true => exact hnext fs
      | false =>
          refine Ends.step 0 _ _ ?_ (hnext (fs.remove (mrName reply.taskNum i)))
          rw [work, if_pos hlt, if_neg Bool.false_ne_true]

/-- The records of one file are written. -/
theorem ends_records {intermediate : List Nat} {file : List File} (kva : List KeyValue)
    (hlen : intermediate.length = reply.nReduce) (hn : 0 < reply.nReduce)
    (h : ∀ fs, Ends mapf content reducef reply fs (.mapping intermediate file [])) :
    Ends mapf content reducef reply fs (.mapping intermediate file kva) := by
  induction kva generalizing fs with
  | nil => exact h fs
  | cons kv kva ih =>
      have hlt : ihash kv.key % reply.nReduce < intermediate.length := by
        rw [hlen]
        exact Nat.mod_lt _ hn
      refine Ends.step 0 (fs.write intermediate[ihash kv.key % reply.nReduce] (.record kv)) _ ?_ ih
      rw [work, List.getElem?_eq_getElem hlt]
      rfl

theorem ends_mapping {intermediate : List Nat} {file : List File} (kva : List KeyValue)
    (hlen : intermediate.length = reply.nReduce) (hn : 0 < reply.nReduce) :
    Ends mapf content reducef reply fs (.mapping intermediate file kva) := by
  induction file generalizing fs kva with
  | nil => exact ends_records kva hlen hn fun fs => Ends.step 0 fs _ rfl (ends_naming false)
  | cons f file ih => exact ends_records kva hlen hn fun fs => Ends.step 0 fs _ rfl (ih _)

theorem ends_creating {intermediate : List Nat} (removed : Bool)
    (hlen : intermediate.length ≤ reply.nReduce) (hn : 0 < reply.nReduce) :
    Ends mapf content reducef reply fs (.creating intermediate removed) := by
  -- one file fewer is left to be created
  induction hd : reply.nReduce - intermediate.length generalizing fs intermediate removed with
  | zero =>
      have hfull : intermediate.length = reply.nReduce := by omega
      refine Ends.step 0 fs (.mapping intermediate reply.file []) ?_ (ends_mapping [] hfull hn)
      rw [work, if_neg (by omega)]
  | succ d ih =>
      have hlt : intermediate.length < reply.nReduce := by omega
      have hnext : ∀ fs, Ends mapf content reducef reply fs (.creating intermediate true) := by
        intro fs
        refine Ends.step 0 _ _ (by rw [work, if_pos hlt, if_pos rfl]) (ih false ?_ ?_) <;>
          rw [List.length_append, List.length_singleton] <;> omega
      cases removed with
      | true => exact hnext fs
      | false =>
          refine Ends.step 0 _ _ ?_ (hnext (fs.remove (tmpName reply.taskNum intermediate.length)))
          rw [work, if_pos hlt, if_neg Bool.false_ne_true]

theorem ends_replacing (removed : Bool) :
    Ends mapf content reducef reply fs (.replacing removed) := by
  have hnext : ∀ fs, Ends mapf content reducef reply fs (.replacing true) := fun fs =>
    Ends.step 0 _ .reporting rfl ⟨_, .start⟩
  cases removed with
  | true => exact hnext fs
  | false => exact Ends.step 0 _ _ rfl (hnext _)

theorem ends_writing {file : Nat} (kva : List (String × List String)) :
    Ends mapf content reducef reply fs (.writing file kva) := by
  induction kva generalizing fs with
  | nil => exact Ends.step 0 fs _ rfl (ends_replacing false)
  | cons x kva ih => exact Ends.step 0 _ _ rfl ih

theorem ends_opening (kva : AList fun _ : String => List String) (removed : Bool) :
    Ends mapf content reducef reply fs (.opening kva removed) := by
  have hnext : ∀ fs, Ends mapf content reducef reply fs (.opening kva true) := fun fs =>
    Ends.step 0 _ _ rfl (ends_writing (entriesOf kva))
  cases removed with
  | true => exact hnext fs
  | false => exact Ends.step 0 _ _ rfl (hnext _)

theorem ends_reading {file : List File} (kva : AList fun _ : String => List String) :
    Ends mapf content reducef reply fs (.reading file kva) := by
  induction file generalizing kva with
  | nil => exact Ends.step 0 fs _ rfl (ends_opening kva false)
  | cons f file ih => exact Ends.step 0 fs _ rfl (ih _)

/-- **Every task comes to its end.** -/
theorem task_ends (hn : reply.task = .map → 0 < reply.nReduce)
    (h : StageOk mapf content reducef fs reply stage) : Ends mapf content reducef reply fs stage := by
  cases stage with
  | creating intermediate removed => exact ends_creating removed h.2.1 (hn h.1)
  | mapping intermediate file kva => exact ends_mapping kva h.2.1 (hn h.1)
  | naming intermediate i removed => exact ends_naming removed
  | reading file kva => exact ends_reading kva
  | opening kva removed => exact ends_opening kva removed
  | writing file kva => exact ends_writing kva
  | replacing removed => exact ends_replacing removed
  | reporting => exact ⟨fs, .start⟩

end Ends

/-! ## 2. One worker -/

/-- Only the worker `w` makes calls; timers fire, workers register, and others crash. -/
def JobAlone (w : Nat) (s : Job) (a : JobAction) : Prop :=
  s.prompt a = true ∧
    (a = .register ∨ a = .ask w ∨ (∃ k, a = .work w k) ∨ a = .report w ∨ (∃ k, a = .timeout k) ∨
      ∃ v, v ≠ w ∧ a = .crash v)

/-- The worker goes on until its task is done. -/
theorem works_on {s : Job} (h : JobInv mapf content reducef files nReduce s) (hne : files ≠ [])
    (hn : 0 < nReduce) {w : Nat} {reply : TaskReply} {stage : Stage}
    (hw : s.procs w = .busy reply stage) :
    ∃ fs', Reach (Job.step mapf content reducef) (JobAlone w) s
      { s.setProc w (.busy reply .reporting) with fs := fs' } := by
  have hmap : reply.task = .map → 0 < reply.nReduce := fun ht => by
    rw [show reply.nReduce = nReduce from ((handed_reach hne h.run).mapReply _ (h.books hw).2.1 ht).1]
    exact hn
  obtain ⟨fs', hr⟩ := task_ends hmap (h.busy w reply stage hw).2.2
  have hstart : s = { s.setProc w (.busy reply stage) with fs := s.fs } := by
    obtain ⟨world, fs, procs⟩ := s
    simp only [Job.setProc] at hw ⊢
    rw [← hw, Function.update_eq_self]
  have hrun : ∃ t, Reach (Job.step mapf content reducef) (JobAlone w) s t ∧
      t = { s.setProc w (.busy reply .reporting) with fs := fs' } := by
    refine hr.refine (R := fun (x : Fs × Stage) t =>
      t = { s.setProc w (.busy reply x.2) with fs := x.1 }) ?_ hstart
    rintro ⟨fs₁, stage₁⟩ k ⟨fs₂, stage₂⟩ t rfl _ hc
    refine ⟨_, .move _ _ (.work w k) .start ⟨rfl, Or.inr (Or.inr (Or.inl ⟨k, rfl⟩))⟩ ?_, rfl⟩
    simp only [Job.step, Job.setProc, Function.update_self, Function.update_idem] at hc ⊢
    rw [hc]
    rfl
  obtain ⟨t, ht, rfl⟩ := hrun
  exact ⟨fs', ht⟩

/-! ## 3. The master sees the same -/

/-- **The job follows the master with one worker**: the worker is free, or has done all its calls;
    whoever else holds a task has crashed. -/
structure Follows (mapf : String → String → List KeyValue) (content : String → String)
    (reducef : String → List String → String) (files : List String) (nReduce w : Nat)
    (world : World) (s : Job) : Prop where
  inv : JobInv mapf content reducef files nReduce s
  same : s.world = world
  free : world.workers w = none → s.procs w = .free
  done : ∀ reply, world.workers w = some reply → s.procs w = .busy reply .reporting
  others : ∀ v T, v ≠ w → world.master.worker2task.lookup v = some T → s.procs v = .dead

section Follows

variable {w : Nat} {world world' : World} {s : Job}

theorem jobInv_alone (hne : files ≠ []) {s s' : Job}
    (h : JobInv mapf content reducef files nReduce s)
    (hr : Reach (Job.step mapf content reducef) (JobAlone w) s s') :
    JobInv mapf content reducef files nReduce s' :=
  Reach.inv h (fun _ _ _ ih hg hs => jobInv_step ih hne hg.1 hs) hr

/-- The worker asks, and does all its calls. -/
theorem Follows.ask (h : Follows mapf content reducef files nReduce w world s) (hne : files ≠ [])
    (hn : 0 < nReduce) (hs : world.ask w = some world') :
    ∃ s', Reach (Job.step mapf content reducef) (JobAlone w) s s' ∧
      Follows mapf content reducef files nReduce w world' s' := by
  obtain ⟨hinv, rfl, hfree, _, hothers⟩ := h
  have hnone : s.world.workers w = none := (ask_inv hs).1
  have hask : s.ask w = some { s with
      world := world'
      procs := Job.given s.procs w (world'.workers w) } := by
    rw [Job.ask, hfree hnone, hs]
    rfl
  have hrun : Reach (Job.step mapf content reducef) (JobAlone w) s _ :=
    .move _ _ (.ask w) .start ⟨rfl, Or.inr (Or.inl rfl)⟩ hask
  have hinv' := jobInv_alone hne hinv hrun
  -- nobody else is given a task
  have hothers' : ∀ v T, v ≠ w → world'.master.worker2task.lookup v = some T →
      s.procs v = .dead := by
    intro v T hv hT
    cases move_of_ask hs with
    | wait _ _ => exact hothers v T hv hT
    | zero _ _ _ _ _ => exact hothers v T hv hT
    | map _ _ _ _ _ _ => exact hothers v T hv ((AList.lookup_insert_ne hv).symm.trans hT)
    | reduce _ _ _ _ _ _ _ _ => exact hothers v T hv ((AList.lookup_insert_ne hv).symm.trans hT)
  cases hw : world'.workers w with
  | none =>
      rw [hw] at hrun hinv'
      refine ⟨_, hrun, hinv', rfl, fun _ => hfree hnone, fun reply hr => ?_, hothers'⟩
      rw [hw] at hr
      cases hr
  | some reply =>
      rw [hw] at hrun hinv'
      obtain ⟨fs', hrun'⟩ := works_on hinv' hne hn (Function.update_self ..)
      refine ⟨_, hrun.trans hrun', jobInv_alone hne hinv' hrun', rfl, fun hr => ?_, fun reply' hr => ?_,
        fun v T hv hT => ?_⟩
      · rw [hw] at hr
        cases hr
      · rw [hw] at hr
        cases hr
        exact Function.update_self ..
      · refine (Function.update_of_ne hv ..).trans ?_
        exact (Function.update_of_ne hv ..).trans (hothers' v T hv hT)

theorem Follows.report (h : Follows mapf content reducef files nReduce w world s) (hne : files ≠ [])
    (hs : world.report w = some world') :
    ∃ s', Reach (Job.step mapf content reducef) (JobAlone w) s s' ∧
      Follows mapf content reducef files nReduce w world' s' := by
  obtain ⟨hinv, rfl, _, hdone, hothers⟩ := h
  cases hw : s.world.workers w with
  | none =>
      rw [World.report, hw] at hs
      cases hs
  | some reply =>
      have hproc := hdone reply hw
      obtain ⟨hheld, _⟩ := scheduleDone_books (w := w) (hinv.books hproc).1
      have hrep : s.report w = some { s.setProc w .free with world := world' } := by
        rw [Job.report, hproc, hs]
        rfl
      have hrun : Reach (Job.step mapf content reducef) (JobAlone w) s _ :=
        .move _ _ (.report w) .start ⟨rfl, Or.inr (Or.inr (Or.inr (Or.inl rfl)))⟩ hrep
      rw [World.report, hw] at hs
      cases hs
      refine ⟨_, hrun, jobInv_alone hne hinv hrun, rfl, fun _ => Function.update_self ..,
        fun reply' hr => ?_, fun v T hv hT => ?_⟩
      · dsimp only at hr
        rw [Function.update_self] at hr
        cases hr
      · dsimp only at hT
        rw [hheld] at hT
        exact (Function.update_of_ne hv ..).trans (hothers v T hv (lookup_erase_some hT).2)

/-- A timer finds nothing, or someone who has crashed. -/
theorem Follows.timeout (h : Follows mapf content reducef files nReduce w world s) (hne : files ≠ [])
    {k : Nat} (hg : timersApart world (.timeout k) = true) (hw : world.workers w = none)
    (hs : world.timeout k = some world') :
    ∃ s', Reach (Job.step mapf content reducef) (JobAlone w) s s' ∧
      Follows mapf content reducef files nReduce w world' s' := by
  obtain ⟨hinv, rfl, hfree, hdone, hothers⟩ := h
  have hprompt : s.prompt (.timeout k) = true := by
    unfold Job.prompt
    dsimp only
    split
    · rfl
    · rename_i timer hk
      split
      · rfl
      · rename_i T hT
        have hne : timer.workerId ≠ w := (booked_reach hinv.run).ne_of_free hT hw
        simp [hothers _ T hne hT, hg]
  have hstep : s.step mapf content reducef (.timeout k) = some { s with world := world' } := by
    rw [Job.step, hs]
    rfl
  have hrun : Reach (Job.step mapf content reducef) (JobAlone w) s _ :=
    .move _ _ (.timeout k) .start
      ⟨hprompt, Or.inr (Or.inr (Or.inr (Or.inr (Or.inl ⟨k, rfl⟩))))⟩ hstep
  cases move_of_step (show s.world.step (.timeout k) = some world' from hs) with
  | timeout _ timer hk =>
      refine ⟨_, hrun, jobInv_alone hne hinv hrun, rfl, hfree, hdone, fun v T hv hT => ?_⟩
      dsimp only at hT
      rcases s.world.master.timeout_cases timer with e | ⟨_, _, _, ⟨_, e⟩ | ⟨_, e⟩⟩ <;> rw [e] at hT
      · exact hothers v T hv hT
      · exact hothers v T hv (lookup_erase_some hT).2
      · exact hothers v T hv (lookup_erase_some hT).2

end Follows

/-! ## 4. Everyone crashes -/

end Mit6824.Mr
