/-
  File:      Mit6824/Mr/JobOutput.lean
  Subject:   THE OUTPUT OF A WHOLE JOB (mr/worker.go and mr/master.go against main/mrsequential.go).

  As long as a timer takes a task back only from a worker that has crashed, every worker that is
  alive holds its task, and the files it writes are nobody else's: map tasks have different numbers,
  a number in `ValidTask` is no longer in anyone's hands, and a reduce task is held by one worker.

  * `JobInv` -- every worker stands where its calls have brought it, every task in `ValidTask` has
    left its files, every reported reduce task its output;
  * `JobInv.apart`, `JobInv.valid_apart`, `JobInv.reduced_apart` -- what a worker does not touch;
  * `jobInv_step`, `jobInv_reach`;
  * `job_output` -- **when the job is done, `mr-out-0`, `mr-out-1`, ... are there and hold the lines
    of the sequential program**;
  * `output_lost` -- two workers at the same reduce task can lose its output.
-/
import Mit6824.Mr.Finish
import Mit6824.Mr.Job

namespace Mit6824.Mr

open Lib World

/-! ## 1. The state of a job -/

variable {mapf : String → String → List KeyValue} {content : String → String}
  {reducef : String → List String → String} {files : List String} {nReduce : Nat}

/-- **Everyone stands where its calls have brought it.** -/
structure JobInv (mapf : String → String → List KeyValue) (content : String → String)
    (reducef : String → List String → String) (files : List String) (nReduce : Nat) (s : Job) :
    Prop where
  run : Reach World.step (fun s a => orderly s a = true) (World.init files nReduce) s.world
  sound : s.fs.Sound
  known : ∀ w, s.world.master.workerNum ≤ w → s.procs w = .free
  free : ∀ w, s.procs w = .free → s.world.workers w = none
  busy : ∀ w reply stage, s.procs w = .busy reply stage → s.world.workers w = some reply ∧
    (∃ T, s.world.master.worker2task.lookup w = some T) ∧
    StageOk mapf content reducef s.fs reply stage
  mapped : ∀ x ∈ s.world.assigned, x.2.task = .map → x.2.taskNum ∈ s.world.master.validTask →
    ∀ j < nReduce, Wrote s.fs (mrName x.2.taskNum j)
      (bucket nReduce j (records mapf content x.2.file))
  reduced : ∀ x ∈ s.world.reported, x.2.task = .reduce →
    Reduced reducef s.fs (outName x.2.taskNum) x.2.file

section Apart

variable {s : Job} {w : Nat} {reply : TaskReply} {stage : Stage}

/-- What the books say about a worker that is at a task. -/
theorem JobInv.books (h : JobInv mapf content reducef files nReduce s)
    (hw : s.procs w = .busy reply stage) :
    s.world.master.phase ≠ .finish ∧ (w, reply) ∈ s.world.assigned ∧
      reply.task = s.world.master.phase.task ∧
      ∃ T, s.world.master.worker2task.lookup w = some T ∧ reply.taskNum = T.taskNum ∧
        reply.file = T.file := by
  have hb := booked_reach h.run
  obtain ⟨hbusy, ⟨T, hT⟩, _⟩ := h.busy w reply stage hw
  obtain ⟨hass, htask, hnum, hfile⟩ := hb.reply_held hT hbusy
  refine ⟨fun hp => ?_, hass, htask, T, hT, hnum, hfile⟩
  rw [hb.finish hp w] at hT
  cases hT

theorem own_map {name : String} (ht : reply.task = .map) (h : Own reply name) :
    ∃ j, name = tmpName reply.taskNum j ∨ name = mrName reply.taskNum j := by
  rwa [Own, ht] at h

theorem own_reduce {name : String} (ht : reply.task = .reduce) (h : Own reply name) :
    name = tmpOutName reply.taskNum ∨ name = outName reply.taskNum := by
  rwa [Own, ht] at h

/-- A reduce task writes no intermediate file. -/
theorem not_own_mrName (ht : reply.task = .reduce) (t j : Nat) : ¬ Own reply (mrName t j) := by
  intro h
  rcases own_reduce ht h with e | e
  · exact tmpOutName_ne_mrName e.symm
  · exact outName_ne_mrName e.symm

/-- The input files of a reduce task. -/
theorem reduce_reads {s : World} {x : Nat × TaskReply} (hh : Handed files nReduce s)
    (hx : x ∈ s.assigned) (ht : x.2.task = .reduce) :
    ∀ f ∈ x.2.file, ∃ t ∈ s.master.validTask, f.name = mrName t x.2.taskNum := by
  intro f hf
  rw [(hh.reduceReply x hx ht).2] at hf
  obtain ⟨t, ht, rfl⟩ := List.mem_map.mp hf
  exact ⟨t, ht, rfl⟩

theorem JobInv.readsOthers (h : JobInv mapf content reducef files nReduce s) (hne : files ≠ [])
    (hw : s.procs w = .busy reply stage) : ReadsOthers reply := by
  intro ht f hf
  obtain ⟨t, _, e⟩ := reduce_reads (handed_reach hne h.run) (h.books hw).2.1 ht f hf
  rw [e]
  exact not_own_mrName ht t _

/-- **Two workers**: what one writes the other neither writes nor reads. -/
theorem JobInv.apart (h : JobInv mapf content reducef files nReduce s) (hne : files ≠ [])
    (hw : s.procs w = .busy reply stage) {v : Nat} {reply' : TaskReply} {stage' : Stage}
    (hv : s.procs v = .busy reply' stage') (hvw : v ≠ w) {name : String}
    (hneed : Needs reply' name) : ¬ Own reply name := by
  intro hown
  have hh := handed_reach hne h.run
  obtain ⟨hfin, hass, htask, T, hT, hnum, _⟩ := h.books hw
  obtain ⟨_, hass', htask', T', hT', hnum', _⟩ := h.books hv
  cases hp : s.world.master.phase with
  | finish => exact hfin hp
  | map =>
      rw [hp] at htask htask'
      -- map tasks have different numbers
      have hdiff : reply'.taskNum ≠ reply.taskNum := fun e => hvw
        (congrArg Prod.fst ((apart_orderly h.run).single _ hass' _ hass htask' htask e))
      rcases hneed with hown' | ⟨hr, _⟩
      · obtain ⟨j, e⟩ := own_map htask hown
        obtain ⟨j', e'⟩ := own_map htask' hown'
        rcases e' with rfl | rfl <;> rcases e with e | e
        · exact hdiff (tmpName_inj e).1
        · exact tmpName_ne_mrName e
        · exact tmpName_ne_mrName e.symm
        · exact hdiff (mrName_inj e).1
      · rw [htask'] at hr
        cases hr
  | reduce =>
      rw [hp] at htask htask'
      -- a reduce task is in one pair of hands
      have hdiff : reply'.taskNum ≠ reply.taskNum := fun e => hvw
        (hh.held hp v w T' T hT' hT (hnum'.symm.trans (e.trans hnum)))
      rcases hneed with hown' | ⟨_, f, hf, rfl⟩
      · rcases own_reduce htask' hown' with rfl | rfl <;> rcases own_reduce htask hown with e | e
        · exact hdiff (tmpOutName_inj e)
        · exact tmpOutName_ne_outName e
        · exact tmpOutName_ne_outName e.symm
        · exact hdiff (outName_inj e)
      · obtain ⟨t, _, e⟩ := reduce_reads hh hass' htask' f hf
        rw [e] at hown
        exact not_own_mrName htask t _ hown

/-- A number in `ValidTask` is in nobody's hands. -/
theorem valid_not_held {s : World} {T : Task} {t : Nat} (ha : Apart s) (hb : Booked s)
    (hp : s.master.phase = .map) (hT : s.master.worker2task.lookup w = some T)
    (ht : t ∈ s.master.validTask) : T.taskNum ≠ t := by
  rintro rfl
  obtain ⟨reply, hbusy, hass, htask, hnum, hfile⟩ := hb.held w T hT
  obtain ⟨f, e, hf, he⟩ := ha.tasks hp w T hT
  have hr : Reads T.file e := ⟨f, by rw [hf]; exact List.mem_singleton_self _, he⟩
  have := ha.place e (.worker w) (.task T.taskNum) ⟨hp, T, hT, hr⟩
    ⟨ht, (w, reply), hass, by rw [htask, hp]; rfl, hnum, by rwa [hfile]⟩
  cases this

/-- **What a map task in `ValidTask` has left behind** is final. -/
theorem JobInv.valid_apart (h : JobInv mapf content reducef files nReduce s)
    (hw : s.procs w = .busy reply stage) {t : Nat} (ht : t ∈ s.world.master.validTask) (j : Nat) :
    ¬ Own reply (mrName t j) := by
  obtain ⟨hfin, _, htask, T, hT, hnum, _⟩ := h.books hw
  cases hp : s.world.master.phase with
  | finish => exact absurd hp hfin
  | map =>
      rw [hp] at htask
      intro hown
      obtain ⟨j', e | e⟩ := own_map htask hown
      · exact tmpName_ne_mrName e.symm
      · have hne := valid_not_held (apart_orderly h.run) (booked_reach h.run) hp hT ht
        exact hne (hnum.symm.trans (mrName_inj e).1.symm)
  | reduce =>
      rw [hp] at htask
      exact not_own_mrName htask t j

/-- **The output of a reported reduce task** is final. -/
theorem JobInv.reduced_apart (h : JobInv mapf content reducef files nReduce s) (hne : files ≠ [])
    (hw : s.procs w = .busy reply stage) {x : Nat × TaskReply} (hx : x ∈ s.world.reported)
    (ht : x.2.task = .reduce) : ¬ Own reply (outName x.2.taskNum) := by
  obtain ⟨hfin, _, htask, T, hT, hnum, _⟩ := h.books hw
  obtain ⟨hmap, _, hheld⟩ := (handed_reach hne h.run).done x hx ht
  cases hp : s.world.master.phase with
  | finish => exact absurd hp hfin
  | map => exact absurd hp hmap
  | reduce =>
      rw [hp] at htask
      intro hown
      rcases own_reduce htask hown with e | e
      · exact tmpOutName_ne_outName e.symm
      · exact hheld hp w T hT (hnum.symm.trans (outName_inj e).symm)

end Apart

/-! ## 3. One step -/

section Step

variable {s s' : Job}

/-- A call to the system. -/
theorem JobInv.work (h : JobInv mapf content reducef files nReduce s) (hne : files ≠ [])
    {w k : Nat} {reply : TaskReply} {stage stage' : Stage} {fs' : Fs}
    (hw : s.procs w = .busy reply stage)
    (hc : Mr.work mapf content reducef s.fs reply k stage = some (fs', stage')) :
    JobInv mapf content reducef files nReduce
      { s.setProc w (.busy reply stage') with fs := fs' } := by
  obtain ⟨hbusy, hheld, hok⟩ := h.busy w reply stage hw
  have hh := handed_reach hne h.run
  obtain ⟨hsound, hsame, hok'⟩ := work_ok h.sound (h.readsOthers hne hw) hok hc
  have hvalid : ∀ t ∈ s.world.master.validTask, ∀ j,
      fs'.read (mrName t j) = s.fs.read (mrName t j) := fun t ht j =>
    (hsame _ (h.valid_apart hw ht j)).2
  refine { h with
    sound := hsound
    known := fun v hv => ?_
    free := fun v hv => ?_
    busy := fun v reply' stage'' hv => ?_
    mapped := fun x hx ht hv j hj => ?_
    reduced := fun x hx ht => ?_ }
  · have hvw : v ≠ w := by
      rintro rfl
      rw [h.known v hv] at hw
      cases hw
    exact (Function.update_of_ne hvw ..).trans (h.known v hv)
  · by_cases hvw : v = w
    · subst hvw
      simp [Job.setProc] at hv
    · exact h.free v (by simpa [Job.setProc, hvw] using hv)
  · by_cases hvw : v = w
    · subst hvw
      have hv' : Proc.busy reply stage' = .busy reply' stage'' := by
        simpa [Job.setProc] using hv
      cases hv'
      exact ⟨hbusy, hheld, hok'⟩
    · have hv' : s.procs v = .busy reply' stage'' := by simpa [Job.setProc, hvw] using hv
      obtain ⟨hbusy', hheld', hok''⟩ := h.busy v reply' stage'' hv'
      exact ⟨hbusy', hheld', hok''.frame (hsame.mono fun _ hn => h.apart hne hw hv' hvw hn)⟩
  · exact (hvalid _ hv j).trans (h.mapped x hx ht hv j hj)
  · refine (h.reduced x hx ht).congr (hsame _ (h.reduced_apart hne hw hx ht)).2 fun f hf => ?_
    obtain ⟨t, htv, e⟩ := reduce_reads hh (hh.reported x hx) ht f hf
    rw [e]
    exact hvalid t htv _

/-- A worker gets a task. -/
theorem JobInv.assign (h : JobInv mapf content reducef files nReduce s) {w : Nat} {T : Task}
    {reply : TaskReply} {stage : Stage} {world : World}
    (hrun : Reach World.step (fun s a => orderly s a = true) (World.init files nReduce) world)
    (hw : w < s.world.master.workerNum)
    (hnum : world.master.workerNum = s.world.master.workerNum)
    (hworkers : world.workers = Function.update s.world.workers w (some reply))
    (hheld : world.master.worker2task = s.world.master.worker2task.insert w T)
    (hvalid : world.master.validTask = s.world.master.validTask)
    (hreported : world.reported = s.world.reported)
    (hassigned : world.assigned = s.world.assigned ++ [(w, reply)])
    (hnew : reply.task = .map → reply.taskNum ∉ s.world.master.validTask)
    (hok : StageOk mapf content reducef s.fs reply stage) :
    JobInv mapf content reducef files nReduce
      { s with world := world, procs := Function.update s.procs w (.busy reply stage) } := by
  refine { h with
    run := hrun
    known := fun v hv => ?_
    free := fun v hv => ?_
    busy := fun v reply' stage' hv => ?_
    mapped := fun x hx ht hv => ?_
    reduced := fun x hx ht => ?_ }
  · have hv' : s.world.master.workerNum ≤ v := hnum ▸ hv
    exact (Function.update_of_ne (by omega) ..).trans (h.known v hv')
  · by_cases hvw : v = w
    · subst hvw
      simp at hv
    · dsimp only at hv ⊢
      rw [Function.update_of_ne hvw] at hv
      rw [hworkers, Function.update_of_ne hvw]
      exact h.free v hv
  · dsimp only at hv ⊢
    rw [hworkers, hheld]
    by_cases hvw : v = w
    · subst hvw
      rw [Function.update_self] at hv
      cases hv
      exact ⟨Function.update_self .., ⟨T, AList.lookup_insert _⟩, hok⟩
    · rw [Function.update_of_ne hvw] at hv
      obtain ⟨hbusy', hheld', hok'⟩ := h.busy v reply' stage' hv
      rw [Function.update_of_ne hvw, AList.lookup_insert_ne hvw]
      exact ⟨hbusy', hheld', hok'⟩
  · dsimp only at hx hv ⊢
    rw [hassigned] at hx
    rw [hvalid] at hv
    rcases List.mem_append.mp hx with hx | hx
    · exact h.mapped x hx ht hv
    · rw [List.mem_singleton.mp hx] at ht hv
      exact absurd hv (hnew ht)
  · dsimp only at hx ⊢
    rw [hreported] at hx
    exact h.reduced x hx ht

theorem JobInv.ask (h : JobInv mapf content reducef files nReduce s) (hne : files ≠ []) {w : Nat}
    (hs : s.ask w = some s') : JobInv mapf content reducef files nReduce s' := by
  unfold Job.ask at hs
  split at hs
  case h_2 => cases hs
  case h_1 hfree =>
    obtain ⟨world, hask, rfl⟩ := Option.map_eq_some_iff.mp hs
    have hrun := h.run.move _ _ (.ask w) rfl (show World.step _ (.ask w) = some world from hask)
    have hnone := h.free w hfree
    have hreg : w < s.world.master.workerNum := by
      by_contra hw
      simp [World.ask, hw] at hask
    have ha := apart_orderly h.run
    have hh := handed_reach hne h.run
    cases move_of_ask hask with
    | wait _ _ =>
        rw [hnone]
        exact h
    | zero _ _ hphase hfiles hheld =>
        rcases hh.left hphase with hleft | ⟨v, T, hv⟩
        · exact absurd hfiles hleft
        · rw [hheld v] at hv
          cases hv
    | map _ rest file _ hphase hfiles =>
        dsimp only
        rw [Function.update_self]
        refine h.assign hrun hreg rfl rfl rfl rfl rfl rfl (fun _ hv => ?_)
          ⟨rfl, Nat.zero_le _, fun j i hj => ?_⟩
        · obtain ⟨x, hx, ht, e, _⟩ := ha.own _ hv
          exact absurd (ha.number x hx ht) (by rw [e]; exact lt_irrefl _)
        · cases hj
    | reduce _ rest r file _ hphase hr hfile =>
        dsimp only
        rw [Function.update_self]
        exact h.assign hrun hreg rfl rfl rfl rfl rfl rfl (fun ht => by cases ht)
          ⟨rfl, [], rfl, collected_empty⟩

/-- What a report changes in the books. -/
theorem scheduleDone_books {m : Master} {w : Nat} (hfin : m.phase ≠ .finish) :
    (m.scheduleDone w).worker2task = m.worker2task.erase w ∧
      ∀ t ∈ (m.scheduleDone w).validTask, t ∈ m.validTask ∨
        (m.phase = .map ∧ t = ((m.worker2task.lookup w).map Task.taskNum).getD 0) := by
  cases hp : m.phase with
  | finish => exact absurd hp hfin
  | map =>
      obtain ⟨phase, e, _⟩ := Master.scheduleDone_map hp w
      rw [e]
      refine ⟨rfl, fun t ht => ?_⟩
      rcases List.mem_append.mp ht with ht | ht
      · exact Or.inl ht
      · exact Or.inr ⟨rfl, List.mem_singleton.mp ht⟩
  | reduce =>
      obtain ⟨phase, e, _⟩ := Master.scheduleDone_reduce hp w
      rw [e]
      exact ⟨rfl, fun t ht => Or.inl ht⟩

/-- A task that is done is reported. -/
theorem JobInv.report (h : JobInv mapf content reducef files nReduce s) (hne : files ≠ []) {w : Nat}
    (hs : s.report w = some s') : JobInv mapf content reducef files nReduce s' := by
  unfold Job.report at hs
  split at hs
  case h_2 => cases hs
  case h_1 reply hw =>
    obtain ⟨world, hrep, rfl⟩ := Option.map_eq_some_iff.mp hs
    have ha := apart_orderly h.run
    have hh := handed_reach hne h.run
    obtain ⟨hbusy, ⟨T, hT⟩, hok⟩ := h.busy w reply _ hw
    obtain ⟨hfin, hass, htask, T', hT', hnum, _⟩ := h.books hw
    obtain rfl : T = T' := Option.some.inj (hT.symm.trans hT')
    have hrun := h.run.move _ _ (.report w) (by simp [orderly, hT])
      (show World.step _ (.report w) = some world from hrep)
    rw [World.report, hbusy] at hrep
    cases hrep
    obtain ⟨hheld, hvalid⟩ := scheduleDone_books (w := w) hfin
    refine { h with
      run := hrun
      known := fun v hv => ?_
      free := fun v hv => ?_
      busy := fun v reply' stage' hv => ?_
      mapped := fun x hx ht hv j hj => ?_
      reduced := fun x hx ht => ?_ }
    · have hv' : s.world.master.workerNum ≤ v := Master.scheduleDone_workerNum.symm.le.trans hv
      by_cases hvw : v = w
      · subst hvw
        exact Function.update_self ..
      · exact (Function.update_of_ne hvw ..).trans (h.known v hv')
    · by_cases hvw : v = w
      · subst hvw
        exact Function.update_self ..
      · refine (Function.update_of_ne hvw ..).trans (h.free v ?_)
        simpa [Job.setProc, hvw] using hv
    · by_cases hvw : v = w
      · subst hvw
        simp [Job.setProc] at hv
      · obtain ⟨hbusy', hheld', hok'⟩ :=
          h.busy v reply' stage' (by simpa [Job.setProc, hvw] using hv)
        refine ⟨(Function.update_of_ne hvw ..).trans hbusy', ?_, hok'⟩
        dsimp only
        rw [hheld, AList.lookup_erase_ne hvw]
        exact hheld'
    · rcases hvalid _ hv with hold | ⟨hp, e⟩
      · exact h.mapped x hx ht hold j hj
      · -- the task that was reported just now
        rw [hT, Option.map_some, Option.getD_some, ← hnum] at e
        rw [hp] at htask
        obtain rfl := ha.single x hx (w, reply) hass ht htask e
        have hn : reply.nReduce = nReduce := (hh.mapReply _ hass htask).1
        rcases hok with ⟨_, hwrote⟩ | ⟨hr, _⟩
        · rw [hn] at hwrote
          exact hwrote j hj
        · rw [htask] at hr
          cases hr
    · rcases List.mem_append.mp hx with hx | hx
      · exact h.reduced x hx ht
      · rw [List.mem_singleton.mp hx] at ht ⊢
        rcases hok with ⟨hm, _⟩ | ⟨_, hr⟩
        · rw [ht] at hm
          cases hm
        · exact hr

/-- A timer leaves the task of a worker that is alive. -/
theorem JobInv.timeout (h : JobInv mapf content reducef files nReduce s) {k : Nat} {world : World}
    (hg : s.prompt (.timeout k) = true) (hs : s.world.timeout k = some world) :
    JobInv mapf content reducef files nReduce { s with world := world } := by
  have hord : orderly s.world (.timeout k) = true := by
    simp only [orderly, timersApart, Job.prompt] at hg ⊢
    split
    · rename_i timer hk
      rw [hk] at hg
      dsimp only at hg
      cases hT : s.world.master.worker2task.lookup timer.workerId with
      | none => simp
      | some T =>
          rw [hT] at hg
          dsimp only at hg
          by_cases hn : T.taskNum = timer.taskNum
          · simp only [hn, ne_eq, not_true_eq_false, decide_false, Bool.false_or,
              Bool.and_eq_true] at hg
            simpa [hn, hT] using hg.2
          · simp [hn]
    · rfl
  have hrun := h.run.move _ _ (.timeout k) hord
    (show World.step _ (.timeout k) = some world from hs)
  rw [World.timeout] at hs
  split at hs
  case h_1 => cases hs
  case h_2 timer hk =>
    cases hs
    -- the timer finds nothing, or a worker that is no more
    have hcases : (∀ v reply stage, s.procs v = .busy reply stage →
          (s.world.master.timeout timer).worker2task.lookup v =
            s.world.master.worker2task.lookup v) ∧
        (s.world.master.timeout timer).validTask = s.world.master.validTask ∧
        (s.world.master.timeout timer).workerNum = s.world.master.workerNum := by
      rcases s.world.master.timeout_cases timer with e | ⟨T, hT, hnum, ⟨_, e⟩ | ⟨_, e⟩⟩
      · rw [e]
        exact ⟨fun _ _ _ _ => rfl, rfl, rfl⟩
      all_goals
        rw [e]
        refine ⟨fun v reply stage hv => AList.lookup_erase_ne fun hvw => ?_, rfl, rfl⟩
        subst hvw
        simp [Job.prompt, hk, hT, hnum, hv] at hg
    refine { h with
      run := hrun
      known := fun v hv => h.known v (hcases.2.2 ▸ hv)
      busy := fun v reply stage hv => ?_
      mapped := fun x hx ht hv => ?_ }
    · obtain ⟨hbusy, hheld, hok⟩ := h.busy v reply stage hv
      refine ⟨hbusy, ?_, hok⟩
      dsimp only
      rw [hcases.1 v reply stage hv]
      exact hheld
    · dsimp only at hv
      rw [hcases.2.1] at hv
      exact h.mapped x hx ht hv

/-- **The step lemma.** -/
theorem jobInv_step (h : JobInv mapf content reducef files nReduce s) (hne : files ≠ [])
    {a : JobAction} (hg : s.prompt a = true) (hs : s.step mapf content reducef a = some s') :
    JobInv mapf content reducef files nReduce s' := by
  cases a with
  | register =>
      have hrun := h.run.move _ _ .register rfl rfl
      cases hs
      exact { h with run := hrun, known := fun w hw => h.known w (Nat.le_of_succ_le hw) }
  | ask w => exact h.ask hne hs
  | work w k =>
      simp only [Job.step] at hs
      split at hs
      case h_2 => cases hs
      case h_1 reply stage hw =>
        obtain ⟨r, hr, rfl⟩ := Option.map_eq_some_iff.mp hs
        exact h.work hne hw hr
  | report w => exact h.report hne hs
  | timeout k =>
      obtain ⟨world, hw, rfl⟩ := Option.map_eq_some_iff.mp hs
      exact h.timeout hg hw
  | crash w =>
      obtain ⟨hw, rfl⟩ : w < s.world.master.workerNum ∧ s.setProc w .dead = s' := by
        simpa [Job.step] using hs
      refine { h with
        known := fun v hv => ?_
        free := fun v hv => ?_
        busy := fun v reply stage hv => ?_ }
      · have hv' : s.world.master.workerNum ≤ v := hv
        exact (Function.update_of_ne (by omega) ..).trans (h.known v hv')
      · by_cases hvw : v = w
        · subst hvw
          simp [Job.setProc] at hv
        · exact h.free v (by simpa [Job.setProc, hvw] using hv)
      · by_cases hvw : v = w
        · subst hvw
          simp [Job.setProc] at hv
        · exact h.busy v reply stage (by simpa [Job.setProc, hvw] using hv)

end Step

/-! ## 4. The output -/

theorem records_eq (file : List File) : records mapf content file =
    (file.map File.name).flatMap fun name => mapf name (content name) := by
  rw [List.flatMap_map]
  rfl

/-- After the map phase a reduce task reads the records of its keys. -/
theorem JobInv.reads {s : Job} (h : JobInv mapf content reducef files nReduce s) (hne : files ≠ [])
    (hp : s.world.master.phase ≠ .map) :
    ∃ kvs, kvs.Perm (intermediate mapf content files) ∧ ∀ x ∈ s.world.assigned,
      x.2.task = .reduce → x.2.taskNum < nReduce →
        inputs s.fs x.2.file = bucket nReduce x.2.taskNum kvs := by
  obtain ⟨name, hperm, hname⟩ := validTask_files hne h.run hp
  refine ⟨s.world.master.validTask.flatMap fun t => mapf (name t) (content (name t)), ?_,
    fun x hx ht hlt => ?_⟩
  · rw [intermediate_eq]
    have := hperm.flatMap_right fun f => mapf f (content f)
    rwa [List.flatMap_map] at this
  · rw [((handed_reach hne h.run).reduceReply x hx ht).2, inputs, List.flatMap_map, bucket,
      List.filter_flatMap]
    refine List.flatMap_congr fun t htv => ?_
    obtain ⟨y, hy, htask, hnum, hfile⟩ := hname t htv
    have hw := h.mapped y hy htask (hnum ▸ htv) x.2.taskNum hlt
    rw [records_eq, hfile, List.flatMap_singleton, hnum] at hw
    rw [show (Master.reduceFile t x.2.taskNum).name = mrName t x.2.taskNum from rfl,
      show s.fs.read (mrName t x.2.taskNum) = _ from hw, Option.getD_some, decode_records]
    rfl

/-- When the job is done every reduce task has left its lines. -/
theorem JobInv.printed {s : Job} (h : JobInv mapf content reducef files nReduce s)
    (hne : files ≠ []) (hdone : s.world.master.done = true) :
    ∃ kvs, kvs.Perm (intermediate mapf content files) ∧ ∀ r < nReduce, ∃ done g,
      Groups KeyValue.key KeyValue.value (bucket nReduce r kvs) g ∧ done.Perm g ∧
        Printed reducef s.fs (outName r) done := by
  have hp : s.world.master.phase = .finish := of_decide_eq_true hdone
  have hh := handed_reach hne h.run
  obtain ⟨kvs, hperm, hreads⟩ := h.reads hne (by rw [hp]; decide)
  refine ⟨kvs, hperm, fun r hr => ?_⟩
  rcases pending_reach (h.run.mono fun _ _ => timersApart_of_orderly) r hr with
    ⟨hno, _⟩ | ⟨hno, _⟩ | ⟨w, reply, hass, htask, rfl, hrep⟩
  · exact absurd hp hno
  · rw [hp] at hno
    cases hno
  · obtain ⟨done, g, hg, hdg, hprint⟩ := h.reduced _ hrep htask
    rw [hreads _ hass htask hr] at hg
    exact ⟨done, g, hg, hdg, hprint⟩

/-- The lines of all `mr-out-r` together are those of the sequential program. -/
theorem JobInv.output {s : Job} (h : JobInv mapf content reducef files nReduce s)
    (hreduce : ∀ key vs vs', vs.Perm vs' → reducef key vs = reducef key vs')
    (hne : files ≠ []) (hn : 0 < nReduce) (hdone : s.world.master.done = true)
    {sorted : List KeyValue} (hperm : sorted.Perm (intermediate mapf content files))
    (hsorted : sorted.Pairwise fun x y => x.key ≤ y.key) :
    ∃ out : Nat → List String,
      (∀ r < nReduce, s.fs.read (outName r) = some ((out r).map .line)) ∧
        ((List.range nReduce).flatMap out).Perm (sequential reducef sorted) := by
  obtain ⟨kvs, hkvs, hout⟩ := h.printed hne hdone
  choose! done g hg hdg hprint using hout
  refine ⟨fun r => (done r).map fun x => line x.1 (reducef x.1 x.2), fun r hr => ?_, ?_⟩
  · rw [List.map_map]
    exact hprint r hr
  · -- the groupings of the reduce tasks are one grouping together, the runs are another
    have hdist := groups_flatMap (fun key => ihash key % nReduce) (fun key => Nat.mod_lt _ hn) hg
    obtain ⟨g', hg', e⟩ := sequentialFrom_groups reducef hsorted 0
    rw [List.drop_zero] at hg'
    have hall : ((List.range nReduce).flatMap done).Perm ((List.range nReduce).flatMap g) :=
      List.Perm.flatMap_left _ fun r hr => hdg r (List.mem_range.mp hr)
    have hlines : ∀ key vs vs', vs.Perm vs' →
        line key (reducef key vs) = line key (reducef key vs') :=
      fun key vs vs' hvs => by rw [hreduce key vs vs' hvs]
    rw [sequential, e, ← List.map_flatMap]
    exact (hall.map _).trans (hdist.perm_map hg' (hkvs.trans hperm.symm) hlines)

/-- The next `n` calls of a worker. -/
def calls (w n : Nat) : List JobAction := List.replicate n (.work w 0)

/-- **Without the condition the output can be lost**: worker 0 is late with its reduce task, and
    worker 1 does it too, under the same temporary name. When worker 0 goes on it removes the output
    of worker 1, and finds nothing to rename: the job is done, and `mr-out-0` is gone. -/
theorem output_lost : ∃ s : Job, Reach (Job.step (fun f c => [⟨c, f⟩]) (fun _ => "x")
      fun _ vs => toString vs.length) AnyStep
      (.init ["a"] 1 .empty) s ∧
    s.world.master.done = true ∧ s.fs.read (outName 0) = none := by
  have run : (exec (Job.step (fun f c => [⟨c, f⟩]) (fun _ => "x") fun _ vs => toString vs.length)
      (fun _ _ => true) (.init ["a"] 1 .empty) (List.flatten ([[.register, .register, .ask 0],
        calls 0 9, [.report 0, .ask 0], calls 0 6, [.timeout 1, .ask 1], calls 1 8, [.report 1],
        calls 0 2, [.report 0]] : List (List JobAction)))).any (fun s =>
          s.world.master.done && (s.fs.read (outName 0)).isNone) = true := by
    decide +kernel
  obtain ⟨s, hr, hv⟩ := exists_of_run run
  obtain ⟨hdone, hnone⟩ := Bool.and_eq_true_iff.mp hv
  exact ⟨s, hr, hdone, Option.isNone_iff_eq_none.mp hnone⟩

end Mit6824.Mr
