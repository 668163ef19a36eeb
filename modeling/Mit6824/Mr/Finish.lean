/-
  File:      Mit6824/Mr/Finish.lean
  Subject:   A JOB CAN ALWAYS BE FINISHED (mr/master.go), whoever has crashed.

  Tasks of workers that have gone come back with their timers, and one worker that registers anew
  can do all the rest alone. The condition is `timersApart`: a timer of the map phase does not meet a
  reduce task with its number.

  * `Lively` -- what is held has a timer; in the reduce phase something waits or is held;
    `lively_reach`;
  * `Master.toDo` -- how much is left; `less_to_do` -- one worker, with the timers, can make it less;
  * `one_worker_finishes` -- **from every state a new worker can finish the job**;
  * `never_done` -- without the condition the last reduce task can be taken off the books for good.
-/
import Mit6824.Mr.ReducePhase

namespace Mit6824.Mr

open Lib

/-! ## 1. The books -/

namespace Master

theorem held_erase {m : Master} {w : Nat} {T : Task} (h : m.worker2task.lookup w = some T) :
    (m.worker2task.erase w).keys.length + 1 = m.held := by
  have hmem : w ∈ m.worker2task.keys := by
    rw [← AList.mem_keys, ← AList.lookup_isSome, h]
    rfl
  rw [AList.keys_erase, held, List.length_erase_of_mem hmem]
  have := List.length_pos_of_mem hmem
  omega

theorem exists_of_held {m : Master} (h : m.held ≠ 0) : ∃ w T, m.worker2task.lookup w = some T := by
  by_contra hno
  refine h (held_eq_zero.mpr fun w => ?_)
  cases hw : m.worker2task.lookup w with
  | none => rfl
  | some T => exact absurd ⟨w, T, hw⟩ hno

theorem scheduleDone_workerNum {m : Master} {w : Nat} :
    (m.scheduleDone w).workerNum = m.workerNum := by
  unfold scheduleDone
  cases m.phase with
  | map => dsimp only; split <;> rfl
  | reduce => dsimp only; split <;> rfl
  | finish => rfl

/-- In the reduce phase a report ends the job, or something is left. -/
theorem scheduleDone_left {m : Master} (hp : m.phase = .reduce) (w : Nat)
    (hp' : (m.scheduleDone w).phase = .reduce) :
    (m.scheduleDone w).rTask ≠ [] ∨ (m.scheduleDone w).held ≠ 0 := by
  unfold scheduleDone at hp' ⊢
  rw [hp] at hp' ⊢
  dsimp only at hp' ⊢
  split at hp'
  · cases hp'
  · rename_i hc
    rw [if_neg hc]
    exact not_and_or.mp hc

end Master

namespace World

/-- **What keeps a job going.** -/
structure Lively (nReduce : Nat) (s : World) : Prop where
  booked : Booked s
  early : s.master.phase = .map → s.master.rTask.length = nReduce
  ready : s.master.phase = .reduce → s.master.rTask ≠ [] ∨ s.master.held ≠ 0
  timed : ∀ w T, s.master.worker2task.lookup w = some T →
    ⟨s.master.phase.task, w, T.taskNum⟩ ∈ s.timers
  single : s.master.phase = .map → ∀ w T, s.master.worker2task.lookup w = some T →
    T.file.length = 1

theorem lively_init (files : List String) (nReduce : Nat) : Lively nReduce (init files nReduce) where
  booked := booked_init files nReduce
  early _ := List.length_range
  ready h := by cases h
  timed w T h := by
    rw [(booked_init files nReduce).free w rfl] at h
    cases h
  single _ w T h := by
    rw [(booked_init files nReduce).free w rfl] at h
    cases h

/-- Other timers than the one that fires stay. -/
theorem mem_timers_erase {timers : List Timer} {k : Nat} {timer x : Timer}
    (hk : timers[k]? = some timer) (hx : x ∈ timers) (hne : x ≠ timer) :
    x ∈ timers.eraseIdx k := by
  obtain ⟨i, hi⟩ := List.mem_iff_getElem?.mp hx
  refine List.mem_eraseIdx_iff_getElem?.mpr ⟨i, ?_, hi⟩
  rintro rfl
  rw [hk, Option.some.injEq] at hi
  exact hne hi.symm

/-- A worker is given a task, with a timer. -/
theorem Lively.assign {nReduce : Nat} {s : World} (h : Lively nReduce s) {w : Nat} {T : Task}
    {reply : TaskReply} {m : Master} {assigned : List (Nat × TaskReply)}
    (hb : Booked { s with
      master := m
      timers := s.timers ++ [⟨s.master.phase.task, w, T.taskNum⟩]
      workers := Function.update s.workers w (some reply)
      assigned := assigned })
    (hmap : m.worker2task = s.master.worker2task.insert w T) (hphase : m.phase = s.master.phase)
    (hearly : m.phase = .map → m.rTask = s.master.rTask)
    (hone : m.phase = .map → T.file.length = 1) :
    Lively nReduce { s with
      master := m
      timers := s.timers ++ [⟨s.master.phase.task, w, T.taskNum⟩]
      workers := Function.update s.workers w (some reply)
      assigned := assigned } where
  booked := hb
  early hp := by
    rw [hearly hp]
    exact h.early (hphase ▸ hp)
  ready _ := by
    refine Or.inr fun h0 => ?_
    have hnone := Master.held_eq_zero.mp h0 w
    rw [hmap, AList.lookup_insert] at hnone
    cases hnone
  timed v T' hv := by
    dsimp only at hv ⊢
    rw [hmap] at hv
    rw [hphase]
    rcases lookup_insert_some hv with ⟨rfl, rfl⟩ | ⟨_, hv⟩
    · exact List.mem_append_right _ (List.mem_singleton_self _)
    · exact List.mem_append_left _ (h.timed v T' hv)
  single hp v T' hv := by
    dsimp only at hp hv
    rw [hmap] at hv
    rcases lookup_insert_some hv with ⟨_, rfl⟩ | ⟨_, hv⟩
    · exact hone hp
    · exact h.single (hphase ▸ hp) v T' hv

/-- A worker reports. -/
theorem Lively.report {nReduce : Nat} (hn : 0 < nReduce) {s : World} (h : Lively nReduce s) {w : Nat}
    {reply : TaskReply}
    (hb : Booked { s with
      master := s.master.scheduleDone w
      workers := Function.update s.workers w none
      reported := s.reported ++ [(w, reply)] }) :
    Lively nReduce { s with
      master := s.master.scheduleDone w
      workers := Function.update s.workers w none
      reported := s.reported ++ [(w, reply)] } := by
  cases hp : s.master.phase with
  | map =>
      obtain ⟨phase, e, hph⟩ := Master.scheduleDone_map hp w
      rw [e] at hb ⊢
      refine ⟨hb, fun _ => h.early hp, fun hr => Or.inl ?_, fun v T hv => ?_,
        fun _ v T hv => h.single hp v T (lookup_erase_some hv).2⟩
      · intro h0
        have hlen := h.early hp
        rw [show s.master.rTask = [] from h0] at hlen
        exact absurd hlen (by simp; omega)
      · rcases hph with rfl | ⟨_, _, hnone⟩
        · have := h.timed v T (lookup_erase_some hv).2
          rw [hp] at this
          exact this
        · rw [hnone v] at hv
          cases hv
  | reduce =>
      have hleft := Master.scheduleDone_left hp w
      obtain ⟨phase, e, hph⟩ := Master.scheduleDone_reduce hp w
      rw [e] at hb hleft ⊢
      have hno : phase ≠ .map := by
        rcases hph with rfl | ⟨rfl, _⟩ <;> exact nofun
      refine ⟨hb, fun hm => absurd hm hno, hleft, fun v T hv => ?_, fun hm => absurd hm hno⟩
      rcases hph with rfl | ⟨_, _, hnone⟩
      · have := h.timed v T (lookup_erase_some hv).2
        rw [hp] at this
        exact this
      · rw [hnone v] at hv
        cases hv
  | finish =>
      rw [Master.scheduleDone_finish hp] at hb ⊢
      exact { h with booked := hb }

/-- The entry a timer is about does not outlive it. -/
theorem timeout_own {m : Master} {w : Nat} {T : Task} (hT : m.worker2task.lookup w = some T)
    (task : TaskType) : (m.timeout ⟨task, w, T.taskNum⟩).worker2task.lookup w = none := by
  unfold Master.timeout
  dsimp only
  rw [hT]
  dsimp only
  rw [if_pos rfl]
  split <;> exact AList.lookup_erase _ _

/-- A timer fires. -/
theorem Lively.timeout {nReduce : Nat} {s : World} (h : Lively nReduce s) {k : Nat} {timer : Timer}
    (hk : s.timers[k]? = some timer) (hg : timersApart s (.timeout k) = true)
    (hb : Booked { s with master := s.master.timeout timer, timers := s.timers.eraseIdx k }) :
    Lively nReduce
      { s with master := s.master.timeout timer, timers := s.timers.eraseIdx k } := by
  -- an entry that stays has a timer of its own
  have htimed : ∀ v T, s.master.worker2task.lookup v = some T →
      (s.master.timeout timer).worker2task.lookup v = some T →
      ⟨s.master.phase.task, v, T.taskNum⟩ ∈ s.timers.eraseIdx k := by
    intro v T hv hv'
    refine mem_timers_erase hk (h.timed v T hv) ?_
    rintro rfl
    rw [timeout_own hv] at hv'
    cases hv'
  rcases s.master.timeout_cases timer with e | ⟨T, hT, hnum, ⟨hmap, e⟩ | ⟨hmap, e⟩⟩
  · rw [e] at hb htimed ⊢
    exact ⟨hb, h.early, h.ready, fun v T hv => htimed v T hv hv, h.single⟩
  · rw [e] at hb htimed ⊢
    refine ⟨hb, h.early, fun hp => ?_, fun v T' hv => htimed v T' (lookup_erase_some hv).2 hv,
      fun hp v T' hv => h.single hp v T' (lookup_erase_some hv).2⟩
    -- the condition: a map timer finds nothing in the reduce phase
    have hp' : s.master.phase = .reduce := hp
    simp [timersApart, hk, hp', hmap, hT, hnum] at hg
  · rw [e] at hb htimed ⊢
    exact ⟨hb, fun hp => absurd (h.booked.timers hp timer (List.mem_of_getElem? hk)) hmap,
      fun _ => Or.inl (by simp), fun v T' hv => htimed v T' (lookup_erase_some hv).2 hv,
      fun hp v T' hv => h.single hp v T' (lookup_erase_some hv).2⟩

theorem lively_step {nReduce : Nat} (hn : 0 < nReduce) {s s' : World} {a : Action}
    (h : Lively nReduce s) (hg : timersApart s a = true) (hs : Move s a s') :
    Lively nReduce s' := by
  have hb := booked_step h.booked hs
  cases hs with
  | register => exact { h with booked := hb }
  | wait w _ => exact h
  | zero w hfree hphase hfiles hheld => exact { h with booked := hb }
  | map w rest file hfree hphase hfiles =>
      have htask : s.master.phase.task = .map := by rw [hphase]; rfl
      rw [← htask] at hb ⊢
      exact h.assign (T := ⟨s.master.mTask, [file]⟩) hb rfl rfl (fun _ => rfl) fun _ => rfl
  | reduce w rest r files hfree hphase hr hfiles =>
      have htask : s.master.phase.task = .reduce := by rw [hphase]; rfl
      rw [← htask] at hb ⊢
      have hno : s.master.phase ≠ .map := by rw [hphase]; decide
      exact h.assign (T := ⟨r, files⟩) hb rfl rfl (fun hp => absurd hp hno)
        fun hp => absurd hp hno
  | report w reply hbusy => exact h.report hn hb
  | timeout k timer hk => exact h.timeout hk hg hb

theorem lively_reach {files : List String} {nReduce : Nat} (hn : 0 < nReduce) {s : World}
    (h : Reach step (fun s a => timersApart s a = true) (init files nReduce) s) :
    Lively nReduce s :=
  Reach.inv (lively_init files nReduce) (fun _ _ _ ih hg hs => lively_step hn ih hg (move_of_step hs)) h

theorem workerNum_step {s s' : World} {a : Action} (hs : Move s a s') :
    s.master.workerNum ≤ s'.master.workerNum := by
  cases hs with
  | register => exact Nat.le_succ _
  | report w reply _ => exact Nat.le_of_eq Master.scheduleDone_workerNum.symm
  | timeout k timer _ =>
      rcases s.master.timeout_cases timer with e | ⟨_, _, _, ⟨_, e⟩ | ⟨_, e⟩⟩ <;> rw [e]
  | _ => exact Nat.le_refl _

/-- Only who has registered is ever busy. -/
theorem known_reach {G : World → Action → Prop} {files : List String} {nReduce : Nat} {s : World}
    (h : Reach step G (init files nReduce) s) {w : Nat} (hw : s.master.workerNum ≤ w) :
    s.workers w = none := by
  induction h with
  | start => rfl
  | move s s' a _ _ hs ih =>
      have hold := ih (Nat.le_trans (workerNum_step (move_of_step hs)) hw)
      cases a with
      | register =>
          cases Option.some.inj hs
          exact hold
      | ask v =>
          simp only [step, ask] at hs
          split at hs
          · rename_i hv
            cases Option.some.inj hs
            dsimp only
            split
            · exact hold
            · have hle := Nat.le_trans (workerNum_step (move_of_ask (if_pos hv))) hw
              rw [Function.update_of_ne (by omega)]
              exact hold
          · cases hs
      | report v =>
          cases move_of_step hs with
          | report v reply _ =>
              by_cases hwv : w = v
              · rw [hwv]
                exact Function.update_self _ _ _
              · exact (Function.update_of_ne hwv _ _).trans hold
      | timeout k =>
          cases move_of_step hs with
          | timeout k timer _ => exact hold

/-! ## 2. One worker, and the timers -/

/-- Only the worker `w` moves, timers fire when it is free, and new workers may register. -/
def Alone (w : Nat) (s : World) (a : Action) : Prop :=
  timersApart s a = true ∧
    (a = .register ∨ a = .ask w ∨ a = .report w ∨ s.workers w = none ∧ ∃ k, a = .timeout k)

theorem lively_run {nReduce : Nat} (hn : 0 < nReduce) {w : Nat} {s s' : World}
    (h : Lively nReduce s) (hr : Reach step (Alone w) s s') : Lively nReduce s' :=
  Reach.inv h (fun _ _ _ ih hg hs => lively_step hn ih hg.1 (move_of_step hs)) hr

end World

/-- **How much is left to do**, tasks that are held twice. -/
def Master.toDo (nReduce : Nat) (m : Master) : Nat :=
  match m.phase with
  | .map => nReduce + 1 + m.files.length + 2 * m.held
  | .reduce => m.rTask.length + 2 * m.held
  | .finish => 0

namespace Master

variable {m : Master} {w nReduce : Nat}

/-- The last report of a phase, or one that leaves nothing held. -/
theorem toDo_done_map (hp : m.phase = .map) (hr : m.rTask.length = nReduce)
    (h0 : (m.worker2task.erase w).keys.length = 0) :
    (m.scheduleDone w).toDo nReduce =
      if m.files = [] then nReduce else nReduce + 1 + m.files.length := by
  unfold scheduleDone
  rw [hp]
  simp only [held, h0, and_true]
  split
  · simp only [toDo, held, h0, hr, Nat.mul_zero, Nat.add_zero]
  · simp only [toDo, held, h0, Nat.mul_zero, Nat.add_zero]

theorem toDo_done_reduce (hp : m.phase = .reduce) (h0 : (m.worker2task.erase w).keys.length = 0) :
    (m.scheduleDone w).toDo nReduce = m.rTask.length := by
  unfold scheduleDone
  rw [hp]
  simp only [held, h0, and_true]
  split
  · rename_i hnil
    rw [hnil]
    rfl
  · simp only [toDo, held, h0, Nat.mul_zero, Nat.add_zero]

end Master

namespace World

/-- A worker that is free asks, gets a task and reports it. -/
theorem ask_report {s : World} {w : Nat} (hw : w < s.master.workerNum) (hfree : s.workers w = none)
    {m : Master} {reply : TaskReply} {timer : Option Timer}
    (e : s.master.scheduleTask w = (m, reply, timer)) (hidle : reply.task ≠ .idle) :
    ∃ s', Reach step (Alone w) s s' ∧ s'.workers w = none ∧ s'.master = m.scheduleDone w := by
  let s₁ : World := { s with
    master := m
    timers := s.timers ++ timer.toList
    workers := Function.update s.workers w (some reply)
    assigned := s.assigned ++ timer.toList.map fun _ => (w, reply) }
  let s₂ : World := { s₁ with
    master := m.scheduleDone w
    workers := Function.update s₁.workers w none
    reported := s₁.reported ++ [(w, reply)] }
  have hask : s.step (.ask w) = some s₁ := by
    simp only [step, ask, e, hfree, hw, hidle, if_false, Option.isNone_none, and_self, if_true, s₁]
  have hreport : s₁.step (.report w) = some s₂ := by
    have hbusy : s₁.workers w = some reply := Function.update_self _ _ _
    simp only [step, report, hbusy, s₂]
    rfl
  exact ⟨s₂, .move _ _ (.report w) (.move _ _ (.ask w) .start ⟨rfl, Or.inr (Or.inl rfl)⟩ hask)
    ⟨rfl, Or.inr (Or.inr (Or.inl rfl))⟩ hreport, Function.update_self _ _ _, rfl⟩

/-- The timer of a task that is held gives it back. -/
theorem taken_back {nReduce : Nat} {s : World} (h : Lively nReduce s) {w : Nat}
    (hfree : s.workers w = none) (hw : w < s.master.workerNum) (hheld : s.master.held ≠ 0) :
    ∃ s', Reach step (Alone w) s s' ∧ w < s'.master.workerNum ∧ s'.workers w = none ∧
      s'.master.toDo nReduce < s.master.toDo nReduce := by
  obtain ⟨v, T, hv⟩ := Master.exists_of_held hheld
  obtain ⟨k, hk⟩ := List.mem_iff_getElem?.mp (h.timed v T hv)
  have hstep : s.step (.timeout k) = some { s with
      master := s.master.timeout ⟨s.master.phase.task, v, T.taskNum⟩
      timers := s.timers.eraseIdx k } := by
    simp only [step, timeout, hk]
  have hcount := Master.held_erase hv
  cases hp : s.master.phase with
  | finish =>
      rw [h.booked.finish hp v] at hv
      cases hv
  | map =>
      have hm : s.master.timeout ⟨s.master.phase.task, v, T.taskNum⟩ = { s.master with
          files := s.master.files ++ T.file
          worker2task := s.master.worker2task.erase v } := by
        simp only [Master.timeout, hv, if_true, hp, Phase.task]
      rw [hm] at hstep
      refine ⟨_, .move _ _ (.timeout k) .start ⟨?_, Or.inr (Or.inr (Or.inr ⟨hfree, k, rfl⟩))⟩ hstep,
        hw, hfree, ?_⟩
      · simp only [timersApart, hk, hp, decide_true, Bool.true_or]
      · have hone := h.single hp v T hv
        simp only [Master.toDo, hp, List.length_append, Master.held] at hcount ⊢
        omega
  | reduce =>
      have hm : s.master.timeout ⟨s.master.phase.task, v, T.taskNum⟩ = { s.master with
          rTask := s.master.rTask ++ [T.taskNum]
          worker2task := s.master.worker2task.erase v } := by
        simp only [Master.timeout, hv, if_true, hp, Phase.task]
      rw [hm] at hstep
      refine ⟨_, .move _ _ (.timeout k) .start ⟨?_, Or.inr (Or.inr (Or.inr ⟨hfree, k, rfl⟩))⟩ hstep,
        hw, hfree, ?_⟩
      · simp [timersApart, hk, hp, Phase.task]
      · simp only [Master.toDo, hp, List.length_append, List.length_singleton, Master.held] at hcount ⊢
        omega

/-- A free worker does what waits, when nothing is held. -/
theorem works_off {nReduce : Nat} {s : World} (h : Lively nReduce s) {w : Nat}
    (hfree : s.workers w = none) (hw : w < s.master.workerNum) (hheld : s.master.held = 0)
    (hp : s.master.phase ≠ .finish) :
    ∃ s', Reach step (Alone w) s s' ∧ w < s'.master.workerNum ∧ s'.workers w = none ∧
      s'.master.toDo nReduce < s.master.toDo nReduce := by
  have hempty : s.master.worker2task.keys = [] := List.eq_nil_of_length_eq_zero hheld
  -- after the report nobody holds anything, as before
  have hback : ∀ T, ((s.master.worker2task.insert w T).erase w).keys.length = 0 := by
    intro T
    rw [AList.keys_erase, AList.keys_insert, hempty]
    simp
  cases hphase : s.master.phase with
  | finish => exact absurd hphase hp
  | map =>
      have hlen := h.early hphase
      rcases List.eq_nil_or_concat s.master.files with hf | ⟨rest, file, hf⟩
      · -- the list of files was empty: a reply nobody has written to ends the phase
        have e : s.master.scheduleTask w = (s.master, .zero, none) := by
          simp [Master.scheduleTask, hphase, hf, hheld]
        obtain ⟨s', hr, hfree', hm⟩ := ask_report hw hfree e fun h => by cases h
        have h0 : (s.master.worker2task.erase w).keys.length = 0 := by
          rw [AList.keys_erase, hempty]
          rfl
        refine ⟨s', hr, by rw [hm, Master.scheduleDone_workerNum]; exact hw, hfree', ?_⟩
        rw [hm, Master.toDo_done_map hphase hlen h0, if_pos hf]
        simp only [Master.toDo, hphase]
        omega
      · rw [List.concat_eq_append] at hf
        have e : s.master.scheduleTask w = ({ s.master with
            files := rest
            worker2task := s.master.worker2task.insert w ⟨s.master.mTask, [file]⟩
            mTask := s.master.mTask + 1 },
            ⟨.map, s.master.mTask, [file], s.master.nReduce⟩, some ⟨.map, w, s.master.mTask⟩) := by
          simp [Master.scheduleTask, hphase, hf]
        obtain ⟨s', hr, hfree', hm⟩ := ask_report hw hfree e fun h => by cases h
        refine ⟨s', hr, by rw [hm, Master.scheduleDone_workerNum]; exact hw, hfree', ?_⟩
        rw [hm, Master.toDo_done_map (by exact hphase) (by exact hlen) (hback _)]
        simp only [Master.toDo, hphase, hf, List.length_append, List.length_singleton]
        split <;> omega
  | reduce =>
      rcases List.eq_nil_or_concat s.master.rTask with hr | ⟨rest, r, hr⟩
      · exact absurd (h.ready hphase) (by simp [hr, hheld])
      · rw [List.concat_eq_append] at hr
        have e : s.master.scheduleTask w = ({ s.master with
            worker2task := s.master.worker2task.insert w
              ⟨r, s.master.validTask.map fun taskNum => Master.reduceFile taskNum r⟩
            rTask := rest },
            ⟨.reduce, r, s.master.validTask.map fun taskNum => Master.reduceFile taskNum r, 0⟩,
            some ⟨.reduce, w, r⟩) := by
          simp [Master.scheduleTask, hphase, hr]
        obtain ⟨s', hrun, hfree', hm⟩ := ask_report hw hfree e fun h => by cases h
        refine ⟨s', hrun, by rw [hm, Master.scheduleDone_workerNum]; exact hw, hfree', ?_⟩
        rw [hm, Master.toDo_done_reduce (by exact hphase) (hback _)]
        simp only [Master.toDo, hphase, hr, List.length_append, List.length_singleton]
        omega

/-- **As long as the job is not done, there is less to do after some steps.** -/
theorem less_to_do {nReduce : Nat} {s : World} (h : Lively nReduce s) {w : Nat}
    (hfree : s.workers w = none) (hw : w < s.master.workerNum) (hp : s.master.phase ≠ .finish) :
    ∃ s', Reach step (Alone w) s s' ∧ w < s'.master.workerNum ∧ s'.workers w = none ∧
      s'.master.toDo nReduce < s.master.toDo nReduce := by
  by_cases hheld : s.master.held = 0
  · exact works_off h hfree hw hheld hp
  · exact taken_back h hfree hw hheld

theorem finishes {nReduce : Nat} (hn : 0 < nReduce) {w k : Nat} : ∀ {s : World},
    s.master.toDo nReduce = k → Lively nReduce s → s.workers w = none → w < s.master.workerNum →
    ∃ s', Reach step (Alone w) s s' ∧ s'.master.done = true := by
  induction k using Nat.strong_induction_on with
  | _ k ih =>
      intro s hk h hfree hw
      by_cases hp : s.master.phase = .finish
      · exact ⟨s, .start, decide_eq_true hp⟩
      · obtain ⟨s₁, hrun, hw₁, hfree₁, hlt⟩ := less_to_do h hfree hw hp
        obtain ⟨s₂, hrun₂, hdone⟩ := ih _ (hk ▸ hlt) rfl (lively_run hn h hrun) hfree₁ hw₁
        exact ⟨s₂, hrun.trans hrun₂, hdone⟩

/-- **A job can always be finished**: from every state that a job with at least one reduce task can
    be in, whichever workers have crashed or hang, one new worker that registers, asks and reports
    can bring it to its end alone, with the timers. -/
theorem one_worker_finishes {files : List String} {nReduce : Nat} (hn : 0 < nReduce) {s : World}
    (h : Reach step (fun s a => timersApart s a = true) (init files nReduce) s) :
    ∃ s', Reach step (Alone s.master.workerNum) s s' ∧ s'.master.done = true := by
  have hl := lively_reach hn h
  have hreg : s.step .register = some { s with master := s.master.register } := rfl
  have hrun : Reach step (Alone s.master.workerNum) s { s with master := s.master.register } :=
    .move _ _ .register .start ⟨rfl, Or.inl rfl⟩ hreg
  obtain ⟨s', hrun', hdone⟩ := finishes hn rfl (lively_run hn hl hrun)
    (w := s.master.workerNum) (known_reach h (Nat.le_refl _)) (Nat.lt_succ_self _)
  exact ⟨s', hrun.trans hrun', hdone⟩

/-- Worker 0 is gone, its file was given to worker 1; worker 1 is gone with a reduce task. -/
theorem one_worker_finishes_crashed : ∃ s : World, s.master.phase = .reduce ∧
    s.master.held = 1 ∧ ∃ s', Reach step (Alone 2) s s' ∧ s'.master.done = true := by
  have run : (exec step timersApart (init ["a"] 2)
      [.register, .register, .ask 0, .timeout 0, .ask 1, .report 1, .ask 1]).any (fun s =>
        decide (s.master.phase = .reduce ∧ s.master.held = 1 ∧ s.master.workerNum = 2)) = true := by
    decide +kernel
  obtain ⟨s, hr, hv⟩ := exists_of_exec run
  obtain ⟨hp, hh, hw⟩ := of_decide_eq_true hv
  exact ⟨s, hp, hh, hw ▸ one_worker_finishes (by decide) hr⟩

/-! ## 3. Without the condition -/

/-- In the reduce phase nothing waits and nothing is held, and only `v` is busy. -/
structure Stuck (v : Nat) (s : World) : Prop where
  phase : s.master.phase = .reduce
  rTask : s.master.rTask = []
  held : ∀ w, s.master.worker2task.lookup w = none
  busy : ∀ w, w ≠ v → s.workers w = none

theorem stuck_step {v : Nat} {s s' : World} {a : Action} (h : Stuck v s) (ha : a ≠ .report v)
    (hs : Move s a s') : Stuck v s' := by
  cases hs with
  | register => exact ⟨h.phase, h.rTask, h.held, h.busy⟩
  | wait w _ => exact h
  | zero w _ hphase _ _ =>
      rw [h.phase] at hphase
      cases hphase
  | map w rest file _ hphase _ =>
      rw [h.phase] at hphase
      cases hphase
  | reduce w rest r files _ _ hr _ =>
      rw [h.rTask] at hr
      exact absurd hr.symm (by simp)
  | report w reply hbusy =>
      rw [h.busy w fun e => ha (by rw [e])] at hbusy
      cases hbusy
  | timeout k timer _ =>
      have hm : s.master.timeout timer = s.master := by
        simp only [Master.timeout, h.held]
      rw [hm]
      exact ⟨h.phase, h.rTask, h.held, h.busy⟩

/-- **Stuck for ever.** The timer of its map task takes the reduce task 0 from worker 0; if worker 0
    has crashed over it, no other worker is ever given anything, and `Done` never returns true. -/
theorem never_done : ∃ s, Reach step AnyStep (init ["a"] 1) s ∧
    ∀ s', Reach step (fun _ a => a ≠ .report 0) s s' → s'.master.done = false := by
  have run : (exec step (fun _ _ => true) (init ["a"] 1)
      [.register, .ask 0, .report 0, .ask 0, .timeout 0]).any (fun s =>
        decide (s.master.phase = .reduce ∧ s.master.rTask = [] ∧ s.master.held = 0 ∧
          s.master.workerNum = 1)) = true := by
    decide +kernel
  obtain ⟨s, hr, hv⟩ := exists_of_run run
  obtain ⟨hp, hrt, hh, hw⟩ := of_decide_eq_true hv
  refine ⟨s, hr, fun s' hr' => ?_⟩
  have hstuck : Stuck 0 s' :=
    Reach.inv ⟨hp, hrt, Master.held_eq_zero.mp hh, fun w hw0 => known_reach hr (by omega)⟩
      (fun _ _ _ ih hg hs => stuck_step ih hg (move_of_step hs)) hr'
  simp only [Master.done, hstuck.phase]
  decide

end World

end Mit6824.Mr
