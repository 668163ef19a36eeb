/-
  File:      Mit6824/Mr/ReducePhase.lean
  Subject:   THE REDUCE PHASE (mr/master.go lines 80-126, 169-202): no reduce task is lost, as long
             as no timer of the map phase meets a reduce task with its number.

  * `Completed` -- a worker that was assigned the reduce task has reported it;
  * `timersApart` -- a map timer that fires after the map phase does not find the number it looks
    for; `all_reduced`: then every reduce task is waiting, held or completed, and `Done` means
    that all are completed;
  * `reduce_task_lost` -- the numbers of the two phases overlap, and a map timer that meets its
    own number among the reduce tasks takes that task off the books for good.
-/
import Mit6824.Mr.MapPhase

namespace Mit6824.Mr.World

open Lib

/-! ## 1. The books of the reduce phase -/

/-- The reduce task `r` was reported complete by a worker that had been assigned it. -/
def Completed (s : World) (r : Nat) : Prop :=
  ∃ w reply, (w, reply) ∈ s.assigned ∧ reply.task = .reduce ∧ reply.taskNum = r ∧
    (w, reply) ∈ s.reported

theorem Completed.grows {s s' : World} {r : Nat} (h : Completed s r) (hg : Grows s s') :
    Completed s' r := by
  obtain ⟨w, reply, h1, h2, h3, h4⟩ := h
  exact ⟨w, reply, hg.assigned _ h1, h2, h3, hg.reported _ h4⟩

/-- `r` is the reduce task of some worker. -/
def Reducing (s : World) (r : Nat) : Prop :=
  ∃ w T, s.master.worker2task.lookup w = some T ∧ T.taskNum = r

/-- `r` waits in `RTask`, is held, or is completed. -/
def Pending (s : World) (r : Nat) : Prop :=
  (s.master.phase ≠ .finish ∧ r ∈ s.master.rTask) ∨
    (s.master.phase = .reduce ∧ Reducing s r) ∨ Completed s r

/-- **The condition**: a map timer that fires after the map phase does not find its number in the
    hands of its worker. -/
def timersApart (s : World) : Action → Bool
  | .timeout k =>
      match s.timers[k]? with
      | some timer =>
          decide (s.master.phase = .map) || decide (timer.task ≠ .map) ||
            (s.master.worker2task.lookup timer.workerId).all
              fun T => decide (T.taskNum ≠ timer.taskNum)
      | none => true
  | _ => true

/-! ## 2. Every reduce task is kept -/

theorem pending_waiting {s s' : World} {a : Action} {r : Nat} (hp : s.master.phase ≠ .finish)
    (hr : r ∈ s.master.rTask) (hs : Move s a s') : Pending s' r := by
  cases hs with
  | register => exact Or.inl ⟨hp, hr⟩
  | wait w _ => exact Or.inl ⟨hp, hr⟩
  | zero w _ _ _ _ => exact Or.inl ⟨hp, hr⟩
  | map w rest file _ _ _ => exact Or.inl ⟨hp, hr⟩
  | reduce w rest r' files _ hphase hr' _ =>
      rw [hr'] at hr
      rcases List.mem_append.mp hr with hr | hr
      · exact Or.inl ⟨hp, hr⟩
      · rw [List.mem_singleton.mp hr]
        exact Or.inr (Or.inl ⟨hphase, w, _, AList.lookup_insert _, rfl⟩)
  | report w reply _ =>
      refine Or.inl ?_
      cases hp' : s.master.phase with
      | map =>
          obtain ⟨phase, e, hph⟩ := Master.scheduleDone_map hp' w
          rw [e]
          rcases hph with rfl | ⟨rfl, _⟩ <;> exact ⟨nofun, hr⟩
      | reduce =>
          obtain ⟨phase, e, hph⟩ := Master.scheduleDone_reduce hp' w
          rw [e]
          rcases hph with rfl | ⟨_, hnil, _⟩
          · exact ⟨nofun, hr⟩
          · rw [hnil] at hr
            cases hr
      | finish => exact absurd hp' hp
  | timeout k timer _ =>
      refine Or.inl ?_
      rcases s.master.timeout_cases timer with e | ⟨T, _, _, ⟨_, e⟩ | ⟨_, e⟩⟩ <;> rw [e]
      · exact ⟨hp, hr⟩
      · exact ⟨hp, hr⟩
      · exact ⟨hp, List.mem_append_left _ hr⟩

theorem pending_held {s s' : World} {a : Action} {r : Nat} (hb : Booked s)
    (hp : s.master.phase = .reduce) (hh : Reducing s r) (hg : timersApart s a = true)
    (hs : Move s a s') : Pending s' r := by
  obtain ⟨v, T, hv, hT⟩ := hh
  cases hs with
  | register => exact Or.inr (Or.inl ⟨hp, v, T, hv, hT⟩)
  | wait w _ => exact Or.inr (Or.inl ⟨hp, v, T, hv, hT⟩)
  | zero w _ hphase _ _ =>
      rw [hp] at hphase
      cases hphase
  | map w rest file _ hphase _ =>
      rw [hp] at hphase
      cases hphase
  | reduce w rest r' files hfree _ _ _ =>
      have hvw := hb.ne_of_free hv hfree
      exact Or.inr (Or.inl ⟨hp, v, T, by rwa [AList.lookup_insert_ne hvw], hT⟩)
  | report w reply hbusy =>
      obtain ⟨phase, e, hph⟩ := Master.scheduleDone_reduce hp w
      by_cases hvw : v = w
      · -- its own worker reports it
        subst hvw
        obtain ⟨hass, htask, hnum, _⟩ := hb.reply_held hv hbusy
        refine Or.inr (Or.inr ⟨v, reply, hass, ?_, hnum.trans hT, by simp⟩)
        rw [htask, hp]
        rfl
      · have hv' : (s.master.worker2task.erase w).lookup v = some T := by
          rwa [AList.lookup_erase_ne hvw]
        rcases hph with rfl | ⟨_, _, hnone⟩
        · exact Or.inr (Or.inl (by rw [e]; exact ⟨rfl, v, T, hv', hT⟩))
        · rw [hnone v] at hv'
          cases hv'
  | timeout k timer hk =>
      rcases s.master.timeout_cases timer with e | ⟨T', hT', hnum, ⟨hmap, _⟩ | ⟨_, e⟩⟩
      · exact Or.inr (Or.inl (by rw [e]; exact ⟨hp, v, T, hv, hT⟩))
      · -- a map timer that finds its number: the condition excludes it
        simp [timersApart, hk, hp, hmap, hT', hnum] at hg
      · rw [e]
        by_cases hvw : v = timer.workerId
        · subst hvw
          rw [hT'] at hv
          cases hv
          exact Or.inl ⟨by rw [hp]; decide, by simp [hT]⟩
        · exact Or.inr (Or.inl ⟨hp, v, T, by rwa [AList.lookup_erase_ne hvw], hT⟩)

/-- **The step lemma.** -/
theorem pending_step {s s' : World} {a : Action} {r : Nat} (hb : Booked s) (h : Pending s r)
    (hg : timersApart s a = true) (hs : Move s a s') : Pending s' r := by
  rcases h with ⟨hp, hr⟩ | ⟨hp, hh⟩ | hc
  · exact pending_waiting hp hr hs
  · exact pending_held hb hp hh hg hs
  · exact Or.inr (Or.inr (hc.grows hs.grows))

theorem pending_reach {files : List String} {nReduce : Nat} {s : World}
    (h : Reach step (fun s a => timersApart s a = true) (init files nReduce) s) (r : Nat)
    (hr : r < nReduce) : Pending s r := by
  induction h with
  | start => exact Or.inl ⟨nofun, List.mem_range.mpr hr⟩
  | move s s' a hrun hg hs ih => exact pending_step (booked_reach hrun) ih hg (move_of_step hs)

/-! ## 3. Done -/

/-- **The job is done only when every reduce task is done**: in the reduce phase each one waits
    in `RTask`, is the task of a worker in `Worker2task`, or was reported complete by a worker
    that had been assigned it; and when `Done` returns true all were. -/
structure AllReduced (nReduce : Nat) (s : World) : Prop where
  kept : s.master.phase = .reduce →
    ∀ r < nReduce, r ∈ s.master.rTask ∨ Reducing s r ∨ Completed s r
  done : s.master.done = true → ∀ r < nReduce, Completed s r

theorem all_reduced {files : List String} {nReduce : Nat} {s : World}
    (h : Reach step (fun s a => timersApart s a = true) (init files nReduce) s) :
    AllReduced nReduce s := by
  refine ⟨fun _ r hr => ?_, fun hd r hr => ?_⟩
  · rcases pending_reach h r hr with ⟨_, hw⟩ | ⟨_, hh⟩ | hc
    · exact Or.inl hw
    · exact Or.inr (Or.inl hh)
    · exact Or.inr (Or.inr hc)
  · have hfin : s.master.phase = .finish := of_decide_eq_true hd
    rcases pending_reach h r hr with ⟨hp, _⟩ | ⟨hp, _⟩ | hc
    · exact absurd hfin hp
    · rw [hfin] at hp
      cases hp
    · exact hc

/-- One file, two reduce tasks, and a reduce task that a timer hands to a second worker. -/
theorem all_reduced_retried :
    ∃ s : World, s.master.done = true ∧ ∀ r < 2, Completed s r := by
  have run : (exec step timersApart (init ["a"] 2)
      [.register, .register, .ask 0, .report 0, .ask 0, .timeout 1, .ask 1, .report 1, .ask 1,
        .report 1]).any (fun s => s.master.done) = true := by
    decide +kernel
  obtain ⟨s, hr, hd⟩ := exists_of_exec run
  exact ⟨s, hd, (all_reduced hr).done hd⟩

/-- **A map timer loses a reduce task.** Worker 0 maps the only file as task 0 and then gets the
    reduce task 0; the timer of its map task finds the number 0 and takes the reduce task off
    the books, to `Files`. When worker 1 reports the other one, the job is done. -/
theorem reduce_task_lost :
    ∃ s, Reach step AnyStep (init ["a"] 2) s ∧ s.master.done = true ∧ ¬ AllReduced 2 s := by
  have run : (exec step (fun _ _ => true) (init ["a"] 2)
      [.register, .register, .ask 0, .report 0, .ask 1, .ask 0, .timeout 0, .report 1]).any
      (fun s => decide (s.master.done = true ∧
        s.reported.all fun x => decide (x.2.task = .map ∨ x.2.taskNum = 1))) = true := by
    decide +kernel
  obtain ⟨s, hr, hv⟩ := exists_of_run run
  obtain ⟨hd, hrep⟩ := of_decide_eq_true hv
  refine ⟨s, hr, hd, fun h => ?_⟩
  obtain ⟨w, reply, _, htask, hnum, hin⟩ := h.done hd 0 (by decide)
  have := of_decide_eq_true (List.all_eq_true.mp hrep _ hin)
  rw [htask, hnum] at this
  rcases this with h | h <;> cases h

end Mit6824.Mr.World
