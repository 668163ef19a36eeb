/-
  File:      Mit6824/Mr/MapPhase.lean
  Subject:   THE MAP PHASE (mr/master.go lines 37-79): no input file is lost; none is counted
             twice as long as no report comes late.

  * `Booked` -- what `Worker2task` holds is what its worker is busy with; holds in every run;
  * `no_input_lost` -- **every entry of the file list is in `Files`, held, or done**, and done
    when the map phase is over;
  * `Place`, `At` -- where an entry is; `Apart`: it is at one place only;
  * `reportsHeld` -- a report comes while the master still has the worker's task;
    `counts_once`: then `ValidTask` names every entry at most once;
  * `counted_twice` -- a report that comes after its timer breaks this.
-/
import Mit6824.Mr.Master

namespace Mit6824.Mr

open Lib

/-! ## 1. What the master has on its books -/

/-- The type of the tasks of a phase. -/
def Phase.task : Phase → TaskType
  | .map => .map
  | .reduce => .reduce
  | .finish => .reduce

namespace World

/-- **The books of the master agree with its workers.** -/
structure Booked (s : World) : Prop where
  free : ∀ w, s.workers w = none → s.master.worker2task.lookup w = none
  held : ∀ w T, s.master.worker2task.lookup w = some T → ∃ reply, s.workers w = some reply ∧
    (w, reply) ∈ s.assigned ∧ reply.task = s.master.phase.task ∧
    reply.taskNum = T.taskNum ∧ reply.file = T.file
  finish : s.master.phase = .finish → ∀ w, s.master.worker2task.lookup w = none
  timers : s.master.phase = .map → ∀ timer ∈ s.timers, timer.task = .map

theorem lookup_erase_some {m : AList fun _ : Nat => Task} {w v : Nat} {T : Task}
    (h : (m.erase w).lookup v = some T) : v ≠ w ∧ m.lookup v = some T := by
  by_cases hv : v = w
  · subst hv
    rw [AList.lookup_erase] at h
    cases h
  · exact ⟨hv, by rwa [AList.lookup_erase_ne hv] at h⟩

theorem lookup_erase_none {m : AList fun _ : Nat => Task} {w v : Nat}
    (h : v ≠ w → m.lookup v = none) : (m.erase w).lookup v = none := by
  by_cases hv : v = w
  · subst hv
    exact AList.lookup_erase _ _
  · rw [AList.lookup_erase_ne hv]
    exact h hv

theorem lookup_insert_some {m : AList fun _ : Nat => Task} {w v : Nat} {T T' : Task}
    (h : (m.insert w T').lookup v = some T) : (v = w ∧ T = T') ∨ v ≠ w ∧ m.lookup v = some T := by
  by_cases hv : v = w
  · subst hv
    rw [AList.lookup_insert] at h
    exact Or.inl ⟨rfl, (Option.some.inj h).symm⟩
  · exact Or.inr ⟨hv, by rwa [AList.lookup_insert_ne hv] at h⟩

/-- A worker that holds a task is not a free one. -/
theorem Booked.ne_of_free {s : World} (h : Booked s) {v w : Nat} {T : Task}
    (hv : s.master.worker2task.lookup v = some T) (hfree : s.workers w = none) : v ≠ w := by
  intro e
  rw [e, h.free w hfree] at hv
  cases hv

/-- What a worker is busy with is what it holds. -/
theorem Booked.reply_held {s : World} (h : Booked s) {w : Nat} {T : Task} {reply : TaskReply}
    (hT : s.master.worker2task.lookup w = some T) (hbusy : s.workers w = some reply) :
    (w, reply) ∈ s.assigned ∧ reply.task = s.master.phase.task ∧ reply.taskNum = T.taskNum ∧
      reply.file = T.file := by
  obtain ⟨reply', hbusy', hrest⟩ := h.held w T hT
  rw [hbusy, Option.some.injEq] at hbusy'
  rw [hbusy']
  exact hrest

theorem booked_init (files : List String) (nReduce : Nat) : Booked (init files nReduce) where
  free _ _ := AList.lookup_empty _
  held w T h := by
    have h0 : (∅ : AList fun _ : Nat => Task).lookup w = some T := h
    rw [AList.lookup_empty] at h0
    cases h0
  finish h := by cases h
  timers _ _ ht := by cases ht

/-- A task is booked for a free worker. -/
theorem Booked.assign {s s' : World} (h : Booked s) {w : Nat} {T : Task} {reply : TaskReply}
    (hmap : s'.master.worker2task = s.master.worker2task.insert w T)
    (hphase : s'.master.phase = s.master.phase)
    (hworkers : s'.workers = Function.update s.workers w (some reply))
    (hass : s'.assigned = s.assigned ++ [(w, reply)])
    (htask : reply.task = s.master.phase.task) (hnum : reply.taskNum = T.taskNum)
    (hfile : reply.file = T.file) (hfin : s.master.phase ≠ .finish)
    (htimers : s.master.phase = .map → ∀ timer ∈ s'.timers, timer.task = .map) : Booked s' where
  free v hv := by
    rw [hworkers] at hv
    by_cases hvw : v = w
    · subst hvw
      rw [Function.update_self] at hv
      cases hv
    · rw [Function.update_of_ne hvw] at hv
      rw [hmap, AList.lookup_insert_ne hvw]
      exact h.free v hv
  held v T' hv := by
    rw [hmap] at hv
    rw [hworkers, hass, hphase]
    rcases lookup_insert_some hv with ⟨rfl, rfl⟩ | ⟨hvw, hv⟩
    · exact ⟨reply, Function.update_self _ _ _, by simp, htask, hnum, hfile⟩
    · obtain ⟨r, h1, h2, h3⟩ := h.held v T' hv
      exact ⟨r, by rwa [Function.update_of_ne hvw], List.mem_append_left _ h2, h3⟩
  finish hf := absurd (hphase ▸ hf) hfin
  timers hm := htimers (hphase ▸ hm)

/-- The task of a worker, if there is one, is taken off the books. -/
theorem Booked.release {s s' : World} (h : Booked s) {w : Nat}
    (hmap : s'.master.worker2task = s.master.worker2task.erase w)
    (hphase : s'.master.phase = s.master.phase ∨ ∀ v, s'.master.worker2task.lookup v = none)
    (hmono : s'.master.phase = .map → s.master.phase = .map)
    (hworkers : ∀ v, v ≠ w → s'.workers v = s.workers v) (hass : s'.assigned = s.assigned)
    (htimers : ∀ timer ∈ s'.timers, timer ∈ s.timers) : Booked s' where
  free v hv := by
    rw [hmap]
    exact lookup_erase_none fun hvw => h.free v (by rwa [hworkers v hvw] at hv)
  held v T hv := by
    rcases hphase with hphase | hnone
    · rw [hmap] at hv
      obtain ⟨hvw, hv⟩ := lookup_erase_some hv
      rw [hworkers v hvw, hass, hphase]
      exact h.held v T hv
    · rw [hnone v] at hv
      cases hv
  finish hf v := by
    rcases hphase with hphase | hnone
    · rw [hmap]
      exact lookup_erase_none fun _ => h.finish (hphase ▸ hf) v
    · exact hnone v
  timers hm timer ht := h.timers (hmono hm) timer (htimers timer ht)

theorem booked_step {s s' : World} {a : Action} (h : Booked s) (hs : Move s a s') : Booked s' := by
  cases hs with
  | register => exact { h with }
  | wait w _ => exact h
  | zero w hfree hphase hfiles hheld =>
      refine ⟨fun v _ => hheld v, fun v T hv => ?_, h.finish, h.timers⟩
      have hv' : s.master.worker2task.lookup v = some T := hv
      rw [hheld v] at hv'
      cases hv'
  | map w rest file hfree hphase hfiles =>
      refine h.assign rfl rfl rfl rfl ?_ rfl rfl (by rw [hphase]; decide) fun hm timer ht => ?_
      · rw [hphase]
        rfl
      · rcases List.mem_append.mp ht with ht | ht
        · exact h.timers hm timer ht
        · rw [List.mem_singleton.mp ht]
  | reduce w rest r files hfree hphase hr _ =>
      refine h.assign rfl rfl rfl rfl ?_ rfl rfl (by rw [hphase]; decide) fun hm => ?_
      · rw [hphase]
        rfl
      · rw [hphase] at hm
        cases hm
  | report w reply hbusy =>
      have others : ∀ v, v ≠ w → Function.update s.workers w none v = s.workers v :=
        fun v hv => Function.update_of_ne hv _ _
      cases hp : s.master.phase with
      | map =>
          obtain ⟨phase, e, hph⟩ := Master.scheduleDone_map hp w
          rw [e]
          refine h.release rfl ?_ (fun _ => hp) others rfl fun _ ht => ht
          rcases hph with rfl | ⟨rfl, _, hn⟩
          · exact Or.inl hp.symm
          · exact Or.inr hn
      | reduce =>
          obtain ⟨phase, e, hph⟩ := Master.scheduleDone_reduce hp w
          rw [e]
          refine h.release rfl ?_ (fun hm => ?_) others rfl fun _ ht => ht
          · rcases hph with rfl | ⟨rfl, _, hn⟩
            · exact Or.inl hp.symm
            · exact Or.inr hn
          · rcases hph with rfl | ⟨rfl, _⟩ <;> cases hm
      | finish =>
          have hnone := h.finish hp
          rw [Master.scheduleDone_finish hp]
          refine ⟨fun v _ => hnone v, fun v T hv => ?_, fun _ => hnone, h.timers⟩
          rw [hnone v] at hv
          cases hv
  | timeout k timer hk =>
      have fewer : ∀ x ∈ s.timers.eraseIdx k, x ∈ s.timers := fun x hx => List.mem_of_mem_eraseIdx hx
      rcases s.master.timeout_cases timer with e | ⟨T, _, _, ⟨_, e⟩ | ⟨_, e⟩⟩ <;> rw [e]
      · exact ⟨h.free, h.held, h.finish, fun hm x hx => h.timers hm x (fewer x hx)⟩
      · exact h.release rfl (Or.inl rfl) id (fun _ _ => rfl) rfl fewer
      · exact h.release rfl (Or.inl rfl) id (fun _ _ => rfl) rfl fewer

theorem booked_reach {G : World → Action → Prop} {files : List String} {nReduce : Nat} {s : World}
    (h : Reach step G (init files nReduce) s) : Booked s :=
  Reach.inv (booked_init files nReduce) (fun _ _ _ ih _ hs => booked_step ih (move_of_step hs)) h

/-- What is on record stays on record. -/
structure Grows (s s' : World) : Prop where
  assigned : ∀ x ∈ s.assigned, x ∈ s'.assigned
  reported : ∀ x ∈ s.reported, x ∈ s'.reported
  validTask : ∀ t ∈ s.master.validTask, t ∈ s'.master.validTask

theorem Move.grows {s s' : World} {a : Action} (hs : Move s a s') : Grows s s' := by
  cases hs with
  | register => exact ⟨fun _ h => h, fun _ h => h, fun _ h => h⟩
  | wait w _ => exact ⟨fun _ h => h, fun _ h => h, fun _ h => h⟩
  | zero w _ _ _ _ => exact ⟨fun _ h => h, fun _ h => h, fun _ h => h⟩
  | map w rest file _ _ _ =>
      exact ⟨fun _ h => List.mem_append_left _ h, fun _ h => h, fun _ h => h⟩
  | reduce w rest r files _ _ _ _ =>
      exact ⟨fun _ h => List.mem_append_left _ h, fun _ h => h, fun _ h => h⟩
  | report w reply _ =>
      refine ⟨fun _ h => h, fun _ h => List.mem_append_left _ h, fun t h => ?_⟩
      cases hp : s.master.phase with
      | map =>
          obtain ⟨phase, e, _⟩ := Master.scheduleDone_map hp w
          simp only [e]
          exact List.mem_append_left _ h
      | reduce =>
          obtain ⟨phase, e, _⟩ := Master.scheduleDone_reduce hp w
          simpa only [e] using h
      | finish => simpa only [Master.scheduleDone_finish hp w] using h
  | timeout k timer _ =>
      refine ⟨fun _ h => h, fun _ h => h, fun t h => ?_⟩
      rcases s.master.timeout_cases timer with e | ⟨T, _, _, ⟨_, e⟩ | ⟨_, e⟩⟩ <;>
        simpa only [e] using h

end World

/-! ## 2. No input file is lost -/

/-- The entry `e` of the file list is among these files. -/
def Reads (file : List File) (e : Nat) : Prop := ∃ f ∈ file, f.entry = some e

namespace World

/-- The worker of a map task over `e` has finished it, and its number is in `ValidTask`. -/
def Mapped (s : World) (e : Nat) : Prop :=
  ∃ w reply, (w, reply) ∈ s.assigned ∧ reply.task = .map ∧ Reads reply.file e ∧
    (w, reply) ∈ s.reported ∧ reply.taskNum ∈ s.master.validTask

/-- Some worker holds `e`. -/
def Held (s : World) (e : Nat) : Prop :=
  ∃ w T, s.master.worker2task.lookup w = some T ∧ Reads T.file e

theorem Mapped.grows {s s' : World} {e : Nat} (h : Mapped s e) (hg : Grows s s') : Mapped s' e := by
  obtain ⟨w, reply, h1, h2, h3, h4, h5⟩ := h
  exact ⟨w, reply, hg.assigned _ h1, h2, h3, hg.reported _ h4, hg.validTask _ h5⟩

/-- `e` is still to be mapped, is being mapped, or has been mapped. -/
def Kept (s : World) (e : Nat) : Prop :=
  (s.master.phase = .map ∧ Reads s.master.files e) ∨ (s.master.phase = .map ∧ Held s e) ∨ Mapped s e

/-- A file in `Files` stays there until a worker that asks takes it. -/
theorem kept_files {s s' : World} {a : Action} {e : Nat} (hp : s.master.phase = .map)
    (hf : Reads s.master.files e) (hs : Move s a s') : Kept s' e := by
  cases hs with
  | register => exact Or.inl ⟨hp, hf⟩
  | wait w _ => exact Or.inl ⟨hp, hf⟩
  | zero w _ _ _ _ => exact Or.inl ⟨hp, hf⟩
  | map w rest file _ _ hfiles =>
      rw [hfiles] at hf
      obtain ⟨f, hf, he⟩ := hf
      rcases List.mem_append.mp hf with hf | hf
      · exact Or.inl ⟨hp, f, hf, he⟩
      · exact Or.inr (Or.inl ⟨hp, w, _, AList.lookup_insert _, f, hf, he⟩)
  | reduce w rest r files _ hphase _ _ =>
      rw [hp] at hphase
      cases hphase
  | report w reply _ =>
      obtain ⟨phase, e', hph⟩ := Master.scheduleDone_map hp w
      rcases hph with rfl | ⟨_, hnil, _⟩
      · exact Or.inl (by rw [e']; exact ⟨rfl, hf⟩)
      · rw [hnil] at hf
        obtain ⟨f, hf, _⟩ := hf
        cases hf
  | timeout k timer _ =>
      refine Or.inl ?_
      rcases s.master.timeout_cases timer with e' | ⟨T, _, _, ⟨_, e'⟩ | ⟨_, e'⟩⟩ <;> rw [e']
      · exact ⟨hp, hf⟩
      · obtain ⟨f, hf, he⟩ := hf
        exact ⟨hp, f, List.mem_append_left _ hf, he⟩
      · exact ⟨hp, hf⟩

/-- A file that is held goes on when its worker reports, and back when its timer fires. -/
theorem kept_held {s s' : World} {a : Action} {e : Nat} (hb : Booked s)
    (hp : s.master.phase = .map) (hh : Held s e) (hs : Move s a s') : Kept s' e := by
  obtain ⟨v, T, hv, hT⟩ := hh
  cases hs with
  | register => exact Or.inr (Or.inl ⟨hp, v, T, hv, hT⟩)
  | wait w _ => exact Or.inr (Or.inl ⟨hp, v, T, hv, hT⟩)
  | zero w _ _ _ _ => exact Or.inr (Or.inl ⟨hp, v, T, hv, hT⟩)
  | map w rest file hfree _ _ =>
      have hvw := hb.ne_of_free hv hfree
      exact Or.inr (Or.inl ⟨hp, v, T, by rwa [AList.lookup_insert_ne hvw], hT⟩)
  | reduce w rest r files _ hphase _ _ =>
      rw [hp] at hphase
      cases hphase
  | report w reply hbusy =>
      refine Or.inr ?_
      obtain ⟨phase, e', hph⟩ := Master.scheduleDone_map hp w
      by_cases hvw : v = w
      · -- its own worker reports it
        subst hvw
        obtain ⟨hass, htask, hnum, hfile⟩ := hb.reply_held hv hbusy
        refine Or.inr ⟨v, reply, hass, by rw [htask, hp]; rfl, by rwa [hfile], by simp, ?_⟩
        rw [e', hnum, hv]
        simp
      · have hv' : (s.master.worker2task.erase w).lookup v = some T := by
          rwa [AList.lookup_erase_ne hvw]
        rcases hph with rfl | ⟨_, _, hnone⟩
        · exact Or.inl (by rw [e']; exact ⟨rfl, v, T, hv', hT⟩)
        · rw [hnone v] at hv'
          cases hv'
  | timeout k timer hk =>
      have ht : timer.task = .map := hb.timers hp timer (List.mem_of_getElem? hk)
      rcases s.master.timeout_cases timer with e' | ⟨T', hT', _, ⟨_, e'⟩ | ⟨hne, _⟩⟩
      · exact Or.inr (Or.inl (by rw [e']; exact ⟨hp, v, T, hv, hT⟩))
      · rw [e']
        by_cases hvw : v = timer.workerId
        · subst hvw
          rw [hT'] at hv
          cases hv
          obtain ⟨f, hf, he⟩ := hT
          exact Or.inl ⟨hp, f, List.mem_append_right _ hf, he⟩
        · exact Or.inr (Or.inl ⟨hp, v, T, by rwa [AList.lookup_erase_ne hvw], hT⟩)
      · exact absurd ht hne

/-- **The step lemma.** -/
theorem kept_step {s s' : World} {a : Action} {e : Nat} (hb : Booked s) (h : Kept s e)
    (hs : Move s a s') : Kept s' e := by
  rcases h with ⟨hp, hf⟩ | ⟨hp, hh⟩ | hm
  · exact kept_files hp hf hs
  · exact kept_held hb hp hh hs
  · exact Or.inr (Or.inr (hm.grows hs.grows))

theorem reads_init {files : List String} {e : Nat} (nReduce : Nat) (he : e < files.length) :
    Reads (init files nReduce).master.files e := by
  refine ⟨⟨files[e], some e⟩, ?_, rfl⟩
  show _ ∈ files.mapIdx _
  rw [List.mem_mapIdx]
  exact ⟨e, he, rfl⟩

theorem kept_reach {G : World → Action → Prop} {files : List String} {nReduce : Nat} {s : World}
    (h : Reach step G (init files nReduce) s) {e : Nat} (he : e < files.length) : Kept s e := by
  induction h with
  | start => exact Or.inl ⟨rfl, reads_init nReduce he⟩
  | move s s' a hr _ hs ih => exact kept_step (booked_reach hr) ih (move_of_step hs)

/-- **No input file is lost.** In every run, while the map phase lasts every entry of the file
    list is in `Files`, or held by a worker in `Worker2task`, or was the input of a task whose
    worker finished it and whose number is in `ValidTask`; and of an entry for which the phase is
    over the last holds. -/
theorem no_input_lost {files : List String} {nReduce : Nat} {s : World}
    (h : Reach step AnyStep (init files nReduce) s) :
    (s.master.phase = .map →
        ∀ e < files.length, Reads s.master.files e ∨ Held s e ∨ Mapped s e) ∧
      (s.master.phase ≠ .map → ∀ e < files.length, Mapped s e) := by
  refine ⟨fun _ e he => ?_, fun hp e he => ?_⟩
  · rcases kept_reach h he with ⟨_, hf⟩ | ⟨_, hh⟩ | hm
    · exact Or.inl hf
    · exact Or.inr (Or.inl hh)
    · exact Or.inr (Or.inr hm)
  · rcases kept_reach h he with ⟨hp', _⟩ | ⟨hp', _⟩ | hm
    · exact absurd hp' hp
    · exact absurd hp' hp
    · exact hm

/-- One file, mapped by a second worker after the first one's timer. -/
theorem no_input_lost_retried :
    ∃ s : World, s.master.phase = .reduce ∧ Mapped s 0 := by
  have run : (exec step (fun _ _ => true) (init ["a"] 1)
      [.register, .register, .ask 0, .timeout 0, .ask 1, .report 1]).any
      (fun s => decide (s.master.phase = .reduce)) = true := by decide +kernel
  obtain ⟨s, hr, hp⟩ := exists_of_run run
  have hp := of_decide_eq_true hp
  exact ⟨s, hp, (no_input_lost hr).2 (by rw [hp]; decide) 0 (by decide)⟩

/-! ## 3. Where an entry is -/

/-- A place in `Files`, a worker, or a task in `ValidTask`. -/
inductive Place where
  | file (i : Nat)
  | worker (w : Nat)
  | task (t : Nat)

/-- `x` is a map task that was assigned, with the number `t` and the entry `e`. -/
def MapTask (s : World) (x : Nat × TaskReply) (t e : Nat) : Prop :=
  x ∈ s.assigned ∧ x.2.task = .map ∧ x.2.taskNum = t ∧ Reads x.2.file e

/-- **Where the entry `e` is.** After the map phase only `ValidTask` counts. -/
def At (s : World) (e : Nat) : Place → Prop
  | .file i => s.master.phase = .map ∧ ∃ f, s.master.files[i]? = some f ∧ f.entry = some e
  | .worker w => s.master.phase = .map ∧
      ∃ T, s.master.worker2task.lookup w = some T ∧ Reads T.file e
  | .task t => t ∈ s.master.validTask ∧ ∃ x, MapTask s x t e

/-- The books of a map phase in which no report comes late: an entry is at one place, a number
    belongs to one task, and what is in `ValidTask` was reported by its own worker. -/
structure Apart (s : World) : Prop where
  place : ∀ e p q, At s e p → At s e q → p = q
  number : ∀ x ∈ s.assigned, x.2.task = .map → x.2.taskNum < s.master.mTask
  single : ∀ x ∈ s.assigned, ∀ y ∈ s.assigned, x.2.task = .map → y.2.task = .map →
    x.2.taskNum = y.2.taskNum → x = y
  files : s.master.phase = .map → ∀ f ∈ s.master.files, ∃ e, f.entry = some e
  tasks : s.master.phase = .map → ∀ w T, s.master.worker2task.lookup w = some T →
    ∃ f e, T.file = [f] ∧ f.entry = some e
  nodup : s.master.validTask.Nodup
  own : ∀ t ∈ s.master.validTask, ∃ x ∈ s.assigned, x.2.task = .map ∧ x.2.taskNum = t ∧
    x ∈ s.reported

/-- What was at `old` is now at `new`, everything else is where it was, and nothing is left at
    `old`: two entries that were apart still are. -/
theorem place_of_move {s s' : World} (old new : Place)
    (h : ∀ e p q, At s e p → At s e q → p = q) (hnew : ∀ e, At s' e new → At s e old)
    (hrest : ∀ e p, p ≠ new → At s' e p → At s e p) (hold : ∀ e, ¬ At s' e old) :
    ∀ e p q, At s' e p → At s' e q → p = q := by
  have apart : ∀ e q, q ≠ new → At s' e new → At s' e q → False := by
    intro e q hq hn hq'
    have e' := h e _ _ (hnew e hn) (hrest e q hq hq')
    exact hold e (e' ▸ hq')
  intro e p q hp hq
  by_cases hpn : p = new <;> by_cases hqn : q = new
  · rw [hpn, hqn]
  · exact absurd hq fun hq => apart e q hqn (hpn ▸ hp) hq
  · exact absurd hp fun hp => apart e p hpn (hqn ▸ hq) hp
  · exact h e p q (hrest e p hpn hp) (hrest e q hqn hq)

/-- **The condition**: whoever reports in the map phase still has its task in `Worker2task`. -/
def reportsHeld (s : World) : Action → Bool
  | .report w => decide (s.master.phase ≠ .map) || (s.master.worker2task.lookup w).isSome
  | _ => true

theorem apart_init (files : List String) (nReduce : Nat) : Apart (init files nReduce) := by
  have entry : ∀ (i : Nat) (f : File), (init files nReduce).master.files[i]? = some f →
      f.entry = some i := by
    intro i f hf
    have hf' : (files.mapIdx fun i name => (⟨name, some i⟩ : File))[i]? = some f := hf
    rw [List.getElem?_mapIdx, Option.map_eq_some_iff] at hf'
    obtain ⟨name, _, rfl⟩ := hf'
    rfl
  have nobody : ∀ w T, (init files nReduce).master.worker2task.lookup w ≠ some T := by
    intro w T h
    rw [(booked_init files nReduce).free w rfl] at h
    cases h
  refine ⟨?_, nofun, nofun, fun _ f hf => ?_, fun _ w T h => absurd h (nobody w T), List.nodup_nil,
    nofun⟩
  · intro e p q hp hq
    -- at the start everything is in `Files`, at its own place
    have start : ∀ p, At (init files nReduce) e p → p = .file e := by
      intro p hp
      cases p with
      | file i =>
          obtain ⟨_, f, hf, he⟩ := hp
          rw [entry i f hf] at he
          rw [Option.some.inj he]
      | worker w =>
          obtain ⟨_, T, h, _⟩ := hp
          exact absurd h (nobody w T)
      | task t => exact absurd hp.1 List.not_mem_nil
    rw [start p hp, start q hq]
  · obtain ⟨i, hi⟩ := List.mem_iff_getElem?.mp hf
    exact ⟨i, entry i f hi⟩

/-! ## 4. One place only -/

/-- After the map phase only new reduce tasks come. -/
theorem Apart.later {s s' : World} (h : Apart s) (hp : s'.master.phase ≠ .map)
    (hv : s'.master.validTask = s.master.validTask) (hn : s'.master.mTask = s.master.mTask)
    (hass : ∀ x ∈ s'.assigned, x.2.task = .map → x ∈ s.assigned) (hg : Grows s s') :
    Apart s' where
  place := by
    have back : ∀ e p, At s' e p → At s e p := by
      intro e p hp'
      cases p with
      | file i => exact absurd hp'.1 hp
      | worker w => exact absurd hp'.1 hp
      | task t =>
          obtain ⟨ht, x, hx, hm, hr⟩ := hp'
          exact ⟨hv ▸ ht, x, hass x hx hm, hm, hr⟩
    exact fun e p q hp' hq' => h.place e p q (back e p hp') (back e q hq')
  number x hx hm := hn ▸ h.number x (hass x hx hm) hm
  single x hx y hy hm hm' := h.single x (hass x hx hm) y (hass y hy hm') hm hm'
  files hp' := absurd hp' hp
  tasks hp' := absurd hp' hp
  nodup := hv ▸ h.nodup
  own t ht := by
    obtain ⟨x, hx, hm, hnum, hr⟩ := h.own t (hv ▸ ht)
    exact ⟨x, hg.assigned x hx, hm, hnum, hg.reported x hr⟩

/-- A worker takes the last file: it was at the end of `Files`. -/
theorem apart_map {s : World} {w : Nat} {rest : List File} {file : File} (h : Apart s)
    (hp : s.master.phase = .map) (hfiles : s.master.files = rest ++ [file]) :
    Apart { s with
      master := { s.master with
        files := rest
        worker2task := s.master.worker2task.insert w ⟨s.master.mTask, [file]⟩
        mTask := s.master.mTask + 1 }
      timers := s.timers ++ [⟨.map, w, s.master.mTask⟩]
      workers := Function.update s.workers w
        (some ⟨.map, s.master.mTask, [file], s.master.nReduce⟩)
      assigned := s.assigned ++ [(w, ⟨.map, s.master.mTask, [file], s.master.nReduce⟩)] } := by
  have sub : ∀ f ∈ rest, f ∈ s.master.files := fun f hf => by
    rw [hfiles]
    exact List.mem_append_left _ hf
  have old : ∀ x ∈ s.assigned, x.2.task = .map → x.2.taskNum ≠ s.master.mTask :=
    fun x hx hm => Nat.ne_of_lt (h.number x hx hm)
  refine ⟨?_, ?_, ?_, fun _ f hf => h.files hp f (sub f hf), ?_, h.nodup, ?_⟩
  · refine place_of_move (.file rest.length) (.worker w) h.place ?_ ?_ ?_
    · rintro e ⟨_, T, hT, f, hf, he⟩
      rw [AList.lookup_insert] at hT
      cases hT
      rw [List.mem_singleton.mp hf] at he
      exact ⟨hp, file, by rw [hfiles]; exact List.getElem?_concat_length, he⟩
    · intro e p hpn hat
      cases p with
      | file i =>
          obtain ⟨_, f, hf, he⟩ := hat
          refine ⟨hp, f, ?_, he⟩
          rw [hfiles, List.getElem?_append_left (List.getElem?_eq_some_iff.mp hf).1]
          exact hf
      | worker v =>
          obtain ⟨_, T, hT, hr⟩ := hat
          have hv : v ≠ w := fun e => hpn (by rw [e])
          exact ⟨hp, T, by rwa [AList.lookup_insert_ne hv] at hT, hr⟩
      | task t =>
          obtain ⟨ht, x, hx, hm, hnum, hr⟩ := hat
          rcases List.mem_append.mp hx with hx | hx
          · exact ⟨ht, x, hx, hm, hnum, hr⟩
          · -- the new number is not in `ValidTask` yet
            obtain ⟨y, hy, hym, hyt, _⟩ := h.own t ht
            rw [List.mem_singleton.mp hx] at hnum
            exact absurd (hyt.trans hnum.symm) (old y hy hym)
    · rintro e ⟨_, f, hf, _⟩
      exact absurd (List.getElem?_eq_some_iff.mp hf).1 (Nat.lt_irrefl _)
  · intro x hx hm
    rcases List.mem_append.mp hx with hx | hx
    · exact Nat.lt_succ_of_lt (h.number x hx hm)
    · rw [List.mem_singleton.mp hx]
      exact Nat.lt_succ_self _
  · intro x hx y hy hm hm' heq
    rcases List.mem_append.mp hx with hx | hx <;> rcases List.mem_append.mp hy with hy | hy
    · exact h.single x hx y hy hm hm' heq
    · rw [List.mem_singleton.mp hy] at heq
      exact absurd heq (old x hx hm)
    · rw [List.mem_singleton.mp hx] at heq
      exact absurd heq.symm (old y hy hm')
    · rw [List.mem_singleton.mp hx, List.mem_singleton.mp hy]
  · intro _ v T hT
    rcases lookup_insert_some hT with ⟨_, rfl⟩ | ⟨_, hT⟩
    · obtain ⟨e, he⟩ := h.files hp file (by rw [hfiles]; simp)
      exact ⟨file, e, rfl, he⟩
    · exact h.tasks hp v T hT
  · intro t ht
    obtain ⟨x, hx, hrest⟩ := h.own t ht
    exact ⟨x, List.mem_append_left _ hx, hrest⟩

/-- A worker reports the task it holds: its number goes to `ValidTask`. -/
theorem apart_report {s : World} {w : Nat} {T : Task} {reply : TaskReply} {phase : Phase}
    (h : Apart s) (hb : Booked s) (hp : s.master.phase = .map)
    (hT : s.master.worker2task.lookup w = some T) (hbusy : s.workers w = some reply) :
    Apart { s with
      master := { s.master with
        validTask := s.master.validTask ++ [T.taskNum]
        worker2task := s.master.worker2task.erase w
        phase := phase }
      workers := Function.update s.workers w none
      reported := s.reported ++ [(w, reply)] } := by
  obtain ⟨hass, htask, hnum, hfile⟩ := hb.reply_held hT hbusy
  have hmap : reply.task = .map := by
    rw [htask, hp]
    rfl
  -- the number of a task that is held is not in `ValidTask`: its entry would be at two places
  have hnew : T.taskNum ∉ s.master.validTask := by
    intro hin
    obtain ⟨f, e, hf, he⟩ := h.tasks hp w T hT
    have hr : Reads T.file e := ⟨f, by rw [hf]; simp, he⟩
    have := h.place e (.worker w) (.task T.taskNum) ⟨hp, T, hT, hr⟩
      ⟨hin, (w, reply), hass, hmap, hnum, by rwa [hfile]⟩
    cases this
  refine ⟨?_, h.number, h.single, fun _ => h.files hp, fun _ v T' hT' => ?_, ?_, ?_⟩
  · refine place_of_move (.worker w) (.task T.taskNum) h.place ?_ ?_ ?_
    · rintro e ⟨_, x, hx, hm, hxn, hr⟩
      have hxe : x = (w, reply) := h.single x hx _ hass hm hmap (hxn.trans hnum.symm)
      subst hxe
      exact ⟨hp, T, hT, by rwa [← hfile]⟩
    · intro e p hpn hat
      cases p with
      | file i => exact ⟨hp, hat.2⟩
      | worker v =>
          obtain ⟨_, T', hT', hr⟩ := hat
          exact ⟨hp, T', (lookup_erase_some hT').2, hr⟩
      | task t =>
          obtain ⟨ht, hx⟩ := hat
          rcases List.mem_append.mp ht with ht | ht
          · exact ⟨ht, hx⟩
          · exact absurd (congrArg Place.task (List.mem_singleton.mp ht)) hpn
    · rintro e ⟨_, T', hT', _⟩
      exact (lookup_erase_some hT').1 rfl
  · exact h.tasks hp v T' (lookup_erase_some hT').2
  · exact List.nodup_append.mpr ⟨h.nodup, List.nodup_singleton _, fun t ht t' ht' e =>
      hnew (List.mem_singleton.mp ht' ▸ e ▸ ht)⟩
  · intro t ht
    rcases List.mem_append.mp ht with ht | ht
    · obtain ⟨x, hx, hm, hn, hr⟩ := h.own t ht
      exact ⟨x, hx, hm, hn, List.mem_append_left _ hr⟩
    · rw [List.mem_singleton.mp ht]
      exact ⟨(w, reply), hass, hmap, hnum, by simp⟩

/-- A timer takes a task back: its file goes to the end of `Files`. -/
theorem apart_timeout {s : World} {w k : Nat} {T : Task} (h : Apart s) (hp : s.master.phase = .map)
    (hT : s.master.worker2task.lookup w = some T) :
    Apart { s with
      master := { s.master with
        files := s.master.files ++ T.file
        worker2task := s.master.worker2task.erase w }
      timers := s.timers.eraseIdx k } := by
  obtain ⟨f, e, hf, he⟩ := h.tasks hp w T hT
  rw [hf]
  refine ⟨?_, h.number, h.single, fun _ f' hf' => ?_, fun _ v T' hT' => ?_, h.nodup, h.own⟩
  · refine place_of_move (.worker w) (.file s.master.files.length) h.place ?_ ?_ ?_
    · rintro e' ⟨_, f', hf', he'⟩
      rw [List.getElem?_concat_length] at hf'
      cases hf'
      exact ⟨hp, T, hT, f, by rw [hf]; simp, he'⟩
    · intro e' p hpn hat
      cases p with
      | file i =>
          obtain ⟨_, f', hf', he'⟩ := hat
          have hi : i ≠ s.master.files.length := fun e => hpn (by rw [e])
          have hlt := (List.getElem?_eq_some_iff.mp hf').1
          simp only [List.length_append, List.length_singleton] at hlt
          refine ⟨hp, f', ?_, he'⟩
          rwa [List.getElem?_append_left (by omega)] at hf'
      | worker v =>
          obtain ⟨_, T', hT', hr⟩ := hat
          exact ⟨hp, T', (lookup_erase_some hT').2, hr⟩
      | task t => exact hat
    · rintro e' ⟨_, T', hT', _⟩
      exact (lookup_erase_some hT').1 rfl
  · rcases List.mem_append.mp hf' with hf' | hf'
    · exact h.files hp f' hf'
    · rw [List.mem_singleton.mp hf']
      exact ⟨e, he⟩
  · exact h.tasks hp v T' (lookup_erase_some hT').2

/-- **The step lemma.** -/
theorem apart_step {s s' : World} {a : Action} (h : Apart s) (hb : Booked s)
    (hg : reportsHeld s a = true) (hs : Move s a s') : Apart s' := by
  have grows := hs.grows
  cases hs with
  | register => exact { h with }
  | wait w _ => exact h
  | zero w _ _ _ _ => exact { h with }
  | map w rest file _ hp hfiles => exact apart_map h hp hfiles
  | reduce w rest r files _ hp _ _ =>
      refine h.later (by rw [hp]; decide) rfl rfl (fun x hx hm => ?_) grows
      rcases List.mem_append.mp hx with hx | hx
      · exact hx
      · rw [List.mem_singleton.mp hx] at hm
        cases hm
  | report w reply hbusy =>
      cases hp : s.master.phase with
      | map =>
          obtain ⟨phase, e, _⟩ := Master.scheduleDone_map hp w
          have held : (s.master.worker2task.lookup w).isSome = true := by
            simpa [reportsHeld, hp] using hg
          obtain ⟨T, hT⟩ := Option.isSome_iff_exists.mp held
          rw [hT] at e
          rw [e]
          exact apart_report h hb hp hT hbusy
      | reduce =>
          obtain ⟨phase, e, hph⟩ := Master.scheduleDone_reduce hp w
          rw [e] at grows ⊢
          refine h.later ?_ rfl rfl (fun x hx _ => hx) grows
          rcases hph with rfl | ⟨rfl, _⟩ <;> exact nofun
      | finish =>
          rw [Master.scheduleDone_finish hp] at grows ⊢
          exact h.later (by rw [hp]; decide) rfl rfl (fun x hx _ => hx) grows
  | timeout k timer hk =>
      rcases s.master.timeout_cases timer with e | ⟨T, hT, _, ⟨_, e⟩ | ⟨hne, e⟩⟩
      · rw [e]
        exact { h with }
      · rw [e] at grows ⊢
        by_cases hp : s.master.phase = .map
        · exact apart_timeout h hp hT
        · exact h.later hp rfl rfl (fun x hx _ => hx) grows
      · have hp : s.master.phase ≠ .map := fun hp =>
          hne (hb.timers hp timer (List.mem_of_getElem? hk))
        rw [e] at grows ⊢
        exact h.later hp rfl rfl (fun x hx _ => hx) grows

theorem apart_reach {files : List String} {nReduce : Nat} {s : World}
    (h : Reach step (fun s a => reportsHeld s a = true) (init files nReduce) s) : Apart s := by
  induction h with
  | start => exact apart_init _ _
  | move s s' a hr hg hs ih => exact apart_step ih (booked_reach hr) hg (move_of_step hs)

/-! ## 5. Counting once -/

/-- **`ValidTask` counts no input file twice**: it has no duplicate, every element is the number of
    a map task that was assigned and that its own worker reported, and no two of these tasks were
    assigned the same entry of the file list. -/
structure CountsOnce (s : World) : Prop where
  nodup : s.master.validTask.Nodup
  own : ∀ t ∈ s.master.validTask, ∃ x ∈ s.assigned, x.2.task = .map ∧ x.2.taskNum = t ∧
    x ∈ s.reported
  once : ∀ t ∈ s.master.validTask, ∀ t' ∈ s.master.validTask, ∀ x x' e,
    MapTask s x t e → MapTask s x' t' e → t = t'

/-- **No input file is counted twice** in a run in which every report of the map phase comes while
    its worker's task is still in `Worker2task`. -/
theorem counts_once {files : List String} {nReduce : Nat} {s : World}
    (h : Reach step (fun s a => reportsHeld s a = true) (init files nReduce) s) :
    CountsOnce s := by
  have ha := apart_reach h
  refine ⟨ha.nodup, ha.own, fun t ht t' ht' x x' e hx hx' => ?_⟩
  have := ha.place e (.task t) (.task t') ⟨ht, x, hx⟩ ⟨ht', x', hx'⟩
  cases this
  rfl

/-- Two files and two workers; the first one's timer fires, and it never reports. -/
theorem counts_once_retried :
    ∃ s : World, s.master.validTask = [1, 2] ∧ s.master.phase = .reduce ∧ CountsOnce s := by
  have run : (exec step reportsHeld (init ["a", "b"] 1)
      [.register, .register, .ask 0, .ask 1, .timeout 0, .report 1, .ask 1, .report 1]).any
      (fun s => decide (s.master.validTask = [1, 2] ∧ s.master.phase = .reduce)) = true := by
    decide +kernel
  obtain ⟨s, hr, hv⟩ := exists_of_exec run
  have hv := of_decide_eq_true hv
  exact ⟨s, hv.1, hv.2, counts_once hr⟩

/-- **A late report counts a file twice.** Worker 0 is slow with the only file; its timer gives the
    file to worker 1; then both report. The first report finds no task of worker 0 and appends
    the number of the zero `Task`. -/
theorem counted_twice :
    ∃ s, Reach step AnyStep (init ["a"] 1) s ∧ ¬ CountsOnce s := by
  have run : (exec step (fun _ _ => true) (init ["a"] 1)
      [.register, .register, .ask 0, .timeout 0, .ask 1, .report 0, .report 1]).any
      (fun s => decide (s.master.validTask = [0, 1] ∧
        s.assigned = [(0, ⟨.map, 0, [⟨"a", some 0⟩], 1⟩), (1, ⟨.map, 1, [⟨"a", some 0⟩], 1⟩)])) =
      true := by
    decide +kernel
  obtain ⟨s, hr, hv⟩ := exists_of_run run
  obtain ⟨hv, ha⟩ := of_decide_eq_true hv
  refine ⟨s, hr, fun h => ?_⟩
  have reads : Reads [⟨"a", some 0⟩] 0 := ⟨_, List.mem_singleton_self _, rfl⟩
  have := h.once 0 (by rw [hv]; decide) 1 (by rw [hv]; decide) (0, ⟨.map, 0, [⟨"a", some 0⟩], 1⟩)
    (1, ⟨.map, 1, [⟨"a", some 0⟩], 1⟩) 0 ⟨by rw [ha]; decide, rfl, rfl, reads⟩
    ⟨by rw [ha]; decide, rfl, rfl, reads⟩
  cases this

end World

end Mit6824.Mr
