/-
  File:      Mit6824/Mr/Orderly.lean
  Subject:   A JOB WITHOUT LATE WORKERS (mr/master.go): every task is in one pair of hands.

  `orderly`: whoever reports still has its task in `Worker2task`, and a timer of the map phase does
  not meet a reduce task with its number. Then there is never a reply nobody has written to, no
  reduce task is given out again once it was reported, no two workers hold the same one, and after
  the map phase `ValidTask` has one task for each input file.

  * `Handed` -- the books of the reduce phase, and what the replies say; `handed_reach`;
  * `validTask_files` -- **the tasks in `ValidTask` are the input files**, each once.
-/
import Mit6824.Mr.ReducePhase

namespace Mit6824.Mr.World

open Lib

/-! ## 1. The condition -/

def orderly (s : World) : Action → Bool
  | .report w => (s.master.worker2task.lookup w).isSome
  | a => timersApart s a

theorem reportsHeld_of_orderly {s : World} {a : Action} (h : orderly s a = true) :
    reportsHeld s a = true := by
  cases a with
  | report w =>
      rw [reportsHeld, Bool.or_eq_true]
      exact Or.inr h
  | _ => rfl

theorem timersApart_of_orderly {s : World} {a : Action} (h : orderly s a = true) :
    timersApart s a = true := by
  cases a with
  | report w => rfl
  | _ => exact h

/-! ## 2. The books -/

/-- **Every task in one pair of hands**, and what the replies say. -/
structure Handed (files : List String) (nReduce : Nat) (s : World) : Prop where
  number : s.master.nReduce = nReduce
  left : s.master.phase = .map → s.master.files ≠ [] ∨ ∃ w T, s.master.worker2task.lookup w = some T
  waiting : s.master.rTask.Nodup
  held : s.master.phase = .reduce → ∀ w w' T T', s.master.worker2task.lookup w = some T →
    s.master.worker2task.lookup w' = some T' → T.taskNum = T'.taskNum → w = w'
  apart : s.master.phase = .reduce → ∀ w T, s.master.worker2task.lookup w = some T →
    T.taskNum ∉ s.master.rTask
  done : ∀ x ∈ s.reported, x.2.task = .reduce → s.master.phase ≠ .map ∧
    x.2.taskNum ∉ s.master.rTask ∧ (s.master.phase = .reduce → ∀ w T,
      s.master.worker2task.lookup w = some T → T.taskNum ≠ x.2.taskNum)
  reported : ∀ x ∈ s.reported, x ∈ s.assigned
  file : s.master.phase = .map → ∀ f ∈ s.master.files, ∃ e : Nat, files[e]? = some f.name ∧
    f.entry = some e
  mapReply : ∀ x ∈ s.assigned, x.2.task = .map → x.2.nReduce = nReduce ∧
    ∃ f, x.2.file = [f] ∧ ∃ e : Nat, files[e]? = some f.name ∧ f.entry = some e
  reduceReply : ∀ x ∈ s.assigned, x.2.task = .reduce → s.master.phase ≠ .map ∧
    x.2.file = s.master.validTask.map fun t => Master.reduceFile t x.2.taskNum

variable {files : List String} {nReduce : Nat} {s s' : World}

theorem handed_init (hne : files ≠ []) : Handed files nReduce (init files nReduce) where
  number := rfl
  left _ := by
    refine Or.inl fun h => hne ?_
    have h' : files.mapIdx (fun i name => (⟨name, some i⟩ : File)) = [] := h
    simpa using h'
  waiting := List.nodup_range
  held h := by cases h
  apart h := by cases h
  done x hx := absurd hx List.not_mem_nil
  reported x hx := absurd hx List.not_mem_nil
  file _ f hf := by
    have hf' : f ∈ files.mapIdx fun i name => (⟨name, some i⟩ : File) := hf
    obtain ⟨e, he, rfl⟩ := List.mem_mapIdx.mp hf'
    exact ⟨e, List.getElem?_eq_getElem he, rfl⟩
  mapReply x hx := absurd hx List.not_mem_nil
  reduceReply x hx := absurd hx List.not_mem_nil

/-- A report in the map phase ends it, or something is left. -/
theorem scheduleDone_left_map {m : Master} (hp : m.phase = .map) (w : Nat)
    (hp' : (m.scheduleDone w).phase = .map) : (m.scheduleDone w).files ≠ [] ∨
      ∃ v T, (m.scheduleDone w).worker2task.lookup v = some T := by
  unfold Master.scheduleDone at hp' ⊢
  rw [hp] at hp' ⊢
  dsimp only at hp' ⊢
  split at hp'
  · cases hp'
  · rename_i hc
    rw [if_neg hc]
    refine (not_and_or.mp hc).imp id fun h0 => ?_
    by_contra hno
    refine h0 (Master.held_eq_zero.mpr fun v => ?_)
    cases hv : (m.worker2task.erase w).lookup v with
    | none => rfl
    | some T => exact absurd ⟨v, T, hv⟩ hno

theorem Handed.assign_map (h : Handed files nReduce s) {w : Nat} {rest : List File} {file : File}
    (hp : s.master.phase = .map) (hfiles : s.master.files = rest ++ [file]) :
    Handed files nReduce { s with
      master := { s.master with
        files := rest
        worker2task := s.master.worker2task.insert w ⟨s.master.mTask, [file]⟩
        mTask := s.master.mTask + 1 }
      timers := s.timers ++ [⟨.map, w, s.master.mTask⟩]
      workers := Function.update s.workers w
        (some ⟨.map, s.master.mTask, [file], s.master.nReduce⟩)
      assigned := s.assigned ++ [(w, ⟨.map, s.master.mTask, [file], s.master.nReduce⟩)] } := by
  have hno : s.master.phase ≠ .reduce := by rw [hp]; decide
  refine { h with
    left := fun _ => Or.inr ⟨w, _, AList.lookup_insert _⟩
    held := fun hr => absurd hr hno
    apart := fun hr => absurd hr hno
    done := fun x hx hr => absurd hp (h.done x hx hr).1
    reported := fun x hx => List.mem_append_left _ (h.reported x hx)
    file := fun _ f hf => ?_
    mapReply := fun x hx hm => ?_
    reduceReply := fun x hx hr => ?_ }
  · exact h.file hp f (by rw [hfiles]; exact List.mem_append_left _ hf)
  · rcases List.mem_append.mp hx with hx | hx
    · exact h.mapReply x hx hm
    · rw [List.mem_singleton.mp hx]
      exact ⟨h.number, file, rfl, h.file hp file (by rw [hfiles]; simp)⟩
  · rcases List.mem_append.mp hx with hx | hx
    · exact absurd hp (h.reduceReply x hx hr).1
    · rw [List.mem_singleton.mp hx] at hr
      cases hr

theorem Handed.assign_reduce (h : Handed files nReduce s) {w r : Nat} {rest : List Nat}
    (hp : s.master.phase = .reduce) (hr : s.master.rTask = rest ++ [r]) :
    Handed files nReduce { s with
      master := { s.master with
        worker2task := s.master.worker2task.insert w
          ⟨r, s.master.validTask.map fun t => Master.reduceFile t r⟩
        rTask := rest }
      timers := s.timers ++ [⟨.reduce, w, r⟩]
      workers := Function.update s.workers w
        (some ⟨.reduce, r, s.master.validTask.map fun t => Master.reduceFile t r, 0⟩)
      assigned := s.assigned ++
        [(w, ⟨.reduce, r, s.master.validTask.map fun t => Master.reduceFile t r, 0⟩)] } := by
  have hno : s.master.phase ≠ .map := by rw [hp]; decide
  have hnodup := h.waiting
  rw [hr] at hnodup
  have hrest : ∀ t, t ∉ s.master.rTask → t ∉ rest ∧ t ≠ r := by
    intro t ht
    rw [hr, List.mem_append, List.mem_singleton, not_or] at ht
    exact ht
  refine { h with
    left := fun hm => absurd hm hno
    waiting := (List.nodup_append.mp hnodup).1
    held := ?_
    apart := ?_
    done := ?_
    reported := fun x hx => List.mem_append_left _ (h.reported x hx)
    file := fun hm => absurd hm hno
    mapReply := fun x hx hm => ?_
    reduceReply := fun x hx hx' => ?_ }
  · intro _ v v' T T' hv hv' e
    rcases lookup_insert_some hv with ⟨hvw, hT⟩ | ⟨_, hold⟩ <;>
      rcases lookup_insert_some hv' with ⟨hvw', hT'⟩ | ⟨_, hold'⟩
    · exact hvw.trans hvw'.symm
    · exact absurd (e.symm.trans (congrArg Task.taskNum hT)) (hrest _ (h.apart hp v' T' hold')).2
    · exact absurd (e.trans (congrArg Task.taskNum hT')) (hrest _ (h.apart hp v T hold)).2
    · exact h.held hp v v' T T' hold hold' e
  · intro _ v T hv
    rcases lookup_insert_some hv with ⟨rfl, rfl⟩ | ⟨_, hv⟩
    · exact fun hmem => (List.disjoint_of_nodup_append hnodup) hmem (List.mem_singleton_self _)
    · exact (hrest _ (h.apart hp v T hv)).1
  · intro x hx hx'
    obtain ⟨_, h2, h3⟩ := h.done x hx hx'
    refine ⟨hno, (hrest _ h2).1, fun _ v T hv => ?_⟩
    rcases lookup_insert_some hv with ⟨rfl, rfl⟩ | ⟨_, hv⟩
    · exact fun e => (hrest _ h2).2 e.symm
    · exact h3 hp v T hv
  · rcases List.mem_append.mp hx with hx | hx
    · exact h.mapReply x hx hm
    · rw [List.mem_singleton.mp hx] at hm
      cases hm
  · rcases List.mem_append.mp hx with hx | hx
    · exact h.reduceReply x hx hx'
    · rw [List.mem_singleton.mp hx]
      exact ⟨hno, rfl⟩

/-- A task is handed in by the worker that holds it. -/
theorem Handed.report (h : Handed files nReduce s) (hb : Booked s) {w : Nat} {T : Task}
    {reply : TaskReply} (hT : s.master.worker2task.lookup w = some T)
    (hbusy : s.workers w = some reply) :
    Handed files nReduce { s with
      master := s.master.scheduleDone w
      workers := Function.update s.workers w none
      reported := s.reported ++ [(w, reply)] } := by
  obtain ⟨hass, htask, hnum, _⟩ := hb.reply_held hT hbusy
  have hrep : ∀ x ∈ s.reported ++ [(w, reply)], x ∈ s.assigned := by
    intro x hx
    rcases List.mem_append.mp hx with hx | hx
    · exact h.reported x hx
    · rw [List.mem_singleton.mp hx]
      exact hass
  cases hp : s.master.phase with
  | finish =>
      rw [hb.finish hp w] at hT
      cases hT
  | map =>
      have hleft := scheduleDone_left_map hp w
      obtain ⟨phase, e, hph⟩ := Master.scheduleDone_map hp w
      rw [e] at hleft ⊢
      refine { h with
        left := hleft
        held := fun hr => ?_
        apart := fun hr => ?_
        done := fun x hx hx' => ?_
        reported := hrep
        file := fun _ => h.file hp
        reduceReply := fun x hx hx' => absurd hp (h.reduceReply x hx hx').1 }
      · rcases hph with rfl | ⟨_, _, hnone⟩
        · cases hr
        · intro v v' T T' hv
          rw [show ((s.master.worker2task.erase w).lookup v) = none from hnone v] at hv
          cases hv
      · rcases hph with rfl | ⟨_, _, hnone⟩
        · cases hr
        · intro v T hv
          rw [show ((s.master.worker2task.erase w).lookup v) = none from hnone v] at hv
          cases hv
      · rcases List.mem_append.mp hx with hx | hx
        · exact absurd hp (h.done x hx hx').1
        · rw [List.mem_singleton.mp hx, htask, hp] at hx'
          cases hx'
  | reduce =>
      obtain ⟨phase, e, hph⟩ := Master.scheduleDone_reduce hp w
      have hno : phase ≠ .map := by
        rcases hph with rfl | ⟨rfl, _⟩ <;> exact nofun
      rw [e]
      refine { h with
        left := fun hm => absurd hm hno
        held := fun _ v v' T₁ T₂ hv hv' => ?_
        apart := fun _ v T₁ hv => ?_
        done := fun x hx hx' => ?_
        reported := hrep
        file := fun hm => absurd hm hno
        reduceReply := fun x hx hx' => ⟨hno, (h.reduceReply x hx hx').2⟩ }
      · exact h.held hp v v' T₁ T₂ (lookup_erase_some hv).2 (lookup_erase_some hv').2
      · exact h.apart hp v T₁ (lookup_erase_some hv).2
      · rcases List.mem_append.mp hx with hx | hx
        · obtain ⟨_, h2, h3⟩ := h.done x hx hx'
          exact ⟨hno, h2, fun _ v T₁ hv => h3 hp v T₁ (lookup_erase_some hv).2⟩
        · rw [List.mem_singleton.mp hx]
          refine ⟨hno, by rw [hnum]; exact h.apart hp w T hT, fun _ v T₁ hv e => ?_⟩
          obtain ⟨hvw, hv⟩ := lookup_erase_some hv
          exact hvw (h.held hp v w T₁ T hv hT (e.trans hnum))

/-- A timer gives back the task it was started for. -/
theorem Handed.timeout (h : Handed files nReduce s) (hb : Booked s) {k : Nat} {timer : Timer}
    (hk : s.timers[k]? = some timer) (hg : timersApart s (.timeout k) = true) :
    Handed files nReduce
      { s with master := s.master.timeout timer, timers := s.timers.eraseIdx k } := by
  rcases s.master.timeout_cases timer with e | ⟨T, hT, hnum, ⟨hmap, e⟩ | ⟨hmap, e⟩⟩ <;> rw [e]
  · exact { h with }
  · -- a map timer finds its number in the map phase only
    have hp : s.master.phase = .map := by
      by_contra hp
      simp [timersApart, hk, hp, hmap, hT, hnum] at hg
    have hno : s.master.phase ≠ .reduce := by rw [hp]; decide
    obtain ⟨reply, _, hass, htask, _, hfile⟩ := hb.held _ T hT
    obtain ⟨_, f, hf, hname⟩ := h.mapReply _ hass (by rw [htask, hp]; rfl)
    rw [← hfile, show reply.file = [f] from hf]
    refine { h with
      left := fun _ => Or.inl (by simp)
      held := fun hr => absurd hr hno
      apart := fun hr => absurd hr hno
      done := fun x hx hx' => absurd hp (h.done x hx hx').1
      file := fun _ f' hf' => ?_ }
    rcases List.mem_append.mp hf' with hf' | hf'
    · exact h.file hp f' hf'
    · rw [List.mem_singleton.mp hf']
      exact hname
  · have hp : s.master.phase = .reduce := by
      cases hp : s.master.phase with
      | map => exact absurd (hb.timers hp timer (List.mem_of_getElem? hk)) hmap
      | reduce => rfl
      | finish =>
          rw [hb.finish hp] at hT
          cases hT
    have hno : s.master.phase ≠ .map := by rw [hp]; decide
    have hback : ∀ t, t ∉ s.master.rTask → T.taskNum ≠ t → t ∉ s.master.rTask ++ [T.taskNum] := by
      intro t h1 h2 hmem
      rcases List.mem_append.mp hmem with hmem | hmem
      · exact h1 hmem
      · exact h2 (List.mem_singleton.mp hmem).symm
    refine { h with
      left := fun hm => absurd hm hno
      waiting := ?_
      held := fun _ v v' T₁ T₂ hv hv' => ?_
      apart := fun _ v T₁ hv => ?_
      done := fun x hx hx' => ?_
      file := fun hm => absurd hm hno }
    · refine List.nodup_append.mpr ⟨h.waiting, List.nodup_singleton _, fun a ha b hb' => ?_⟩
      rw [List.mem_singleton.mp hb']
      rintro rfl
      exact h.apart hp _ T hT ha
    · exact h.held hp v v' T₁ T₂ (lookup_erase_some hv).2 (lookup_erase_some hv').2
    · obtain ⟨hvw, hv⟩ := lookup_erase_some hv
      exact hback _ (h.apart hp v T₁ hv) fun e => hvw (h.held hp v _ T₁ T hv hT e.symm)
    · obtain ⟨_, h2, h3⟩ := h.done x hx hx'
      exact ⟨hno, hback _ h2 (h3 hp _ T hT), fun _ v T₁ hv => h3 hp v T₁ (lookup_erase_some hv).2⟩

theorem handed_step {a : Action} (h : Handed files nReduce s) (hb : Booked s)
    (hg : orderly s a = true) (hs : Move s a s') : Handed files nReduce s' := by
  cases hs with
  | register =>
      exact { h with }
  | wait w _ => exact h
  | zero w _ hphase hfiles hheld =>
      rcases h.left hphase with hne | ⟨v, T, hv⟩
      · exact absurd hfiles hne
      · rw [hheld v] at hv
        cases hv
  | map w rest file _ hphase hfiles => exact h.assign_map hphase hfiles
  | reduce w rest r files _ hphase hr hfiles =>
      subst hfiles
      exact h.assign_reduce hphase hr
  | report w reply hbusy =>
      obtain ⟨T, hT⟩ := Option.isSome_iff_exists.mp hg
      exact h.report hb hT hbusy
  | timeout k timer hk => exact h.timeout hb hk hg

theorem handed_reach (hne : files ≠ [])
    (h : Reach step (fun s a => orderly s a = true) (init files nReduce) s) :
    Handed files nReduce s := by
  induction h with
  | start => exact handed_init hne
  | move s s' a hr hg hs ih => exact handed_step ih (booked_reach hr) hg (move_of_step hs)

/-! ## 3. One task for each file -/

theorem apart_orderly (h : Reach step (fun s a => orderly s a = true) (init files nReduce) s) :
    Apart s := apart_reach (h.mono fun _ _ => reportsHeld_of_orderly)

/-- `x` was given the map task `t` over the entry `e` of the file list. -/
def Maps (files : List String) (s : World) (x : Nat × TaskReply) (t e : Nat) : Prop :=
  x ∈ s.assigned ∧ x.2.task = .map ∧ x.2.taskNum = t ∧
    ∃ f, x.2.file = [f] ∧ files[e]? = some f.name ∧ f.entry = some e

theorem Maps.mapTask {x : Nat × TaskReply} {t e : Nat} (h : Maps files s x t e) :
    MapTask s x t e := by
  obtain ⟨h1, h2, h3, f, hf, _, he⟩ := h
  exact ⟨h1, h2, h3, f, by rw [hf]; exact List.mem_singleton_self _, he⟩

theorem maps_of_valid (ha : Apart s) (hh : Handed files nReduce s) {t : Nat}
    (ht : t ∈ s.master.validTask) : ∃ e x, Maps files s x t e := by
  obtain ⟨x, hx, htask, hnum, _⟩ := ha.own t ht
  obtain ⟨_, f, hf, e, hname, he⟩ := hh.mapReply x hx htask
  exact ⟨e, x, hx, htask, hnum, f, hf, hname, he⟩

theorem map_getD_range (l : List String) :
    (List.range l.length).map (fun e => l.getD e "") = l := by
  refine List.ext_getElem (by simp) fun i h1 h2 => ?_
  simp [List.getD_eq_getElem?_getD, List.getElem?_eq_getElem h2]

/-- **The tasks in `ValidTask` are the input files**, each once, when the map phase is over. -/
theorem validTask_files (hne : files ≠ [])
    (h : Reach step (fun s a => orderly s a = true) (init files nReduce) s)
    (hp : s.master.phase ≠ .map) :
    ∃ name : Nat → String, (s.master.validTask.map name).Perm files ∧
      ∀ t ∈ s.master.validTask, ∃ x ∈ s.assigned, x.2.task = .map ∧ x.2.taskNum = t ∧
        x.2.file.map File.name = [name t] := by
  have ha := apart_orderly h
  have hh := handed_reach hne h
  have hmaps : ∀ t, t ∈ s.master.validTask → ∃ e x, Maps files s x t e := fun t ht =>
    maps_of_valid ha hh ht
  choose! entry hentry using hmaps
  -- the entries of the tasks are all entries
  have hperm : (s.master.validTask.map entry).Perm (List.range files.length) := by
    refine (List.perm_ext_iff_of_nodup (ha.nodup.map_on fun t ht t' ht' e => ?_)
      List.nodup_range).mpr fun e => ?_
    · obtain ⟨x, hx⟩ := hentry t ht
      obtain ⟨x', hx'⟩ := hentry t' ht'
      rw [← e] at hx'
      have hsame := ha.place (entry t) (.task t) (.task t') ⟨ht, x, hx.mapTask⟩ ⟨ht', x', hx'.mapTask⟩
      cases hsame
      rfl
    · rw [List.mem_map, List.mem_range]
      constructor
      · rintro ⟨t, ht, rfl⟩
        obtain ⟨x, _, _, _, f, _, hname, _⟩ := hentry t ht
        exact (List.getElem?_eq_some_iff.mp hname).1
      · intro he
        rcases kept_reach h he with ⟨hm, _⟩ | ⟨hm, _⟩ | ⟨w, reply, hass, htask, hreads, _, hvalid⟩
        · exact absurd hm hp
        · exact absurd hm hp
        · refine ⟨reply.taskNum, hvalid, ?_⟩
          obtain ⟨x, hx, htask', hnum, f, hf, _, he'⟩ := hentry _ hvalid
          obtain rfl := ha.single x hx (w, reply) hass htask' htask hnum
          obtain ⟨f', hf', hfe⟩ := hreads
          rw [show reply.file = [f] from hf, List.mem_singleton] at hf'
          rw [hf', he', Option.some.injEq] at hfe
          exact hfe
  refine ⟨fun t => files.getD (entry t) "", ?_, fun t ht => ?_⟩
  · have hmap := hperm.map fun e => files.getD e ""
    rw [map_getD_range, List.map_map] at hmap
    exact hmap
  · obtain ⟨x, hx, htask, hnum, f, hf, hname, _⟩ := hentry t ht
    refine ⟨x, hx, htask, hnum, ?_⟩
    dsimp only
    rw [hf, List.getD_eq_getElem?_getD, hname]
    rfl

end Mit6824.Mr.World
