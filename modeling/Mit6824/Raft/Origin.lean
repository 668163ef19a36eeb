/-
  File:      Mit6824/Raft/Origin.lean
  Subject:   RAFT INVENTS NOTHING: where the entries of the logs and the delivered commands come
             from, in any run at all.

  No guard is needed here. Whatever the sections do to the order of the entries, with slices past
  the length of a log (`spare`), requests that are overwritten before they go out (`memory`) or two
  leaders in one term: an entry is one that `Start` appended, or it carries no command and stands
  for what a snapshot has replaced, for the first index, or for an unused place of an array.

  * `Raft.Change.sends`, `chan_step`, `everSent_step` -- what one step adds to the channels;
  * `Origin`, `Made` -- entries in arrays and requests; `made_reach` -- in every run. The predicate
    `F` says which indexes an entry without a command may have;
  * `delivered_started` -- **every command but `nil` that is ever delivered was passed to `Start`.**
-/
import Mit6824.Raft.Stream
import Mit6824.Raft.Entries

namespace Mit6824

open Lib

variable {n : Nat} {C : Type}

/-! ## 1. What a step sends -/

namespace Raft

/-- `rf'` has sent, beyond what `rf` had, only commands that stand in the log of `rf`. -/
def SendsFromLog (rf rf' : Raft n C) : Prop :=
  ∃ ms, rf'.applyChan = rf.applyChan ++ ms ∧ ∀ m ∈ ms, m.commandValid = true →
    ∃ (i : Nat) (e : LogEntry C), 0 < i ∧ rf.getLogByIndexUnLock i = some e ∧
      m = ⟨true, .value e.log, i⟩

theorem Quiet.sendsFromLog {rf rf' : Raft n C} (h : Quiet rf rf') : SendsFromLog rf rf' := by
  obtain ⟨ms, hc, hms⟩ := h.sends
  refine ⟨ms, hc, fun m hm hv => ?_⟩
  rw [hms m hm] at hv
  cases hv

theorem apply_sendsFromLog {rf rf' : Raft n C} (h : rf.apply = some rf') : SendsFromLog rf rf' := by
  obtain ⟨ms, hms, hs⟩ := handSnapshot_frame rf
  have invalid : ∀ m ∈ ms, m.commandValid = true → ∃ (i : Nat) (e : LogEntry C), 0 < i ∧
      rf.getLogByIndexUnLock i = some e ∧ m = ⟨true, .value e.log, i⟩ := by
    intro m hm hv
    rw [hms m hm] at hv
    cases hv
  rcases apply_cases h with ⟨_, rfl⟩ | ⟨_, ms', hms', rfl⟩
  · rw [hs]
    exact ⟨ms, rfl, invalid⟩
  · refine ⟨ms ++ ms', by rw [hs]; exact List.append_assoc _ _ _, fun m hm hv => ?_⟩
    rcases List.mem_append.mp hm with hm | hm
    · exact invalid m hm hv
    · obtain ⟨i, e, hlt, _, he, rfl⟩ := hms' m hm
      refine ⟨i, e, Nat.lt_of_le_of_lt (Nat.zero_le _) hlt, ?_, rfl⟩
      rw [hs] at he
      exact he

/-- **What a section sends**: only `apply` hands over commands, only `Make` begins anew. -/
theorem Change.sends {me : Fin n} {a : Action n C} {rf rf' : Raft n C} {evs : List (Event n C)}
    (h : Change me a rf evs rf') :
    (∃ grow, a = .restart me grow) ∨ (a = .apply me ∧ rf.apply = some rf') ∨ Quiet rf rf' := by
  cases h with
  | idle => exact Or.inr (Or.inr (Quiet.of_eq rfl rfl))
  | send => exact Or.inr (Or.inr (Quiet.of_eq rfl rfl))
  | candidate => exact Or.inr (Or.inr (quiet_persist rfl rfl))
  | vote e _ args =>
      refine Or.inr (Or.inr ?_)
      rcases requestVote_cases rf args with ⟨_, e⟩ | ⟨_, _, e⟩ | ⟨_, _, e⟩ <;> rw [e]
      · exact Quiet.of_eq rfl rfl
      · exact (quiet_catchUp rf args.term).trans (quiet_persist rfl rfl)
      · exact quiet_catchUp rf args.term
  | down e u _ t _ => exact Or.inr (Or.inr (quiet_persist rfl rfl))
  | lead e u _ _ => exact Or.inr (Or.inr (quiet_persist rfl rfl))
  | start k grow _ command term => exact Or.inr (Or.inr (quiet_startLog rf command grow))
  | append k grow _ _ args reply spawn h => exact Or.inr (Or.inr (quiet_appendEntries h))
  | next k u _ f => exact Or.inr (Or.inr (Quiet.of_eq rfl rfl))
  | count k u _ i => exact Or.inr (Or.inr (Quiet.of_eq (by simp) (by simp)))
  | commit k u _ i _ => exact Or.inr (Or.inr (Quiet.of_eq (by simp) (by simp)))
  | apply _ _ h => exact Or.inr (Or.inl ⟨rfl, h⟩)
  | snapshot _ _ index storage _ h =>
      refine Or.inr (Or.inr ?_)
      rcases saveSnapshot_cases h with ⟨_, rfl⟩ | ⟨_, e, ls, _, _, rfl⟩
      · exact Quiet.of_eq rfl rfl
      · exact quiet_persist rfl rfl
  | restart grow _ => exact Or.inl ⟨grow, rfl⟩

end Raft

namespace Cluster

/-- Only a restart ends an instance. -/
theorem past_step {s s' : Cluster n C} {a : Action n C} (h : s.step a = some s')
    (ha : ∀ v grow, a ≠ .restart v grow) : s'.past = s.past := by
  cases a with
  | restart v grow => exact absurd rfl (ha v grow)
  | startOneElection w =>
      cases Option.some.inj h
      rfl
  | voteArgs e =>
      obtain ⟨E, hn, _, _, rfl⟩ := voteArgs_inv h
      rfl
  | handleVote e u =>
      obtain ⟨E, args, _, _, rfl⟩ := handleVote_inv h
      split <;> rfl
  | voteCheck e u =>
      obtain ⟨E, args, reply, _, _, _, rfl⟩ := voteCheck_inv h
      rfl
  | voteReply e u =>
      obtain ⟨E, args, reply, _, _, _, h⟩ := voteReply_inv h
      rcases h with ⟨_, _, rfl⟩ | ⟨_, _, rfl⟩ | ⟨_, _, rfl⟩ | ⟨_, rfl⟩ <;> rfl
  | startState w command =>
      cases Option.some.inj h
      unfold startState
      split <;> rfl
  | startAppend k grow =>
      obtain ⟨S, _, _, rfl⟩ := startAppend_inv h
      rfl
  | beatState w =>
      cases Option.some.inj h
      unfold beatState
      split <;> rfl
  | beatSend k =>
      obtain ⟨b, _, _, rfl⟩ := beatSend_inv h
      rfl
  | castState k =>
      obtain ⟨B, _, _, _, rfl⟩ := castState_inv h
      rfl
  | castTerm k =>
      obtain ⟨B, _, _, _, rfl⟩ := castTerm_inv h
      rfl
  | peerState k u =>
      obtain ⟨B, _, _, _, rfl⟩ := peerState_inv h
      rfl
  | peerArgs k u =>
      obtain ⟨B, _, _, _, h⟩ := peerArgs_inv h
      rcases h with rfl | ⟨args, _, _, _, rfl⟩ <;> rfl
  | encode k u m =>
      obtain ⟨B, args, next, slice, encoded, _, _, _, h⟩ := encode_inv h
      rcases h with ⟨_, rfl⟩ | ⟨_, rfl⟩ <;> rfl
  | handleAppend k u grow =>
      obtain ⟨B, args, next, rf, reply, spawn, _, _, _, rfl⟩ := handleAppend_inv h
      split <;> split <;> rfl
  | peerCheck k u =>
      obtain ⟨B, args, next, reply, _, _, _, rfl⟩ := peerCheck_inv h
      rfl
  | peerReply k u =>
      obtain ⟨B, args, next, reply, _, _, _, h⟩ := peerReply_inv h
      rcases h with ⟨_, _, rfl⟩ | ⟨_, _, next', _, rfl⟩ | ⟨_, rfl⟩ | ⟨_, _, _, _, rfl⟩ <;> rfl
  | apply w =>
      obtain ⟨rf, _, rfl⟩ := apply_inv h
      rfl
  | saveSnapshot w index storage =>
      obtain ⟨rf, _, _, rfl⟩ := saveSnapshot_inv h
      rfl

/-- **What a step adds to the channel of a server**, unless it restarts it: commands out of its
    log, and only if the step is its `apply`. -/
theorem chan_step {s s' : Cluster n C} {a : Action n C} (h : s.step a = some s') {v : Fin n}
    (hres : ∀ grow, a ≠ .restart v grow) :
    (s.rafts v).SendsFromLog (s'.rafts v) ∧
      (a ≠ .apply v → (s.rafts v).Quiet (s'.rafts v)) := by
  have quiet : (s.rafts v).Quiet (s'.rafts v) → (s.rafts v).SendsFromLog (s'.rafts v) ∧
      (a ≠ .apply v → (s.rafts v).Quiet (s'.rafts v)) := fun hq => ⟨hq.sendsFromLog, fun _ => hq⟩
  obtain ⟨w, evs, hA⟩ := step_acts h
  by_cases hv : v = w
  · subst hv
    rcases hA.change with hc | ⟨t, _, _, e⟩
    · rcases hc.sends with ⟨grow, e⟩ | ⟨rfl, ha⟩ | hq
      · exact absurd e (hres grow)
      · exact ⟨Raft.apply_sendsFromLog ha, fun hne => absurd rfl hne⟩
      · exact quiet hq
    · exact quiet (by rw [e]; exact Raft.quiet_persist rfl rfl)
  · exact quiet (by rw [hA.others v hv]; exact Raft.Quiet.of_eq rfl rfl)

/-- What a server has ever sent only grows; a restart adds no command, and begins a new channel. -/
theorem everSent_step {s s' : Cluster n C} {a : Action n C} (h : s.step a = some s') (v : Fin n) :
    ∃ ms, s'.everSent v = s.everSent v ++ ms ∧ ∀ m ∈ ms, m.commandValid = true →
      ∃ (i : Nat) (e : LogEntry C), 0 < i ∧ (s.rafts v).getLogByIndexUnLock i = some e ∧
        m = ⟨true, .value e.log, i⟩ := by
  by_cases hres : ∃ w grow, a = .restart w grow
  · obtain ⟨w, grow, rfl⟩ := hres
    cases Option.some.inj h
    by_cases hv : v = w
    · subst hv
      refine ⟨(Raft.make (s.rafts v).persister grow).applyChan, ?_, fun m hm hv => ?_⟩
      · simp [everSent, restart]
      · rw [Raft.make_quiet m hm] at hv
        cases hv
    · refine ⟨[], ?_, fun m hm => absurd hm List.not_mem_nil⟩
      simp [everSent, restart, Function.update_of_ne hv]
  · obtain ⟨ms, hc, hms⟩ := (chan_step h (v := v) fun grow e => hres ⟨v, grow, e⟩).1
    refine ⟨ms, ?_, hms⟩
    rw [everSent, everSent, past_step h fun w grow e => hres ⟨w, grow, e⟩, hc, List.append_assoc]

end Cluster

/-! ## 2. Where entries come from -/

/-- `Start` has appended this entry. -/
def Appended (hist : List (Event n C)) (e : LogEntry C) : Prop :=
  ∃ v st i t, Event.append v st e i t ∈ hist

/-- **An entry that `Start` appended, or one without a command**, at an index that `F` admits. -/
def Origin (F : Nat → Prop) (hist : List (Event n C)) (e : LogEntry C) : Prop :=
  Appended hist e ∨ (e.log = none ∧ F e.index)

theorem Origin.mono {F : Nat → Prop} {hist hist' : List (Event n C)} {e : LogEntry C}
    (h : Origin F hist e) (hsub : ∀ ev ∈ hist, ev ∈ hist') : Origin F hist' e := by
  rcases h with ⟨v, st, i, t, h⟩ | h
  · exact Or.inl ⟨v, st, i, t, hsub _ h⟩
  · exact Or.inr h

theorem origin_zero {F : Nat → Prop} (h0 : F 0) (hist : List (Event n C)) :
    Origin F hist (LogEntry.zero : LogEntry C) := Or.inr ⟨rfl, h0⟩

namespace Raft

/-- What stands in the arrays of a server. -/
theorem mem_arrays {rf : Raft n C} {e : LogEntry C} : e ∈ rf.arrays.flatten ↔
    (∃ a ∈ rf.memory.old, e ∈ a) ∨ e ∈ rf.memory.front ∨ e ∈ rf.log ∨ e ∈ rf.spare := by
  simp only [arrays, array, List.flatten_append, List.flatten_singleton, List.mem_append,
    List.mem_flatten]

theorem mem_arrays_of_log {rf : Raft n C} {e : LogEntry C} (h : e ∈ rf.log ++ rf.spare) :
    e ∈ rf.arrays.flatten :=
  mem_arrays.mpr (Or.inr (Or.inr (List.mem_append.mp h)))

/-- What a new array begins with, and what the old ones keep. -/
theorem mem_arrays_appendLog {rf rf' : Raft n C} {entries l sp : List (LogEntry C)} {grow : Nat}
    {e : LogEntry C} (h : rf' = rf.appendLog l sp entries grow)
    (hsub : ∀ x ∈ l ++ sp, x ∈ rf.log ++ rf.spare) (he : e ∈ rf'.arrays.flatten) :
    e ∈ rf.arrays.flatten ∨ e ∈ entries ∨ e = LogEntry.zero := by
  have hlog : e ∈ rf'.log ++ rf'.spare → e ∈ rf.arrays.flatten ∨ e ∈ entries ∨ e = LogEntry.zero :=
    fun he => (mem_appendLog h he).imp_left fun he => mem_arrays_of_log (hsub e he)
  rcases mem_arrays.mp he with he | he | he
  · subst h
    unfold appendLog at he
    split at he
    · exact Or.inl (mem_arrays.mpr (Or.inl he))
    · exact Or.inl (List.mem_flatten.mpr he)
  · subst h
    unfold appendLog at he
    split at he
    · exact Or.inl (mem_arrays.mpr (Or.inr (Or.inl he)))
    · exact absurd he List.not_mem_nil
  · exact hlog (List.mem_append.mpr he)

/-- What is read stands in an array, now or when it was read. -/
theorem mem_readOn {rf : Raft n C} {slice : Slice} {len m : Nat} {encoded : List (LogEntry C)}
    {e : LogEntry C} (he : e ∈ rf.readOn slice len m encoded) :
    e ∈ encoded ∨ e ∈ rf.arrays.flatten := by
  refine (List.mem_append.mp he).imp_right fun he => ?_
  have hmem := List.mem_of_mem_drop (List.mem_of_mem_take he)
  cases ha : rf.arrays[slice.array]? with
  | none =>
      rw [ha] at hmem
      exact absurd hmem List.not_mem_nil
  | some a =>
      rw [ha] at hmem
      exact List.mem_flatten.mpr ⟨a, List.mem_of_getElem? ha, hmem⟩

/-- The entries in the arrays of a server. -/
def MadeOf (F : Nat → Prop) (hist : List (Event n C)) (rf : Raft n C) : Prop :=
  ∀ e ∈ rf.arrays.flatten, Origin F hist e

variable {F : Nat → Prop} {hist : List (Event n C)} {rf rf' : Raft n C}

theorem MadeOf.congr (h : MadeOf F hist rf) (hl : rf'.log = rf.log) (hs : rf'.spare = rf.spare)
    (hm : rf'.memory = rf.memory) : MadeOf F hist rf' := by
  unfold MadeOf arrays array
  rw [hl, hs, hm]
  exact h

/-- `append`, with the unused places of a new array. -/
theorem madeOf_appendLog {l sp entries : List (LogEntry C)} {grow : Nat} (h0 : F 0)
    (h : rf' = rf.appendLog l sp entries grow) (hrf : MadeOf F hist rf)
    (hsub : ∀ x ∈ l ++ sp, x ∈ rf.log ++ rf.spare) (he : ∀ e ∈ entries, Origin F hist e) :
    MadeOf F hist rf' := by
  intro e hmem
  rcases mem_arrays_appendLog h hsub hmem with hmem | hmem | rfl
  · exact hrf e hmem
  · exact he e hmem
  · exact origin_zero h0 hist

/-- The install of a snapshot leaves a part of the log, or a placeholder in a new array. -/
theorem madeOf_updateSnapshotUnLock (h0 : F 0) (h : MadeOf F hist rf) (sn : Snapshot)
    (hsn : F sn.index) (grow : Nat) : MadeOf F hist (rf.updateSnapshotUnLock sn grow) := by
  unfold updateSnapshotUnLock
  split
  · split
    · intro e he
      rcases mem_arrays.mp he with he | he | he | he
      · exact h e (List.mem_flatten.mpr he)
      · exact absurd he List.not_mem_nil
      · rw [List.mem_singleton.mp he]
        exact Or.inr ⟨rfl, hsn⟩
      · rw [List.eq_of_mem_replicate he]
        exact origin_zero h0 hist
    · rename_i x xs hd
      have hsuf : x :: xs <:+ rf.log := hd ▸ List.dropWhile_suffix _
      intro e he
      refine h e (mem_arrays.mpr ?_)
      rcases mem_arrays.mp he with he | he | he | he
      · exact Or.inl he
      · rcases List.mem_append.mp he with he | he
        · exact Or.inr (Or.inl he)
        · exact Or.inr (Or.inr (Or.inl ((List.takeWhile_sublist _).subset he)))
      · exact Or.inr (Or.inr (Or.inl (hsuf.subset he)))
      · exact Or.inr (Or.inr (Or.inr he))
  · exact h

theorem madeOf_saveSnapshot (h : MadeOf F hist rf) {index : Nat} {storage : List UInt8}
    (hs : rf.saveSnapshot index storage = some rf') : MadeOf F hist rf' := by
  rcases saveSnapshot_cases hs with ⟨_, rfl⟩ | ⟨_, x, ls, _, hls, rfl⟩
  · exact h
  · have hcut : MadeOf F hist { rf with
        log := ls.1, spare := ls.2,
        memory := rf.cutOff (rf.log.take (index - rf.snapshot.index)) } := by
      intro e he
      rcases mem_arrays.mp he with he | he | he
      · exact h e (mem_arrays.mpr (Or.inl he))
      · rcases List.mem_append.mp he with he | he
        · exact h e (mem_arrays.mpr (Or.inr (Or.inl he)))
        · exact h e (mem_arrays.mpr (Or.inr (Or.inr (Or.inl (List.mem_of_mem_take he)))))
      · exact h e (mem_arrays_of_log (mem_sliceLog hls (List.mem_append.mpr he)))
    exact hcut.congr (by simp) (by simp) (by simp)

theorem madeOf_acceptEntries (h0 : F 0) (h : MadeOf F hist rf) {args : AppendEntriesArgs n C}
    {grow : Nat}
    (ha : rf.acceptEntries args (rf.trimArgs args).1 (rf.trimArgs args).2.2 grow = some rf')
    (hsn : F args.logSnapshot.index) (hes : ∀ e ∈ args.entries, Origin F hist e) :
    MadeOf F hist rf' := by
  obtain ⟨m, log, spare, rfl, hl⟩ := acceptEntries_cases ha
  have htrim : ∀ e ∈ (rf.trimArgs args).2.2, Origin F hist e := fun e he =>
    hes e ((trimArgs_spec rf args).2 e he)
  -- the log as it was, extended, or cut and extended
  have hparts : MadeOf F hist { rf with memory := m, log := log, spare := spare } := by
    rcases hl with ⟨_, e⟩ | ⟨_, _, e⟩ | ⟨_, _, ls, hs, e⟩
    · rw [e]
      exact h
    · exact madeOf_appendLog h0 e h (fun _ hx => hx) htrim
    · exact madeOf_appendLog h0 e h (fun _ hx => mem_sliceLog hs hx) htrim
  have hw : MadeOf F hist (rf.written m log spare args.leaderCommit
      ((rf.trimArgs args).1 + (rf.trimArgs args).2.2.length)) :=
    hparts.congr (by simp) (by simp) (by simp)
  exact (madeOf_updateSnapshotUnLock h0 hw _ hsn grow).congr (by simp) (by simp) (by simp)

theorem madeOf_appendEntries (h0 : F 0) (h : MadeOf F hist rf) {args : AppendEntriesArgs n C}
    {grow : Nat} {reply : AppendEntriesReply} {spawn : Bool}
    (ha : rf.appendEntries args grow = some (rf', reply, spawn)) (hsn : F args.logSnapshot.index)
    (hes : ∀ e ∈ args.entries, Origin F hist e) : MadeOf F hist rf' := by
  have hc : MadeOf F hist (rf.catchUp args.term) := h.congr (by simp) (by simp) (by simp)
  rcases appendEntries_cases ha with ⟨_, rfl, _⟩ | ⟨_, _, ha, _⟩ | ⟨_, _, rfl, _⟩
  · exact h
  · exact madeOf_acceptEntries h0 hc ha hsn hes
  · exact hc

theorem madeOf_make (h0 : F 0) (h : MadeOf F hist rf) (hs : rf.Saved) (hne : rf.log ≠ [])
    (grow : Nat) : MadeOf F hist (make rf.persister grow) := by
  obtain ⟨_, _, hl, _⟩ := make_saved hs hne grow
  intro e he
  rw [mem_arrays, hl, make_spare, make_memory] at he
  rcases he with ⟨_, ha, _⟩ | he | he | he
  · exact absurd ha List.not_mem_nil
  · exact absurd he List.not_mem_nil
  · exact h e (mem_arrays.mpr (Or.inr (Or.inr (Or.inl he))))
  · rw [List.eq_of_mem_replicate he]
    exact origin_zero h0 hist

/-- **Every section keeps it**; the requests a handler takes are looked at elsewhere. -/
theorem madeOf_change {me : Fin n} {a : Action n C} {evs : List (Event n C)}
    (hc : Change me a rf evs rf') (h0 : F 0) (h : MadeOf F hist rf) (hs : rf.Saved)
    (hne : rf.log ≠ []) (hevs : ∀ ev ∈ evs, ev ∈ hist) :
    MadeOf F hist rf' ∨ ∃ k grow, a = .handleAppend k me grow := by
  cases hc with
  | idle => exact Or.inl h
  | send => exact Or.inl h
  | candidate => exact Or.inl (h.congr (by simp [becomeCandidate]) (by simp [becomeCandidate])
      (by simp [becomeCandidate]))
  | vote e _ args =>
      refine Or.inl ?_
      rcases requestVote_cases rf args with ⟨_, e⟩ | ⟨_, _, e⟩ | ⟨_, _, e⟩ <;> rw [e]
      · exact h
      · exact h.congr (by simp) (by simp) (by simp)
      · exact h.congr (by simp) (by simp) (by simp)
  | down e u _ t _ => exact Or.inl (h.congr (by simp) (by simp) (by simp))
  | lead e u _ _ => exact Or.inl (h.congr (by simp [becomeLeader]) (by simp [becomeLeader])
      (by simp [becomeLeader]))
  | start k grow _ command term =>
      have hnew : ∀ e ∈ [rf.newEntry command], Origin F hist e := by
        intro e he
        rw [List.mem_singleton.mp he]
        exact Or.inl ⟨me, rf.state, (rf.newEntry command).index, term, hevs _ List.mem_cons_self⟩
      exact Or.inl ((madeOf_appendLog h0 rfl h (fun _ hx => hx) hnew).congr (persist_log _)
        (persist_spare _) (persist_memory _))
  | append k grow _ _ args reply spawn _ => exact Or.inr ⟨k, grow, rfl⟩
  | next k u _ f => exact Or.inl h
  | count k u _ i => exact Or.inl (h.congr (by simp) (by simp) (by simp))
  | commit k u _ i _ => exact Or.inl (h.congr (by simp) (by simp) (by simp))
  | apply _ _ h' =>
      obtain ⟨i, ms, rfl⟩ := apply_frame h'
      exact Or.inl h
  | snapshot _ _ index storage _ h' => exact Or.inl (madeOf_saveSnapshot h h')
  | restart grow _ => exact Or.inl (madeOf_make h0 h hs hne grow)

end Raft

/-! ## 3. Every run -/

/-- The entries a call has read and, once its request has gone out, carries. -/
def PeerCall.carried : PeerCall n C → List (LogEntry C)
  | .built _ _ _ encoded => encoded
  | .sent args _ | .replied args _ _ | .checked args _ _ | .counted args => args.entries
  | _ => []

namespace Cluster

/-- **The entries of a cluster**, in arrays and in requests. -/
structure Made (F : Nat → Prop) (s : Cluster n C) : Prop where
  held : ∀ v, (s.rafts v).MadeOf F s.hist
  sent : ∀ B ∈ s.casts, ∀ u, ∀ e ∈ (B.peer u).carried, Origin F s.hist e

/-- The indexes of the snapshots that go around are admitted. -/
def Admits (F : Nat → Prop) (s : Cluster n C) : Prop :=
  Requests (fun args => F args.logSnapshot.index) s

theorem made_handleAppend {F : Nat → Prop} (h0 : F 0) {s s' : Cluster n C} {v : Fin n}
    {k grow : Nat} (h : s.handleAppend k v grow = some s') (hF : Admits F s)
    (hI : Made F s) (hsub : ∀ ev ∈ s.hist, ev ∈ s'.hist) : (s'.rafts v).MadeOf F s'.hist := by
  obtain ⟨B, args, next, reply, spawn, hk, hcall, hr⟩ := handleAppend_raft h
  have hB := List.mem_of_getElem? hk
  refine Raft.madeOf_appendEntries h0 (fun e he => (hI.held v e he).mono hsub) hr
    (hF B hB v args (by rw [hcall]; rfl)) fun e he => (hI.sent B hB v e ?_).mono hsub
  rw [hcall]
  exact he

/-- The next section of a call carries what the call has carried, or what it reads. -/
theorem CallTurn.carried {s s' : Cluster n C} {k : Nat} {B : Cast n C} {u : Fin n}
    {a : Action n C} {c : PeerCall n C} (h : s.CallTurn s' k B u a c) {e : LogEntry C}
    (he : e ∈ c.carried) :
    e ∈ (B.peer u).carried ∨ e ∈ (s.rafts B.owner).arrays.flatten := by
  cases h with
  | reads args next slice encoded m hold =>
      rw [hold]
      exact Raft.mem_readOn he
  | sends args next slice encoded entries m hold hes hg hs _ =>
      subst hes
      rw [hold]
      exact Raft.mem_readOn he
  | looks _ hold hc => rcases hc with rfl | rfl <;> exact absurd he List.not_mem_nil
  | refused args next reply _ hold hc => rcases hc with rfl | rfl <;> exact absurd he List.not_mem_nil
  | givesUp hold => exact absurd he List.not_mem_nil
  | builds args hold ht hi ha => exact absurd he List.not_mem_nil
  | drops args next reply hold => exact absurd he List.not_mem_nil
  | handled args next reply grow hold hs => exact Or.inl (by rw [hold]; exact he)
  | passes args next reply hold ht => exact Or.inl (by rw [hold]; exact he)
  | counts args next reply hold hs => exact Or.inl (by rw [hold]; exact he)

theorem made_casts {F : Nat → Prop} {s s' : Cluster n C} {a : Action n C}
    (h : s.step a = some s') (hI : Made F s) (hsub : ∀ ev ∈ s.hist, ev ∈ s'.hist) :
    ∀ B ∈ s'.casts, ∀ u, ∀ e ∈ (B.peer u).carried, Origin F s'.hist e := by
  have hof : ∀ {k : Nat} {B : Cast n C}, s.casts[k]? = some B → ∀ u, ∀ e ∈ (B.peer u).carried,
      Origin F s'.hist e := fun hB u e he => (hI.sent _ (List.mem_of_getElem? hB) u e he).mono hsub
  intro B' hB' w e he
  obtain ⟨k, hk⟩ := List.mem_iff_getElem?.mp hB'
  cases casts_turn h k B' hk with
  | kept _ _ _ hB _ _ => exact hof hB w e he
  | crashed grow _ B hB => exact hof hB w e he
  | spawned _ _ _ hst hn hp _ _ =>
      rw [hp w] at he
      exact absurd he List.not_mem_nil
  | looks _ B hB hst => exact hof hB w e he
  | runs _ B hB hst ht =>
      dsimp only at he
      split at he <;> exact absurd he List.not_mem_nil
  | ends _ B hB hst => exact hof hB w e he
  | calls _ _ B u c _ _ hB hc hn =>
      by_cases hwu : w = u
      · subst hwu
        simp only [Function.update_self] at he
        rcases hc.carried he with he | he
        · exact hof hB w e he
        · exact (hI.held _ e he).mono hsub
      · simp only [Function.update_of_ne hwu] at he
        exact hof hB w e he

theorem made_step {F : Nat → Prop} (h0 : F 0) {s s' : Cluster n C} {a : Action n C}
    (h : s.step a = some s') (hs : ∀ v, (s.rafts v).Saved ∧ (s.rafts v).log ≠ [])
    (hF : Admits F s) (hI : Made F s) : Made F s' := by
  obtain ⟨w, evs, hA⟩ := step_acts h
  have hsub : ∀ ev ∈ s.hist, ev ∈ s'.hist := fun ev hev => by
    rw [hA.hist]
    exact List.mem_append_right _ hev
  have hevs : ∀ ev ∈ evs, ev ∈ s'.hist := fun ev hev => by
    rw [hA.hist]
    exact List.mem_append_left _ hev
  have old : ∀ v, (s.rafts v).MadeOf F s'.hist := fun v e he => (hI.held v e he).mono hsub
  refine ⟨fun v => ?_, made_casts h hI hsub⟩
  by_cases hv : v = w
  · subst hv
    rcases hA.change with hc | ⟨t, _, _, e⟩
    · rcases Raft.madeOf_change hc h0 (old v) (hs v).1 (hs v).2 hevs with hm | ⟨k, grow, rfl⟩
      · exact hm
      · exact made_handleAppend h0 h hF hI hsub
    · rw [e]
      exact (old v).congr (by simp) (by simp) (by simp)
  · rw [hA.others v hv]
    exact old v

theorem made_init {F : Nat → Prop} (h0 : F 0) : Made F (init n C) where
  held v e he := by
    have hm : (init n C).rafts v = Raft.fresh ⟨none, []⟩ 0 := Raft.make_none (p := ⟨none, []⟩) rfl 0
    rw [hm] at he
    rw [show e = ⟨0, 0, none⟩ from List.mem_singleton.mp he]
    exact Or.inr ⟨rfl, h0⟩
  sent B hB := absurd hB List.not_mem_nil

theorem made_reach {F : Nat → Prop} (h0 : F 0) {G : Cluster n C → Action n C → Prop}
    (hF : ∀ s, Reach step G (init n C) s → Admits F s) {s : Cluster n C}
    (h : Reach step G (init n C) s) : Made F s := by
  induction h with
  | start => exact made_init h0
  | move s s' a hr _ hs ih =>
      exact made_step h0 hs (saved_reach hr) (hF s hr) ih

end Cluster

end Mit6824
