/-
  File:      Mit6824/Raft/Persist.lean
  Subject:   WHAT THE PERSISTER HOLDS, whenever `rf.mu` is free.

  * `Raft.Change` -- the ways a section changes its own server, and what it puts on record;
    `step_acts`: every step of the cluster is such a change of one server;
  * `Raft.Saved` -- term, vote, log and snapshot stand in the persister; `saved_reach`: always;
  * `make_saved` -- so a server made anew starts from the term, vote, log and snapshot it had.
-/
import Mit6824.Raft.Steps

namespace Mit6824

open Lib

variable {n : Nat} {C : Type}

/-! ## 1. The changes of one server -/

/-- How the section `a` of the server `me` changes it, and what it puts on record. The step down
    after a failed AppendEntries, which may go to ANY term, is not among these. -/
inductive Raft.Change (me : Fin n) :
    Action n C → Raft n C → List (Event n C) → Raft n C → Prop where
  | idle (a : Action n C) (rf : Raft n C) : Change me a rf [] rf
  | send (k : Nat) (u : Fin n) (m : Nat) (rf : Raft n C) (args : AppendEntriesArgs n C) :
      Change me (.encode k u m) rf [.send me u args] rf
  | candidate (rf : Raft n C) :
      Change me (.startOneElection me) rf [.vote me me (rf.becomeCandidate me).currentTerm]
        (rf.becomeCandidate me)
  | vote (e : Nat) (rf : Raft n C) (args : RequestVoteArgs n) :
      Change me (.handleVote e me) rf
        (if (rf.requestVote args).2.voteGranted then
          [.vote me args.candidateId (rf.requestVote args).2.term] else [])
        (rf.requestVote args).1
  | down (e : Nat) (u : Fin n) (rf : Raft n C) (t : Nat) (h : rf.currentTerm < t) :
      Change me (.voteReply e u) rf [] (rf.stepDown t)
  | lead (e : Nat) (u : Fin n) (rf : Raft n C) (h : rf.state = .candidate) :
      Change me (.voteReply e u) rf [.lead me rf.currentTerm rf.log] (rf.becomeLeader me)
  | start (k grow : Nat) (rf : Raft n C) (command : Option C) (term : Nat) :
      Change me (.startAppend k grow) rf
        [.append me rf.state (rf.newEntry command) (rf.newEntry command).index term]
        (rf.startLog command grow)
  | append (k grow : Nat) (rf rf' : Raft n C) (args : AppendEntriesArgs n C)
      (reply : AppendEntriesReply) (spawn : Bool)
      (h : rf.appendEntries args grow = some (rf', reply, spawn)) :
      Change me (.handleAppend k me grow) rf
        (if reply.success then [.ack me reply.term rf'.log] else []) rf'
  | next (k : Nat) (u : Fin n) (rf : Raft n C) (f : Fin n → Nat) :
      Change me (.peerReply k u) rf [] { rf with nextIndex := f }
  | count (k : Nat) (u : Fin n) (rf : Raft n C) (i : Nat) :
      Change me (.peerReply k u) rf [] (rf.matched u i)
  | commit (k : Nat) (u : Fin n) (rf : Raft n C) (i : Nat) (h : rf.state = .leader) :
      Change me (.peerReply k u) rf [.commit me rf.currentTerm i rf.log]
        { rf.matched u i with commitIndex := i }
  | apply (rf rf' : Raft n C) (h : rf.apply = some rf') : Change me (.apply me) rf [] rf'
  | snapshot (rf rf' : Raft n C) (index : Nat) (storage : List UInt8)
      (hi : index ≤ rf.lastApplied) (h : rf.saveSnapshot index storage = some rf') :
      Change me (.saveSnapshot me index storage) rf [] rf'
  | restart (grow : Nat) (rf : Raft n C) :
      Change me (.restart me grow) rf [.restart me rf.currentTerm] (Raft.make rf.persister grow)

namespace Cluster

/-- The section of lines 576-601 on its way to the term of a reply. -/
def FailsTo (s : Cluster n C) (a : Action n C) (v : Fin n) (t : Nat) : Prop :=
  ∃ k u B args next reply, a = .peerReply k u ∧ s.casts[k]? = some B ∧ B.alive = true ∧
    B.peer u = .checked args next reply ∧ reply.success = false ∧ args.term < reply.term ∧
    B.owner = v ∧ reply.term = t

/-- A step from `s` to `s'` that is a section of `v`. -/
structure Acts (s : Cluster n C) (a : Action n C) (s' : Cluster n C) (v : Fin n)
    (evs : List (Event n C)) : Prop where
  others : ∀ w, w ≠ v → s'.rafts w = s.rafts w
  hist : s'.hist = evs ++ s.hist
  change : Raft.Change v a (s.rafts v) evs (s'.rafts v) ∨
    ∃ t, s.FailsTo a v t ∧ evs = [] ∧ s'.rafts v = (s.rafts v).stepDown t

/-- What a section has put on record, read off the two records. -/
theorem Acts.evs_one {s s' : Cluster n C} {a : Action n C} {v : Fin n} {evs : List (Event n C)}
    {ev : Event n C} (h : Acts s a s' v evs) (hh : s'.hist = ev :: s.hist) : evs = [ev] := by
  have := h.hist.symm.trans hh
  rwa [← List.singleton_append, List.append_cancel_right_eq] at this

theorem Acts.evs_nil {s s' : Cluster n C} {a : Action n C} {v : Fin n} {evs : List (Event n C)}
    (h : Acts s a s' v evs) (hh : s'.hist = s.hist) : evs = [] := by
  have := h.hist.symm.trans hh
  simpa using this

theorem acts_idle {s s' : Cluster n C} (a : Action n C) (v : Fin n) (hr : s'.rafts = s.rafts)
    (hh : s'.hist = s.hist) : Acts s a s' v [] :=
  ⟨fun w _ => by rw [hr], hh, Or.inl (by rw [hr]; exact .idle _ _)⟩

theorem acts_update {s s' : Cluster n C} {a : Action n C} {v : Fin n} {rf : Raft n C}
    {evs : List (Event n C)} (hr : s'.rafts = Function.update s.rafts v rf)
    (hh : s'.hist = evs ++ s.hist) (hc : Raft.Change v a (s.rafts v) evs rf) : Acts s a s' v evs :=
  ⟨fun w hw => by rw [hr, Function.update_of_ne hw], hh,
    Or.inl (by rw [hr, Function.update_self]; exact hc)⟩

/-- **Every step is a section of one server**; the others stay as they are. -/
theorem step_acts {s s' : Cluster n C} {a : Action n C} (h : s.step a = some s') :
    ∃ v evs, Acts s a s' v evs := by
  cases a with
  | startOneElection w =>
      cases Option.some.inj h
      exact ⟨w, _, acts_update rfl rfl (.candidate _)⟩
  | voteArgs e =>
      obtain ⟨E, hn, _, _, rfl⟩ := voteArgs_inv h
      exact ⟨E.owner, _, acts_idle _ _ rfl rfl⟩
  | handleVote e u =>
      obtain ⟨E, args, _, _, rfl⟩ := handleVote_inv h
      refine ⟨u, _, acts_update ?_ ?_ (.vote e _ args)⟩ <;> split <;> rfl
  | voteCheck e u =>
      obtain ⟨E, args, reply, _, _, _, rfl⟩ := voteCheck_inv h
      exact ⟨E.owner, _, acts_idle _ _ rfl rfl⟩
  | voteReply e u =>
      obtain ⟨E, args, reply, _, _, _, h⟩ := voteReply_inv h
      rcases h with ⟨_, hw, rfl⟩ | ⟨_, _, rfl⟩ | ⟨_, ht, rfl⟩ | ⟨_, rfl⟩
      · exact ⟨E.owner, _, acts_update rfl rfl (.lead e u _ (of_decide_eq_true hw).1)⟩
      · exact ⟨E.owner, _, acts_idle _ _ rfl rfl⟩
      · exact ⟨E.owner, _, acts_update rfl rfl (.down e u _ _ ht)⟩
      · exact ⟨E.owner, _, acts_idle _ _ rfl rfl⟩
  | startState w command =>
      cases Option.some.inj h
      refine ⟨w, _, acts_idle _ _ ?_ ?_⟩ <;> unfold startState <;> split <;> rfl
  | startAppend k grow =>
      obtain ⟨S, _, _, rfl⟩ := startAppend_inv h
      exact ⟨S.owner, _, acts_update rfl rfl (.start k grow _ _ S.term)⟩
  | beatState w =>
      cases Option.some.inj h
      refine ⟨w, _, acts_idle _ _ ?_ ?_⟩ <;> unfold beatState <;> split <;> rfl
  | beatSend k =>
      obtain ⟨b, _, _, rfl⟩ := beatSend_inv h
      exact ⟨b.owner, _, acts_idle _ _ rfl rfl⟩
  | castState k =>
      obtain ⟨B, _, _, _, rfl⟩ := castState_inv h
      exact ⟨B.owner, _, acts_idle _ _ rfl rfl⟩
  | castTerm k =>
      obtain ⟨B, _, _, _, rfl⟩ := castTerm_inv h
      exact ⟨B.owner, _, acts_idle _ _ rfl rfl⟩
  | peerState k u =>
      obtain ⟨B, _, _, _, rfl⟩ := peerState_inv h
      exact ⟨B.owner, _, acts_idle _ _ rfl rfl⟩
  | peerArgs k u =>
      obtain ⟨B, _, _, _, h⟩ := peerArgs_inv h
      rcases h with rfl | ⟨args, _, _, _, rfl⟩
      · exact ⟨B.owner, _, acts_idle _ _ rfl rfl⟩
      · exact ⟨B.owner, _, acts_idle _ _ rfl rfl⟩
  | encode k u m =>
      obtain ⟨B, args, next, slice, encoded, _, _, _, h⟩ := encode_inv h
      rcases h with ⟨_, rfl⟩ | ⟨_, rfl⟩
      · exact ⟨B.owner, _, acts_idle _ _ rfl rfl⟩
      · exact ⟨B.owner, _, fun _ _ => rfl, rfl, Or.inl (.send k u m _ _)⟩
  | handleAppend k u grow =>
      obtain ⟨B, args, next, rf, reply, spawn, _, _, hr, rfl⟩ := handleAppend_inv h
      refine ⟨u, _, acts_update ?_ ?_ (.append k grow _ _ _ _ _ hr)⟩ <;> split <;> split <;> rfl
  | peerCheck k u =>
      obtain ⟨B, args, next, reply, _, _, _, rfl⟩ := peerCheck_inv h
      exact ⟨B.owner, _, acts_idle _ _ rfl rfl⟩
  | peerReply k u =>
      obtain ⟨B, args, next, reply, hB, ha, hp, h⟩ := peerReply_inv h
      rcases h with ⟨hf, ht, rfl⟩ | ⟨_, _, next', _, rfl⟩ | ⟨_, rfl⟩ | ⟨_, hw, _, _, rfl⟩
      · refine ⟨B.owner, [], fun w hw => Function.update_of_ne hw _ _, rfl, Or.inr ⟨reply.term,
          ⟨k, u, B, args, next, reply, rfl, hB, ha, hp, hf, ht, rfl, rfl⟩, rfl, ?_⟩⟩
        exact Function.update_self _ _ _
      · exact ⟨B.owner, _, acts_update rfl rfl (.next k u _ _)⟩
      · exact ⟨B.owner, _, acts_update rfl rfl (.count k u _ _)⟩
      · refine ⟨B.owner, _, acts_update ?_ rfl (.commit k u _ B.index (of_decide_eq_true hw).2.1)⟩
        simp only [record_rafts, spawnApply_rafts, setRaft_rafts, setPeer_rafts,
          Function.update_idem]
  | apply w =>
      obtain ⟨rf, hrf, rfl⟩ := apply_inv h
      exact ⟨w, _, acts_update rfl rfl (.apply _ _ hrf)⟩
  | saveSnapshot w index storage =>
      obtain ⟨rf, hi, hrf, rfl⟩ := saveSnapshot_inv h
      exact ⟨w, _, acts_update rfl rfl (.snapshot _ _ _ _ hi hrf)⟩
  | restart w grow =>
      cases Option.some.inj h
      exact ⟨w, _, acts_update rfl rfl (.restart grow _)⟩

/-- The record only grows. -/
theorem hist_step {s s' : Cluster n C} {a : Action n C} (h : s.step a = some s') :
    ∃ evs, s'.hist = evs ++ s.hist := by
  obtain ⟨v, evs, hA⟩ := step_acts h
  exact ⟨evs, hA.hist⟩

/-- What every change of one server keeps holds of all servers wherever a run leads. -/
theorem rafts_inv {G : Cluster n C → Action n C → Prop} {I : Raft n C → Prop}
    (h0 : I (Raft.make ⟨none, []⟩ 0))
    (hI : ∀ me a rf evs rf', I rf → Raft.Change me a rf evs rf' → I rf')
    (hD : ∀ rf t, I rf → I (rf.stepDown t))
    {s : Cluster n C} (h : Reach step G (init n C) s) (v : Fin n) : I (s.rafts v) := by
  refine Reach.inv (I := fun s => ∀ v, I (s.rafts v)) (fun _ => h0) ?_ h v
  intro s a s' ih _ hs w
  obtain ⟨u, evs, hA⟩ := step_acts hs
  by_cases hw : w = u
  · subst hw
    rcases hA.change with hc | ⟨t, _, _, e⟩
    · exact hI _ _ _ _ _ (ih w) hc
    · rw [e]
      exact hD _ t (ih w)
  · rw [hA.others w hw]
    exact ih w

end Cluster

/-! ## 2. The persister -/

namespace Raft

/-- **Term, vote, log and snapshot stand in the persister**; an empty persister belongs to a
    server that still has the values `Make` gave it. -/
def Saved (rf : Raft n C) : Prop :=
  match rf.persister.raftstate with
  | none => rf.currentTerm = 0 ∧ rf.votedFor = none ∧ rf.log = [⟨0, 0, none⟩] ∧
      rf.snapshot = ⟨0, 0, []⟩
  | some d => d.currentTerm = rf.currentTerm ∧ d.votedFor = rf.votedFor ∧ d.log = rf.log ∧
      rf.snapshot = ⟨d.snapshotIndex, d.snapshotTerm, rf.persister.snapshot⟩

theorem saved_persist (rf : Raft n C) : Saved rf.persist := by
  unfold Saved
  simp only [persist_persister, save, persist_currentTerm, persist_votedFor, persist_log,
    persist_snapshot, and_self]

/-- `Saved` reads six fields. -/
theorem Saved.congr {rf rf' : Raft n C} (h : Saved rf) (hp : rf'.persister = rf.persister)
    (ht : rf'.currentTerm = rf.currentTerm) (hv : rf'.votedFor = rf.votedFor)
    (hl : rf'.log = rf.log) (hs : rf'.snapshot = rf.snapshot) : Saved rf' := by
  unfold Saved at h ⊢
  rw [hp, ht, hv, hl, hs]
  exact h

theorem saved_catchUp {rf : Raft n C} (h : Saved rf) (t : Nat) : Saved (rf.catchUp t) := by
  unfold catchUp
  split
  · exact saved_persist _
  · exact h

theorem make_none {p : Persister n C} (h : p.raftstate = none) (grow : Nat) :
    make p grow = fresh p grow := by
  unfold make readPersist
  have h' : (fresh p grow).persister.raftstate = none := h
  rw [h']

/-- What `Make` reads back, up to the message about a snapshot. -/
theorem make_some {p : Persister n C} {d : RaftState n C} (h : p.raftstate = some d) (grow : Nat) :
    ∃ ms, make p grow =
      { fresh p grow with
        applyChan := ms
        currentTerm := d.currentTerm
        votedFor := d.votedFor
        log := if d.log.isEmpty then [⟨d.snapshotIndex, d.snapshotTerm, none⟩] else d.log
        commitIndex := d.commitIndex
        lastApplied := d.snapshotIndex
        snapshot := ⟨d.snapshotIndex, d.snapshotTerm, p.snapshot⟩ } := by
  unfold make readPersist
  have h' : (fresh p grow).persister.raftstate = some d := h
  rw [h']
  dsimp only
  split
  · exact ⟨_, rfl⟩
  · exact ⟨_, rfl⟩

@[simp] theorem make_persister (p : Persister n C) (grow : Nat) : (make p grow).persister = p := by
  cases h : p.raftstate with
  | none => rw [make_none h]; rfl
  | some d => obtain ⟨ms, e⟩ := make_some h grow; rw [e]; rfl

@[simp] theorem make_state (p : Persister n C) (grow : Nat) : (make p grow).state = .follower := by
  cases h : p.raftstate with
  | none => rw [make_none h]; rfl
  | some d => obtain ⟨ms, e⟩ := make_some h grow; rw [e]; rfl

/-- A new instance has no request under way. -/
@[simp] theorem make_memory (p : Persister n C) (grow : Nat) :
    (make p grow).memory = ⟨[], []⟩ := by
  cases h : p.raftstate with
  | none => rw [make_none h]; rfl
  | some d => obtain ⟨ms, e⟩ := make_some h grow; rw [e]; rfl

@[simp] theorem make_spare (p : Persister n C) (grow : Nat) :
    (make p grow).spare = List.replicate grow LogEntry.zero := by
  cases h : p.raftstate with
  | none => rw [make_none h]; rfl
  | some d => obtain ⟨ms, e⟩ := make_some h grow; rw [e]; rfl

/-- `Make` delivers no command. -/
theorem make_quiet {p : Persister n C} {grow : Nat} (m : ApplyMsg C)
    (hm : m ∈ (make p grow).applyChan) : m.commandValid = false := by
  cases h : p.raftstate with
  | none =>
      rw [make_none h] at hm
      cases hm
  | some d =>
      have h' : (fresh p grow).persister.raftstate = some d := h
      unfold make readPersist at hm
      rw [h'] at hm
      dsimp only at hm
      split at hm
      · rw [List.mem_singleton.mp hm]
      · cases hm

/-- **A server made anew has the term, the vote, the log and the snapshot it had.** -/
theorem make_saved {rf : Raft n C} (h : Saved rf) (hne : rf.log ≠ []) (grow : Nat) :
    (make rf.persister grow).currentTerm = rf.currentTerm ∧
      (make rf.persister grow).votedFor = rf.votedFor ∧
      (make rf.persister grow).log = rf.log ∧
      (make rf.persister grow).snapshot = rf.snapshot ∧
      (make rf.persister grow).lastApplied = rf.snapshot.index := by
  unfold Saved at h
  cases hd : rf.persister.raftstate with
  | none =>
      rw [hd] at h
      obtain ⟨h1, h2, h3, h4⟩ := h
      rw [make_none hd, h1, h2, h3, h4]
      exact ⟨rfl, rfl, rfl, rfl, rfl⟩
  | some d =>
      rw [hd] at h
      obtain ⟨h1, h2, h3, h4⟩ := h
      obtain ⟨ms, e⟩ := make_some hd grow
      have hl : d.log.isEmpty = false := by rw [h3]; simpa using hne
      rw [e, h4, hl]
      exact ⟨h1, h2, h3, rfl, rfl⟩

/-! ## 3. The log is never empty -/

theorem isMatch_nil {rf : Raft n C} {next : Nat} {es : List (LogEntry C)}
    (h : rf.isMatch next es = some false) : es ≠ [] := by
  rintro rfl
  simp [isMatch] at h

theorem updateSnapshotUnLock_log_ne {rf : Raft n C} (h : rf.log ≠ []) (sn : Snapshot) (grow : Nat) :
    (rf.updateSnapshotUnLock sn grow).log ≠ [] := by
  unfold updateSnapshotUnLock
  split
  · split
    · exact List.cons_ne_nil _ _
    · exact List.cons_ne_nil _ _
  · exact h

theorem appendEntries_log_ne {rf rf' : Raft n C} {args : AppendEntriesArgs n C} {grow : Nat}
    {reply : AppendEntriesReply} {spawn : Bool} (hne : rf.log ≠ [])
    (h : rf.appendEntries args grow = some (rf', reply, spawn)) : rf'.log ≠ [] := by
  rcases appendEntries_cases h with ⟨_, rfl, _⟩ | ⟨_, _, ha, _⟩ | ⟨_, _, rfl, _⟩
  · exact hne
  · obtain ⟨m, log, spare, rfl, hl⟩ := acceptEntries_cases ha
    rw [persist_log]
    refine updateSnapshotUnLock_log_ne ?_ _ _
    rw [written_log]
    rcases hl with ⟨_, e⟩ | ⟨hm, _, e⟩ | ⟨hm, _, ls, _, e⟩
    · rw [show log = (rf.catchUp args.term).log from congrArg Raft.log e]
      simpa using hne
    · rw [show log = _ from (congrArg Raft.log e).trans (appendLog_log _ _ _ _ _)]
      exact List.append_ne_nil_of_right_ne_nil _ (isMatch_nil hm)
    · rw [show log = _ from (congrArg Raft.log e).trans (appendLog_log _ _ _ _ _)]
      exact List.append_ne_nil_of_right_ne_nil _ (isMatch_nil hm)
  · simpa using hne

theorem saveSnapshot_log_ne {rf rf' : Raft n C} {index : Nat} {storage : List UInt8}
    (hne : rf.log ≠ []) (h : rf.saveSnapshot index storage = some rf') : rf'.log ≠ [] := by
  rcases saveSnapshot_cases h with ⟨_, rfl⟩ | ⟨hlt, e, ls, he, hs, rfl⟩
  · exact hne
  · rw [persist_log]
    rw [rf.getLogByIndexUnLock_of_le (Nat.le_of_lt hlt)] at he
    have hi := (List.getElem?_eq_some_iff.mp he).1
    unfold sliceLog at hs
    split at hs
    · cases hs
      refine List.ne_nil_of_length_pos ?_
      simp only [List.length_drop, List.length_take, List.length_append, Int.toNat_natCast]
      omega
    · cases hs

theorem make_log_ne (p : Persister n C) (grow : Nat) : (make p grow).log ≠ [] := by
  cases h : p.raftstate with
  | none =>
      rw [make_none h]
      exact List.cons_ne_nil _ _
  | some d =>
      obtain ⟨ms, e⟩ := make_some h grow
      rw [e]
      dsimp only
      split
      · exact List.cons_ne_nil _ _
      · rename_i hemp
        simpa using hemp

theorem log_ne_change {me : Fin n} {a : Action n C} {rf rf' : Raft n C}
    {evs : List (Event n C)} (hne : rf.log ≠ []) (h : Change me a rf evs rf') :
    rf'.log ≠ [] := by
  cases h with
  | idle => exact hne
  | send => exact hne
  | candidate => simpa [becomeCandidate] using hne
  | vote e _ args =>
      rcases requestVote_cases rf args with ⟨_, e⟩ | ⟨_, _, e⟩ | ⟨_, _, e⟩ <;> rw [e] <;> simpa
  | down e u _ t _ => simpa using hne
  | lead e u _ _ => simpa [becomeLeader] using hne
  | start k grow _ command term => simp
  | append k grow _ _ args reply spawn h => exact appendEntries_log_ne hne h
  | next k u _ f => exact hne
  | count k u _ i => simpa using hne
  | commit k u _ i _ => simpa using hne
  | apply _ _ h => obtain ⟨i, ms, rfl⟩ := apply_frame h; exact hne
  | snapshot _ _ index storage _ h => exact saveSnapshot_log_ne hne h
  | restart grow _ => exact make_log_ne _ grow

/-! ## 4. The persister is up to date -/

theorem saved_appendEntries {rf rf' : Raft n C} {args : AppendEntriesArgs n C} {grow : Nat}
    {reply : AppendEntriesReply} {spawn : Bool} (hs : Saved rf)
    (h : rf.appendEntries args grow = some (rf', reply, spawn)) : Saved rf' := by
  rcases appendEntries_cases h with ⟨_, rfl, _⟩ | ⟨_, _, ha, _⟩ | ⟨_, _, rfl, _⟩
  · exact hs
  · obtain ⟨m, log, spare, rfl, _⟩ := acceptEntries_cases ha
    exact saved_persist _
  · exact saved_catchUp hs _

theorem saved_make {rf : Raft n C} (h : Saved rf) (hne : rf.log ≠ []) (grow : Nat) :
    Saved (make rf.persister grow) := by
  obtain ⟨h1, h2, h3, h4, _⟩ := make_saved h hne grow
  exact h.congr (make_persister _ _) h1 h2 h3 h4

theorem saved_change {me : Fin n} {a : Action n C} {rf rf' : Raft n C} {evs : List (Event n C)}
    (hs : Saved rf) (hne : rf.log ≠ []) (h : Change me a rf evs rf') : Saved rf' := by
  cases h with
  | idle => exact hs
  | send => exact hs
  | candidate => exact saved_persist _
  | vote e _ args =>
      rcases requestVote_cases rf args with ⟨_, e⟩ | ⟨_, _, e⟩ | ⟨_, _, e⟩ <;> rw [e]
      · exact hs
      · exact saved_persist _
      · exact saved_catchUp hs _
  | down e u _ t _ => exact saved_persist _
  | lead e u _ _ => exact saved_persist _
  | start k grow _ command term => exact saved_persist _
  | append k grow _ _ args reply spawn h => exact saved_appendEntries hs h
  | next k u _ f => exact hs
  | count k u _ i => exact hs.congr (by simp) (by simp) (by simp) (by simp) (by simp)
  | commit k u _ i _ => exact hs.congr (by simp) (by simp) (by simp) (by simp) (by simp)
  | apply _ _ h => obtain ⟨i, ms, rfl⟩ := apply_frame h; exact hs
  | snapshot _ _ index storage _ h =>
      rcases saveSnapshot_cases h with ⟨_, rfl⟩ | ⟨_, e, ls, _, _, rfl⟩
      · exact hs
      · exact saved_persist _
  | restart grow _ => exact saved_make hs hne grow

end Raft

namespace Cluster

/-- **In every run the persister of every server is up to date**, and its log is not empty. -/
theorem saved_reach {G : Cluster n C → Action n C → Prop} {s : Cluster n C}
    (h : Reach step G (init n C) s) (v : Fin n) : (s.rafts v).Saved ∧ (s.rafts v).log ≠ [] := by
  refine rafts_inv (I := fun rf => rf.Saved ∧ rf.log ≠ []) ?_ ?_ ?_ h v
  · rw [Raft.make_none rfl]
    exact ⟨⟨rfl, rfl, rfl, rfl⟩, List.cons_ne_nil _ _⟩
  · rintro me a rf evs rf' ⟨h1, h2⟩ hc
    exact ⟨Raft.saved_change h1 h2 hc, Raft.log_ne_change h2 hc⟩
  · rintro rf t ⟨_, h2⟩
    exact ⟨Raft.saved_persist _, by simpa using h2⟩

end Cluster

end Mit6824
