/-
  File:      Mit6824/Raft/Frames.lean
  Subject:   WHICH FIELDS A SECTION LEAVES ALONE, and the cases of the two handlers.

  * `persist_*`, `matched_*` -- field by field;
  * `requestVote_cases`, `appendEntries_cases`, `acceptEntries_cases` -- the handlers as a choice
    between their exits, with what each exit returns.
-/
import Mathlib.Tactic.Common
import Mit6824.Raft.Server

namespace Mit6824.Raft

variable {n : Nat} {C : Type}

/-! ## 1. persist -/

section Persist

variable (rf : Raft n C)

@[simp] theorem persist_state : rf.persist.state = rf.state := by unfold persist; split <;> rfl
@[simp] theorem persist_currentTerm : rf.persist.currentTerm = rf.currentTerm := by
  unfold persist; split <;> rfl
@[simp] theorem persist_votedFor : rf.persist.votedFor = rf.votedFor := by
  unfold persist; split <;> rfl
@[simp] theorem persist_log : rf.persist.log = rf.log := by unfold persist; split <;> rfl
@[simp] theorem persist_spare : rf.persist.spare = rf.spare := by unfold persist; split <;> rfl
@[simp] theorem persist_memory : rf.persist.memory = rf.memory := by unfold persist; split <;> rfl
@[simp] theorem persist_commitIndex : rf.persist.commitIndex = rf.commitIndex := by
  unfold persist; split <;> rfl
@[simp] theorem persist_lastApplied : rf.persist.lastApplied = rf.lastApplied := by
  unfold persist; split <;> rfl
@[simp] theorem persist_snapshot : rf.persist.snapshot = rf.snapshot := by
  unfold persist; split <;> rfl
@[simp] theorem persist_persister : rf.persist.persister = rf.save.persister := by
  unfold persist; split <;> rfl

/-- What `persist` sends is no command. -/
theorem persist_applyChan : rf.persist.applyChan = rf.applyChan ∨
    rf.persist.applyChan = rf.applyChan ++ [⟨false, .value none, 0⟩] := by
  unfold persist
  split
  · exact Or.inl rfl
  · exact Or.inr rfl

end Persist

/-! ## 2. The bookkeeping of a counted acknowledgement -/

section Matched

variable (rf : Raft n C) (u : Fin n) (i : Nat)

@[simp] theorem matched_currentTerm : (rf.matched u i).currentTerm = rf.currentTerm := by
  unfold matched; split <;> rfl
@[simp] theorem matched_votedFor : (rf.matched u i).votedFor = rf.votedFor := by
  unfold matched; split <;> rfl
@[simp] theorem matched_state : (rf.matched u i).state = rf.state := by
  unfold matched; split <;> rfl
@[simp] theorem matched_log : (rf.matched u i).log = rf.log := by unfold matched; split <;> rfl
@[simp] theorem matched_spare : (rf.matched u i).spare = rf.spare := by
  unfold matched; split <;> rfl
@[simp] theorem matched_memory : (rf.matched u i).memory = rf.memory := by
  unfold matched; split <;> rfl
@[simp] theorem matched_commitIndex : (rf.matched u i).commitIndex = rf.commitIndex := by
  unfold matched; split <;> rfl
@[simp] theorem matched_lastApplied : (rf.matched u i).lastApplied = rf.lastApplied := by
  unfold matched; split <;> rfl
@[simp] theorem matched_snapshot : (rf.matched u i).snapshot = rf.snapshot := by
  unfold matched; split <;> rfl
@[simp] theorem matched_persister : (rf.matched u i).persister = rf.persister := by
  unfold matched; split <;> rfl
@[simp] theorem matched_applyChan : (rf.matched u i).applyChan = rf.applyChan := by
  unfold matched; split <;> rfl

theorem matched_getLogByIndexUnLock (j : Int) :
    (rf.matched u i).getLogByIndexUnLock j = rf.getLogByIndexUnLock j := by
  unfold getLogByIndexUnLock
  rw [matched_snapshot, matched_log]

end Matched

/-! ## 3. Terms and votes -/

section Terms

variable (rf : Raft n C) (t : Nat)

@[simp] theorem stepDown_state : (rf.stepDown t).state = .follower := by unfold stepDown; simp
@[simp] theorem stepDown_currentTerm : (rf.stepDown t).currentTerm = t := by unfold stepDown; simp
@[simp] theorem stepDown_votedFor : (rf.stepDown t).votedFor = none := by unfold stepDown; simp
@[simp] theorem stepDown_log : (rf.stepDown t).log = rf.log := by unfold stepDown; simp
@[simp] theorem stepDown_spare : (rf.stepDown t).spare = rf.spare := by unfold stepDown; simp
@[simp] theorem stepDown_memory : (rf.stepDown t).memory = rf.memory := by unfold stepDown; simp
@[simp] theorem stepDown_commitIndex : (rf.stepDown t).commitIndex = rf.commitIndex := by
  unfold stepDown; simp
@[simp] theorem stepDown_lastApplied : (rf.stepDown t).lastApplied = rf.lastApplied := by
  unfold stepDown; simp
@[simp] theorem stepDown_snapshot : (rf.stepDown t).snapshot = rf.snapshot := by
  unfold stepDown; simp

@[simp] theorem catchUp_log : (rf.catchUp t).log = rf.log := by unfold catchUp; split <;> simp
@[simp] theorem catchUp_spare : (rf.catchUp t).spare = rf.spare := by
  unfold catchUp; split <;> simp
@[simp] theorem catchUp_memory : (rf.catchUp t).memory = rf.memory := by
  unfold catchUp; split <;> simp
@[simp] theorem catchUp_commitIndex : (rf.catchUp t).commitIndex = rf.commitIndex := by
  unfold catchUp; split <;> simp
@[simp] theorem catchUp_lastApplied : (rf.catchUp t).lastApplied = rf.lastApplied := by
  unfold catchUp; split <;> simp
@[simp] theorem catchUp_snapshot : (rf.catchUp t).snapshot = rf.snapshot := by
  unfold catchUp; split <;> simp

variable {rf t}

theorem catchUp_currentTerm (h : rf.currentTerm ≤ t) : (rf.catchUp t).currentTerm = t := by
  unfold catchUp
  split
  · simp
  · omega

/-- A server that catches up has moved to a later term, or nothing has happened. -/
theorem catchUp_cases (rf : Raft n C) (t : Nat) : (rf.currentTerm < t ∧ rf.catchUp t = rf.stepDown t) ∨
    (t ≤ rf.currentTerm ∧ rf.catchUp t = rf) := by
  unfold catchUp
  split
  · rename_i h
    exact Or.inl ⟨h, rfl⟩
  · rename_i h
    exact Or.inr ⟨by omega, rfl⟩

end Terms

/-- At and above the snapshot an access is one to the log. -/
theorem getLogByIndexUnLock_of_le (rf : Raft n C) {i : Nat} (h : rf.snapshot.index ≤ i) :
    rf.getLogByIndexUnLock i = rf.log[i - rf.snapshot.index]? := by
  unfold getLogByIndexUnLock
  rw [if_neg (by omega), show ((i : Int) - rf.snapshot.index).toNat = i - rf.snapshot.index by omega]

/-! What is read depends on the log and the snapshot alone. -/

section Reads

variable {rf rf' : Raft n C} (hl : rf'.log = rf.log) (hs : rf'.snapshot = rf.snapshot)

include hl hs

theorem getLogByIndexUnLock_congr (i : Int) :
    rf'.getLogByIndexUnLock i = rf.getLogByIndexUnLock i := by
  unfold getLogByIndexUnLock
  rw [hl, hs]

theorem getLastLogUnLock_congr : rf'.getLastLogUnLock = rf.getLastLogUnLock := by
  unfold getLastLogUnLock
  rw [hl, hs]

end Reads

/-! ## 4. The memory of a log -/

/-- What `append` leaves: the log is known, the array behind it may be a new one. -/
theorem appendLog_eq (rf : Raft n C) (log spare entries : List (LogEntry C)) (grow : Nat) :
    ∃ m sp, rf.appendLog log spare entries grow =
      { rf with memory := m, log := log ++ entries, spare := sp } := by
  unfold appendLog
  split
  · exact ⟨_, _, rfl⟩
  · exact ⟨_, _, rfl⟩

@[simp] theorem appendLog_log (rf : Raft n C) (log spare entries : List (LogEntry C)) (grow : Nat) :
    (rf.appendLog log spare entries grow).log = log ++ entries := by
  obtain ⟨m, sp, e⟩ := rf.appendLog_eq log spare entries grow
  rw [e]

/-- `Start` appends and persists. -/
theorem startLog_eq (rf : Raft n C) (command : Option C) (grow : Nat) :
    ∃ m sp, rf.startLog command grow = persist
      { rf with memory := m, log := rf.log ++ [rf.newEntry command], spare := sp } := by
  obtain ⟨m, sp, e⟩ := rf.appendLog_eq rf.log rf.spare [rf.newEntry command] grow
  exact ⟨m, sp, congrArg persist e⟩

section Start

variable (rf : Raft n C) (command : Option C) (grow : Nat)

@[simp] theorem startLog_log : (rf.startLog command grow).log = rf.log ++ [rf.newEntry command] := by
  unfold startLog; simp
@[simp] theorem startLog_snapshot : (rf.startLog command grow).snapshot = rf.snapshot := by
  obtain ⟨m, sp, e⟩ := rf.startLog_eq command grow; rw [e]; simp
@[simp] theorem startLog_currentTerm :
    (rf.startLog command grow).currentTerm = rf.currentTerm := by
  obtain ⟨m, sp, e⟩ := rf.startLog_eq command grow; rw [e]; simp
@[simp] theorem startLog_votedFor : (rf.startLog command grow).votedFor = rf.votedFor := by
  obtain ⟨m, sp, e⟩ := rf.startLog_eq command grow; rw [e]; simp
@[simp] theorem startLog_state : (rf.startLog command grow).state = rf.state := by
  obtain ⟨m, sp, e⟩ := rf.startLog_eq command grow; rw [e]; simp
@[simp] theorem startLog_commitIndex :
    (rf.startLog command grow).commitIndex = rf.commitIndex := by
  obtain ⟨m, sp, e⟩ := rf.startLog_eq command grow; rw [e]; simp
@[simp] theorem startLog_lastApplied :
    (rf.startLog command grow).lastApplied = rf.lastApplied := by
  obtain ⟨m, sp, e⟩ := rf.startLog_eq command grow; rw [e]; simp

theorem startLog_last : (rf.startLog command grow).getLastLogUnLock = rf.newEntry command := by
  unfold getLastLogUnLock
  rw [startLog_log, List.getLast?_concat]

end Start

section Handlers

variable {rf : Raft n C}

/-- **The exits of `RequestVote`.** -/
theorem requestVote_cases (rf : Raft n C) (args : RequestVoteArgs n) :
    (args.term < rf.currentTerm ∧ rf.requestVote args = (rf, ⟨rf.currentTerm, false⟩)) ∨
    (rf.currentTerm ≤ args.term ∧ (rf.catchUp args.term).mayVote args = true ∧
      rf.requestVote args =
        (persist { rf.catchUp args.term with
          votedFor := some args.candidateId, state := .follower }, ⟨args.term, true⟩)) ∨
    (rf.currentTerm ≤ args.term ∧ (rf.catchUp args.term).mayVote args = false ∧
      rf.requestVote args = (rf.catchUp args.term, ⟨args.term, false⟩)) := by
  unfold requestVote
  split
  · rename_i h
    dsimp only
    rw [catchUp_currentTerm h]
    split
    · rename_i hm
      exact Or.inr (Or.inl ⟨h, hm, rfl⟩)
    · rename_i hm
      exact Or.inr (Or.inr ⟨h, by simpa using hm, rfl⟩)
  · rename_i h
    exact Or.inl ⟨by omega, rfl⟩

/-- **The exits of `AppendEntries`**: an old request, an accepted one, a conflict. -/
theorem appendEntries_cases {args : AppendEntriesArgs n C} {grow : Nat} {rf' : Raft n C}
    {reply : AppendEntriesReply} {spawn : Bool}
    (h : rf.appendEntries args grow = some (rf', reply, spawn)) :
    (args.term < rf.currentTerm ∧ rf' = rf ∧ reply = ⟨rf.currentTerm, false, 0, 0⟩ ∧
      spawn = false) ∨
    (rf.currentTerm ≤ args.term ∧
      (rf.catchUp args.term).prevConsistent ((rf.catchUp args.term).trimArgs args).1
        ((rf.catchUp args.term).trimArgs args).2.1 = some true ∧
      (rf.catchUp args.term).acceptEntries args ((rf.catchUp args.term).trimArgs args).1
        ((rf.catchUp args.term).trimArgs args).2.2 grow = some rf' ∧
      reply = ⟨args.term, true, 0, 0⟩ ∧ spawn = decide (rf.commitIndex < args.leaderCommit)) ∨
    (rf.currentTerm ≤ args.term ∧
      (rf.catchUp args.term).prevConsistent ((rf.catchUp args.term).trimArgs args).1
        ((rf.catchUp args.term).trimArgs args).2.1 = some false ∧
      rf' = rf.catchUp args.term ∧ spawn = false ∧ reply.term = args.term ∧
      reply.success = false ∧
      (rf.catchUp args.term).conflict ((rf.catchUp args.term).trimArgs args).1 =
        some (reply.conflictIndex, reply.conflictTerm)) := by
  unfold appendEntries at h
  split at h
  · rename_i hle
    dsimp only at h
    rw [catchUp_currentTerm hle] at h
    split at h
    · cases h
    · rename_i hp
      split at h
      · cases h
      · rename_i rf₁ ha
        simp only [Option.some.injEq, Prod.mk.injEq] at h
        obtain ⟨rfl, rfl, rfl⟩ := h
        exact Or.inr (Or.inl ⟨hle, hp, ha, rfl, by rw [catchUp_commitIndex]⟩)
    · rename_i hp
      split at h
      · cases h
      · rename_i i c hcf
        simp only [Option.some.injEq, Prod.mk.injEq] at h
        obtain ⟨rfl, rfl, rfl⟩ := h
        exact Or.inr (Or.inr ⟨hle, hp, rfl, rfl, rfl, rfl, hcf⟩)
  · rename_i hlt
    simp only [Option.some.injEq, Prod.mk.injEq] at h
    obtain ⟨rfl, rfl, rfl⟩ := h
    exact Or.inl ⟨by omega, rfl, rfl, rfl⟩

/-- The server after lines 397-410 and before the snapshot is looked at. -/
def written (rf : Raft n C) (m : Memory C) (log spare : List (LogEntry C))
    (leaderCommit last : Nat) : Raft n C :=
  advanceCommit { rf with memory := m, log := log, spare := spare, state := .follower }
    leaderCommit last

/-- What an accepted request leaves: the log as it was, cut and extended, or extended; then the
    commit index and the snapshot. -/
theorem acceptEntries_cases {args : AppendEntriesArgs n C} {prev grow : Nat}
    {entries : List (LogEntry C)} {rf' : Raft n C}
    (h : rf.acceptEntries args prev entries grow = some rf') :
    ∃ m log spare, rf' = persist ((rf.written m log spare args.leaderCommit
        (prev + entries.length)).updateSnapshotUnLock args.logSnapshot grow) ∧
      ((rf.isMatch (prev + 1) entries = some true ∧
          { rf with memory := m, log := log, spare := spare } = rf) ∨
        (rf.isMatch (prev + 1) entries = some false ∧ prev = rf.getLastLogUnLock.index ∧
          { rf with memory := m, log := log, spare := spare } =
            rf.appendLog rf.log rf.spare entries grow) ∨
        (rf.isMatch (prev + 1) entries = some false ∧ prev ≠ rf.getLastLogUnLock.index ∧
          ∃ ls, rf.sliceLog 0 ((prev : Int) + 1 - rf.snapshot.index) = some ls ∧
            { rf with memory := m, log := log, spare := spare } =
              rf.appendLog ls.1 ls.2 entries grow)) := by
  unfold acceptEntries at h
  split at h
  · cases h
  · rename_i m hm
    split at h
    · cases h
    · rename_i rf₁ hc
      have h' := (Option.some.inj h).symm
      cases m with
      | true =>
          simp only [if_true, Option.some.injEq] at hc
          subst hc
          exact ⟨rf.memory, rf.log, rf.spare, h', Or.inl ⟨hm, rfl⟩⟩
      | false =>
          simp only [Bool.false_eq_true, if_false] at hc
          unfold copyEntries at hc
          split at hc
          · rename_i hp
            obtain ⟨m, sp, e⟩ := rf.appendLog_eq rf.log rf.spare entries grow
            cases hc
            rw [e] at h'
            exact ⟨m, _, sp, h', Or.inr (Or.inl ⟨hm, hp, e.symm⟩)⟩
          · rename_i hp
            split at hc
            · cases hc
            · rename_i l sp hs
              obtain ⟨m, sp', e⟩ := rf.appendLog_eq l sp entries grow
              cases hc
              rw [e] at h'
              exact ⟨m, _, sp', h', Or.inr (Or.inr ⟨hm, hp, (l, sp), hs, e.symm⟩)⟩

/-- The same the other way round: a request whose entries match, and one that is copied. -/
theorem acceptEntries_match {args : AppendEntriesArgs n C} {prev : Nat} {entries : List (LogEntry C)}
    (hm : rf.isMatch (prev + 1) entries = some true) (grow : Nat) :
    rf.acceptEntries args prev entries grow = some (persist ((rf.written rf.memory rf.log rf.spare
      args.leaderCommit (prev + entries.length)).updateSnapshotUnLock args.logSnapshot grow)) := by
  unfold acceptEntries
  rw [hm]
  rfl

theorem acceptEntries_copy {args : AppendEntriesArgs n C} {prev grow : Nat} {m : Memory C}
    {entries log spare : List (LogEntry C)}
    (hm : rf.isMatch (prev + 1) entries = some false)
    (hc : rf.copyEntries prev entries grow =
      some { rf with memory := m, log := log, spare := spare }) :
    rf.acceptEntries args prev entries grow = some (persist ((rf.written m log spare
      args.leaderCommit (prev + entries.length)).updateSnapshotUnLock args.logSnapshot grow)) := by
  unfold acceptEntries
  rw [hm]
  dsimp only
  rw [if_neg Bool.false_ne_true, hc]
  rfl

section Snapshot

variable (rf) (sn : Snapshot) (grow : Nat)

@[simp] theorem updateSnapshotUnLock_currentTerm :
    (rf.updateSnapshotUnLock sn grow).currentTerm = rf.currentTerm := by
  unfold updateSnapshotUnLock; split <;> [split; skip] <;> rfl
@[simp] theorem updateSnapshotUnLock_votedFor :
    (rf.updateSnapshotUnLock sn grow).votedFor = rf.votedFor := by
  unfold updateSnapshotUnLock; split <;> [split; skip] <;> rfl
@[simp] theorem updateSnapshotUnLock_state :
    (rf.updateSnapshotUnLock sn grow).state = rf.state := by
  unfold updateSnapshotUnLock; split <;> [split; skip] <;> rfl
@[simp] theorem updateSnapshotUnLock_commitIndex :
    (rf.updateSnapshotUnLock sn grow).commitIndex = rf.commitIndex := by
  unfold updateSnapshotUnLock; split <;> [split; skip] <;> rfl
@[simp] theorem updateSnapshotUnLock_lastApplied :
    (rf.updateSnapshotUnLock sn grow).lastApplied = rf.lastApplied := by
  unfold updateSnapshotUnLock; split <;> [split; skip] <;> rfl
@[simp] theorem updateSnapshotUnLock_persister :
    (rf.updateSnapshotUnLock sn grow).persister = rf.persister := by
  unfold updateSnapshotUnLock; split <;> [split; skip] <;> rfl
theorem updateSnapshotUnLock_snapshot : (rf.updateSnapshotUnLock sn grow).snapshot =
    if rf.snapshot.index < sn.index then sn else rf.snapshot := by
  unfold updateSnapshotUnLock; split <;> [split; skip] <;> rfl
@[simp] theorem updateSnapshotUnLock_applyChan :
    (rf.updateSnapshotUnLock sn grow).applyChan = rf.applyChan := by
  unfold updateSnapshotUnLock; split <;> [split; skip] <;> rfl

end Snapshot

section Written

variable (rf) (m : Memory C) (log spare : List (LogEntry C)) (lc last : Nat)

@[simp] theorem written_currentTerm :
    (rf.written m log spare lc last).currentTerm = rf.currentTerm := by
  unfold written advanceCommit; split <;> rfl
@[simp] theorem written_votedFor : (rf.written m log spare lc last).votedFor = rf.votedFor := by
  unfold written advanceCommit; split <;> rfl
@[simp] theorem written_state : (rf.written m log spare lc last).state = .follower := by
  unfold written advanceCommit; split <;> rfl
@[simp] theorem written_log : (rf.written m log spare lc last).log = log := by
  unfold written advanceCommit; split <;> rfl
@[simp] theorem written_spare : (rf.written m log spare lc last).spare = spare := by
  unfold written advanceCommit; split <;> rfl
@[simp] theorem written_memory : (rf.written m log spare lc last).memory = m := by
  unfold written advanceCommit; split <;> rfl
@[simp] theorem written_lastApplied :
    (rf.written m log spare lc last).lastApplied = rf.lastApplied := by
  unfold written advanceCommit; split <;> rfl
@[simp] theorem written_snapshot : (rf.written m log spare lc last).snapshot = rf.snapshot := by
  unfold written advanceCommit; split <;> rfl
@[simp] theorem written_persister : (rf.written m log spare lc last).persister = rf.persister := by
  unfold written advanceCommit; split <;> rfl
@[simp] theorem written_applyChan : (rf.written m log spare lc last).applyChan = rf.applyChan := by
  unfold written advanceCommit; split <;> rfl

theorem written_commitIndex : (rf.written m log spare lc last).commitIndex =
    if rf.commitIndex < lc then min lc last else rf.commitIndex := by
  unfold written advanceCommit
  split <;> simp_all

end Written

/-- An accepted request leaves term and vote alone and makes the server a follower. -/
theorem acceptEntries_vote {args : AppendEntriesArgs n C} {prev grow : Nat}
    {entries : List (LogEntry C)} {rf' : Raft n C}
    (h : rf.acceptEntries args prev entries grow = some rf') :
    rf'.currentTerm = rf.currentTerm ∧ rf'.votedFor = rf.votedFor ∧ rf'.state = .follower ∧
      rf'.lastApplied = rf.lastApplied := by
  obtain ⟨m, log, spare, rfl, _⟩ := acceptEntries_cases h
  simp

end Handlers

/-! ## 5. The leader's request -/

/-- What `appendArgs` builds, when it does not run out of range. -/
theorem appendArgs_inv {rf : Raft n C} {me : Fin n} {next index term commitIndex : Nat}
    {args : AppendEntriesArgs n C}
    (h : rf.appendArgs me next index term commitIndex = some args) :
    ∃ prevLog es, rf.getLogByIndexUnLock ((next : Int) - 1) = some prevLog ∧
      (if next < index + 1 then
        if next < rf.snapshot.index then
          (rf.sliceLog 0 ((index : Int) - rf.snapshot.index + 1)).map (·.1)
        else
          (rf.sliceLog ((next : Int) - rf.snapshot.index)
            ((index : Int) - rf.snapshot.index + 1)).map (·.1)
      else some []) = some es ∧
      args = ⟨term, me, (next : Int) - 1, prevLog.term, es, commitIndex, rf.snapshot⟩ := by
  unfold appendArgs at h
  split at h
  · cases h
  · rename_i prevLog hp
    obtain ⟨es, hes, e⟩ := Option.map_eq_some_iff.mp h
    exact ⟨prevLog, es, hp, hes, e.symm⟩

theorem appendArgs_term {rf : Raft n C} {me : Fin n} {next index term commitIndex : Nat}
    {args : AppendEntriesArgs n C}
    (h : rf.appendArgs me next index term commitIndex = some args) : args.term = term := by
  obtain ⟨_, _, _, _, rfl⟩ := appendArgs_inv h
  rfl

/-- Its entries are a part of the array of the log, from the slot of `next` on. -/
theorem appendArgs_entries {rf : Raft n C} {me : Fin n} {next index term commitIndex : Nat}
    {args : AppendEntriesArgs n C}
    (h : rf.appendArgs me next index term commitIndex = some args) :
    ∃ hi, hi ≤ (rf.log ++ rf.spare).length ∧ hi ≤ index + 1 ∧
      args.entries = ((rf.log ++ rf.spare).take hi).drop (next - rf.snapshot.index) := by
  obtain ⟨prevLog, es, _, hes, rfl⟩ := appendArgs_inv h
  have hslice : ∀ {lo : Int}, lo.toNat = next - rf.snapshot.index →
      (rf.sliceLog lo ((index : Int) - rf.snapshot.index + 1)).map (·.1) = some es →
      ∃ hi, hi ≤ (rf.log ++ rf.spare).length ∧ hi ≤ index + 1 ∧
        es = ((rf.log ++ rf.spare).take hi).drop (next - rf.snapshot.index) := by
    intro lo hlo hs
    obtain ⟨ls, hls, rfl⟩ := Option.map_eq_some_iff.mp hs
    unfold sliceLog at hls
    split at hls
    · cases hls
      exact ⟨((index : Int) - rf.snapshot.index + 1).toNat, by omega, by omega, by rw [← hlo]⟩
    · cases hls
  split at hes
  · split at hes
    · exact hslice (by omega) hes
    · exact hslice (by omega) hes
  · cases hes
    exact ⟨0, Nat.zero_le _, Nat.zero_le _, by simp⟩

theorem appendArgs_length {rf : Raft n C} {me : Fin n} {next index term commitIndex : Nat}
    {args : AppendEntriesArgs n C}
    (h : rf.appendArgs me next index term commitIndex = some args) :
    args.entries.length ≤ index + 1 := by
  obtain ⟨hi, _, hle, he⟩ := appendArgs_entries h
  rw [he, List.length_drop, List.length_take]
  omega

/-- **What is read right after the request was built is what it was built with.** -/
theorem appendArgs_readOn {rf : Raft n C} {me : Fin n} {next index term commitIndex : Nat}
    {args : AppendEntriesArgs n C}
    (h : rf.appendArgs me next index term commitIndex = some args) {m : Nat}
    (hm : args.entries.length ≤ m) :
    rf.readOn (rf.entriesSlice next) args.entries.length m [] = args.entries := by
  obtain ⟨hi, hlen, _, he⟩ := appendArgs_entries h
  have harr : rf.arrays[rf.memory.old.length]? = some rf.array := List.getElem?_concat_length
  have hcount : args.entries.length = hi - (next - rf.snapshot.index) := by
    rw [he, List.length_drop, List.length_take]
    omega
  simp only [readOn, read, entriesSlice, harr, List.nil_append, List.length_nil, Option.getD_some,
    Nat.add_zero, Nat.sub_zero, Nat.min_eq_right hm]
  rw [array, List.drop_length_add_append, hcount, ← List.drop_take, he]

/-! ## 6. Delivery -/

/-- One message of the loop: the command of the entry at its index. -/
def Delivers (rf : Raft n C) (k : Nat) (m : ApplyMsg C) : Prop :=
  ∃ i e, rf.lastApplied < i ∧ i ≤ rf.lastApplied + k ∧ rf.getLogByIndexUnLock i = some e ∧
    m = ⟨true, .value e.log, i⟩

/-- The loop of `apply` moves `lastApplied` and fills the channel; nothing else. -/
theorem applyLoop_frame {k : Nat} : ∀ {rf rf' : Raft n C}, rf.applyLoop k = some rf' →
    ∃ ms, (∀ m ∈ ms, rf.Delivers k m) ∧
      rf' = { rf with lastApplied := rf.lastApplied + k, applyChan := rf.applyChan ++ ms } := by
  induction k with
  | zero =>
      intro rf rf' h
      simp only [applyLoop, Option.some.injEq] at h
      subst h
      exact ⟨[], nofun, by simp⟩
  | succ k ih =>
      intro rf rf' h
      unfold applyLoop at h
      split at h
      · cases h
      · rename_i e he
        obtain ⟨ms, hms, rfl⟩ := ih h
        refine ⟨⟨true, .value e.log, rf.lastApplied + 1⟩ :: ms, fun m hm => ?_, ?_⟩
        · rcases List.mem_cons.mp hm with rfl | hm
          · exact ⟨rf.lastApplied + 1, e, by omega, by omega, he, rfl⟩
          · obtain ⟨i, x, h1, h2, hx, rfl⟩ := hms m hm
            have h1' : rf.lastApplied + 1 < i := h1
            have h2' : i ≤ rf.lastApplied + 1 + k := h2
            exact ⟨i, x, by omega, by omega, hx, rfl⟩
        · simp only [send, List.append_assoc, List.singleton_append, Nat.add_assoc, Nat.add_comm 1 k]

/-- **What `apply` does**: the snapshot first, if it is ahead, then the entries up to
    `commitIndex`. -/
theorem apply_cases {rf rf' : Raft n C} (h : rf.apply = some rf') :
    (rf.commitIndex < rf.snapshot.index ∧ rf' = rf.handSnapshot) ∨
    (rf.snapshot.index ≤ rf.commitIndex ∧ ∃ ms,
      (∀ m ∈ ms, rf.handSnapshot.Delivers (rf.commitIndex - rf.handSnapshot.lastApplied) m) ∧
      rf' = { rf.handSnapshot with
        lastApplied := max rf.handSnapshot.lastApplied rf.commitIndex
        applyChan := rf.handSnapshot.applyChan ++ ms }) := by
  have hc : rf.handSnapshot.commitIndex = rf.commitIndex := by unfold handSnapshot; split <;> rfl
  have hs : rf.handSnapshot.snapshot = rf.snapshot := by unfold handSnapshot; split <;> rfl
  unfold apply at h
  dsimp only at h
  rw [hc, hs] at h
  split at h
  · cases h
    exact Or.inl ⟨‹_›, rfl⟩
  · obtain ⟨ms, hms, rfl⟩ := applyLoop_frame h
    refine Or.inr ⟨by omega, ms, hms, ?_⟩
    rw [show max rf.handSnapshot.lastApplied rf.commitIndex =
      rf.handSnapshot.lastApplied + (rf.commitIndex - rf.handSnapshot.lastApplied) by omega]

theorem handSnapshot_frame (rf : Raft n C) : ∃ ms, (∀ m ∈ ms, m.commandValid = false) ∧
    rf.handSnapshot = { rf with
      lastApplied := max rf.lastApplied rf.snapshot.index, applyChan := rf.applyChan ++ ms } := by
  unfold handSnapshot
  split
  · rw [show max rf.lastApplied rf.snapshot.index = rf.snapshot.index by omega]
    exact ⟨[⟨false, .snapshot rf.snapshot, 0⟩], by simp, rfl⟩
  · rw [show max rf.lastApplied rf.snapshot.index = rf.lastApplied by omega]
    exact ⟨[], nofun, by simp⟩

theorem apply_frame {rf rf' : Raft n C} (h : rf.apply = some rf') :
    ∃ i ms, rf' = { rf with lastApplied := i, applyChan := rf.applyChan ++ ms } := by
  obtain ⟨ms, _, hs⟩ := handSnapshot_frame rf
  rcases apply_cases h with ⟨_, rfl⟩ | ⟨_, ms', _, rfl⟩
  · exact ⟨_, ms, hs⟩
  · rw [hs]
    exact ⟨max (max rf.lastApplied rf.snapshot.index) rf.commitIndex, ms ++ ms', by simp⟩

theorem saveSnapshot_cases {rf rf' : Raft n C} {index : Nat} {storage : List UInt8}
    (h : rf.saveSnapshot index storage = some rf') :
    (index ≤ rf.snapshot.index ∧ rf' = rf) ∨
    (rf.snapshot.index < index ∧ ∃ e ls, rf.getLogByIndexUnLock index = some e ∧
      rf.sliceLog ((index : Int) - rf.snapshot.index) rf.log.length = some ls ∧
      rf' = persist { rf with
        snapshot := ⟨index, e.term, storage⟩, log := ls.1, spare := ls.2,
        memory := rf.cutOff (rf.log.take (index - rf.snapshot.index)) }) := by
  unfold saveSnapshot at h
  split at h
  · rename_i hlt
    split at h
    · rename_i e l sp he hs
      exact Or.inr ⟨hlt, e, (l, sp), he, hs, (Option.some.inj h).symm⟩
    · cases h
  · rename_i hle
    exact Or.inl ⟨by omega, (Option.some.inj h).symm⟩

end Mit6824.Raft
