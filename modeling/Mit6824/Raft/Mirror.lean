/-
  File:      Mit6824/Raft/Mirror.lean
  Subject:   A SERVER AND ITS PLACE ON THE BOARD (raft.go, function by function).

  The board of `Lib.Consensus` says what a cluster has agreed on; here it is a board of servers
  and log entries.

  * `Kept a v k` -- the first `k + 1` entries of the whole log of `v` are settled;
  * `Mirrors a v rf` -- `v` on the board is the server `rf`: term, whole log, and everything the
    server takes as decided (`commitIndex`, `lastApplied`, the snapshot, the commit index on disk,
    the commands on the channel) is settled;
  * each section of a server, but for the AppendEntries handler, and the move that mirrors it.
-/
import Mit6824.Raft.Whole

namespace Mit6824

open Lib

variable {n : Nat} {C : Type}

/-- The log every server starts with. -/
def base : List (LogEntry C) := [LogEntry.zero]

/-- The board is as its invariant says, with majorities for quorums. -/
abbrev Good (a : Board (Fin n) (LogEntry C)) : Prop :=
  Board.Inv LogEntry.term (majorities (Fin n)) base a

/-! ## 1. What is decided -/

/-- **The first `k + 1` entries of the whole log of `v` are settled.** -/
def Kept (a : Board (Fin n) (LogEntry C)) (v : Fin n) (k : Nat) : Prop :=
  k < (a.log v).length ∧ Board.Settled base a (a.term v) ((a.log v).take (k + 1))

/-- A command on the channel is the command of a settled entry. -/
def Delivered (a : Board (Fin n) (LogEntry C)) (m : ApplyMsg C) : Prop :=
  m.commandValid = true → ∃ u P e, Board.Settled base a u P ∧ P[m.commandIndex]? = some e ∧
    m.command = .value e.log

section Decided

variable {a a' : Board (Fin n) (LogEntry C)} {v : Fin n}

theorem Kept.grow {k : Nat} (h : Kept a v k) (hle : a ≤ a') (hlog : a'.log v = a.log v) :
    Kept a' v k := by
  unfold Kept
  rw [hlog]
  exact ⟨h.1, (h.2.grow hle).le (hle.term v)⟩

theorem Kept.le {j k : Nat} (h : Kept a v k) (hjk : j ≤ k) : Kept a v j :=
  ⟨Nat.lt_of_le_of_lt hjk h.1,
    h.2.begins (List.take_prefix_take_left (by omega))⟩

theorem Kept.max {j k : Nat} (hj : Kept a v j) (hk : Kept a v k) : Kept a v (max j k) := by
  rcases Nat.le_total j k with h | h
  · rwa [Nat.max_eq_right h]
  · rwa [Nat.max_eq_left h]

/-- What is kept survives that the log is extended ... -/
theorem Kept.extend {k : Nat} (h : Kept a v k) (hle : a ≤ a') {es : List (LogEntry C)}
    (hlog : a'.log v = a.log v ++ es) : Kept a' v k := by
  have hlt := h.1
  unfold Kept
  rw [hlog, List.take_append_of_le_length (by omega), List.length_append]
  exact ⟨by omega, (h.2.grow hle).le (hle.term v)⟩

/-- ... and that the server takes what the leader of its term sends. -/
theorem Kept.accept (hI : Good a) {k m : Nat} (h : Kept a v k) (hl : a.lead (a.term v) ≠ none) :
    Kept (a.accept v m) v k := by
  have hlt := h.1
  have hb := hI.settled_accept (k := m) h.2 hl <| List.take_prefix _ _
  obtain ⟨hle, heq⟩ := (take_begins_iff (by omega)).mp hb
  have hlog : (a.accept v m).log v = a.accepted v m := Function.update_self _ _ _
  unfold Kept
  rw [hlog, ← heq]
  exact ⟨by omega, h.2.grow Board.accept_grows⟩

theorem Delivered.grow {m : ApplyMsg C} (h : Delivered a m) (hle : a ≤ a') : Delivered a' m := by
  intro hv
  obtain ⟨u, P, e, hP, he, hm⟩ := h hv
  exact ⟨u, P, e, hP.grow hle, he, hm⟩

end Decided

/-! ## 2. The server on the board -/

/-- **`v` on the board is the server `rf`.** -/
structure Mirrors (a : Board (Fin n) (LogEntry C)) (v : Fin n) (rf : Raft n C) : Prop where
  term : a.term v = rf.currentTerm
  holds : rf.Holds (a.log v)
  commit : Kept a v rf.commitIndex
  applied : Kept a v rf.lastApplied
  snap : Kept a v rf.snapshot.index
  disk : ∀ d, rf.persister.raftstate = some d → Kept a v d.commitIndex
  chan : ∀ m ∈ rf.applyChan, Delivered a m

namespace Mirrors

variable {a a' : Board (Fin n) (LogEntry C)} {v : Fin n} {rf rf' : Raft n C}

/-- The board moves on, but `v` stays. -/
theorem grow (h : Mirrors a v rf) (hle : a ≤ a') (hterm : a'.term v = a.term v)
    (hlog : a'.log v = a.log v) : Mirrors a' v rf where
  term := hterm.trans h.term
  holds := by rw [hlog]; exact h.holds
  commit := h.commit.grow hle hlog
  applied := h.applied.grow hle hlog
  snap := h.snap.grow hle hlog
  disk := fun d hd => (h.disk d hd).grow hle hlog
  chan := fun m hm => (h.chan m hm).grow hle

theorem other {w : Fin n} (h : Mirrors a v rf) (hm : Board.MovedBy w a a') (hv : v ≠ w) :
    Mirrors a' v rf := h.grow hm.grows (hm.term v hv) (hm.log v hv)

/-- Role, vote and the leader's bookkeeping are not on the board. -/
theorem congr (h : Mirrors a v rf) (ht : rf'.currentTerm = rf.currentTerm)
    (hl : rf'.log = rf.log) (hs : rf'.snapshot = rf.snapshot)
    (hc : rf'.commitIndex = rf.commitIndex) (ha : rf'.lastApplied = rf.lastApplied)
    (hp : rf'.persister = rf.persister) (hch : rf'.applyChan = rf.applyChan) : Mirrors a v rf' where
  term := by rw [ht]; exact h.term
  holds := h.holds.congr hl hs
  commit := by rw [hc]; exact h.commit
  applied := by rw [ha]; exact h.applied
  snap := by rw [hs]; exact h.snap
  disk := by rw [hp]; exact h.disk
  chan := by rw [hch]; exact h.chan

theorem persist (h : Mirrors a v rf) : Mirrors a v rf.persist where
  term := by rw [Raft.persist_currentTerm]; exact h.term
  holds := h.holds.congr (Raft.persist_log rf) (Raft.persist_snapshot rf)
  commit := by rw [Raft.persist_commitIndex]; exact h.commit
  applied := by rw [Raft.persist_lastApplied]; exact h.applied
  snap := by rw [Raft.persist_snapshot]; exact h.snap
  disk := by
    intro d hd
    rw [Raft.persist_persister] at hd
    cases hd
    exact h.commit
  chan := by
    intro m hm
    rcases rf.persist_applyChan with e | e <;> rw [e] at hm
    · exact h.chan m hm
    · rcases List.mem_append.mp hm with hm | hm
      · exact h.chan m hm
      · rw [List.mem_singleton.mp hm]
        exact nofun

/-! ## 3. Terms and roles -/

theorem stepDown (h : Mirrors a v rf) {t : Nat} (ht : rf.currentTerm < t) :
    Mirrors (a.enter v t) v (rf.stepDown t) := by
  have hle := Board.enter_grows (a := a) (v := v) (h.term.trans_lt ht)
  have hlog : (a.enter v t).log v = a.log v := rfl
  suffices hw : Mirrors (a.enter v t) v
      { rf with currentTerm := t, votedFor := none, state := .follower } from hw.persist
  exact {
    term := Function.update_self _ _ _
    holds := h.holds.congr rfl rfl
    commit := h.commit.grow hle hlog
    applied := h.applied.grow hle hlog
    snap := h.snap.grow hle hlog
    disk := fun d hd => (h.disk d hd).grow hle hlog
    chan := fun m hm => (h.chan m hm).grow hle }

/-- A step down within the term. -/
theorem stepDown_same (h : Mirrors a v rf) {t : Nat} (ht : rf.currentTerm = t) :
    Mirrors a v (rf.stepDown t) := by
  subst ht
  have hw : Mirrors a v { rf with votedFor := none, state := .follower } :=
    h.congr rfl rfl rfl rfl rfl rfl rfl
  exact hw.persist

theorem stepDown_le (h : Mirrors a v rf) {t : Nat} (ht : rf.currentTerm ≤ t) :
    Mirrors (a.advance v t) v (rf.stepDown t) := by
  unfold Board.advance
  rw [h.term]
  split
  · exact h.stepDown ‹_›
  · exact h.stepDown_same (by omega)

theorem catchUp (h : Mirrors a v rf) (t : Nat) : Mirrors (a.advance v t) v (rf.catchUp t) := by
  unfold Board.advance Raft.catchUp
  rw [h.term]
  split
  · exact h.stepDown ‹_›
  · exact h

theorem becomeCandidate (h : Mirrors a v rf) :
    Mirrors (a.enter v (rf.currentTerm + 1)) v (rf.becomeCandidate v) := by
  have hd := h.stepDown (Nat.lt_succ_self rf.currentTerm)
  have hw : Mirrors (a.enter v (rf.currentTerm + 1)) v
      { rf with state := .candidate, currentTerm := rf.currentTerm + 1, votedFor := some v } :=
    { term := by rw [hd.term, Raft.stepDown_currentTerm]
      holds := h.holds.congr rfl rfl
      commit := by simpa using hd.commit
      applied := by simpa using hd.applied
      snap := by simpa using hd.snap
      disk := fun d hd' => (h.disk d hd').grow
        (Board.enter_grows (h.term.trans_lt (Nat.lt_succ_self _))) rfl
      chan := fun m hm => (h.chan m hm).grow
        (Board.enter_grows (h.term.trans_lt (Nat.lt_succ_self _))) }
  exact hw.persist

theorem becomeLeader (h : Mirrors a v rf) : Mirrors a v (rf.becomeLeader v) := by
  unfold Raft.becomeLeader
  refine persist (h.congr ?_ ?_ ?_ ?_ ?_ ?_ ?_) <;> rfl

theorem matched (h : Mirrors a v rf) (u : Fin n) (i : Nat) : Mirrors a v (rf.matched u i) :=
  h.congr (by simp) (by simp) (by simp) (by simp) (by simp) (by simp) (by simp)

/-! ## 4. Log, delivery, snapshots, crashes -/

/-- An append of the leader. -/
theorem startLog (hI : Good a) (h : Mirrors a v rf) (hl : a.lead (a.term v) = some v)
    (command : Option C) (grow : Nat) :
    Mirrors (a.extend v (rf.newEntry command)) v (rf.startLog command grow) := by
  have hle := hI.extend_grows (e := rf.newEntry command) hl
  have hlog : (a.extend v (rf.newEntry command)).log v = a.log v ++ [rf.newEntry command] :=
    Function.update_self _ _ _
  have hH := h.holds.startLog command grow
  obtain ⟨m, sp, e⟩ := rf.startLog_eq command grow
  rw [e] at hH ⊢
  refine persist ⟨h.term, ?_, h.commit.extend hle hlog, h.applied.extend hle hlog,
    h.snap.extend hle hlog, fun d hd => (h.disk d hd).extend hle hlog,
    fun m hm => (h.chan m hm).grow hle⟩
  rw [hlog]
  exact hH.congr (Raft.persist_log _).symm (Raft.persist_snapshot _).symm

/-- A commit of the leader: the index is settled by now. -/
theorem setCommit (h : Mirrors a v rf) {i : Nat} (hi : Kept a v i) :
    Mirrors a v { rf with commitIndex := i } :=
  ⟨h.term, h.holds.congr rfl rfl, hi, h.applied, h.snap, h.disk, h.chan⟩

theorem handSnapshot (h : Mirrors a v rf) : Mirrors a v rf.handSnapshot := by
  obtain ⟨ms, hms, e⟩ := Raft.handSnapshot_frame rf
  rw [e]
  refine ⟨h.term, h.holds.congr rfl rfl, h.commit, h.applied.max h.snap, h.snap, h.disk, ?_⟩
  intro m hm
  rcases List.mem_append.mp hm with hm | hm
  · exact h.chan m hm
  · intro hv
    rw [hms m hm] at hv
    cases hv

/-- What the loop of `apply` sends is above the snapshot and up to the commit index. -/
theorem delivered (h : Mirrors a v rf) {m : ApplyMsg C} (hs : rf.snapshot.index ≤ rf.lastApplied)
    (hm : rf.Delivers (rf.commitIndex - rf.lastApplied) m) : Delivered a m := by
  obtain ⟨i, e, hlt, hle, he, rfl⟩ := hm
  rw [h.holds.get_above (by omega)] at he
  refine fun _ => ⟨_, _, e, h.commit.2, ?_, rfl⟩
  rw [List.getElem?_take_of_lt (by show i < rf.commitIndex + 1; omega)]
  exact he

theorem apply (h : Mirrors a v rf) (hr : rf.apply = some rf') : Mirrors a v rf' := by
  have hH := h.handSnapshot
  obtain ⟨_, _, e⟩ := Raft.handSnapshot_frame rf
  have hs : rf.handSnapshot.snapshot.index ≤ rf.handSnapshot.lastApplied := by
    rw [e]
    exact Nat.le_max_right _ _
  have hc : rf.handSnapshot.commitIndex = rf.commitIndex := by rw [e]
  rcases Raft.apply_cases hr with ⟨_, rfl⟩ | ⟨_, ms, hms, rfl⟩
  · exact hH
  · rw [← hc] at hms ⊢
    refine ⟨hH.term, hH.holds.congr rfl rfl, hH.commit, hH.applied.max hH.commit, hH.snap, hH.disk,
      fun m hm => ?_⟩
    rcases List.mem_append.mp hm with hm | hm
    · exact hH.chan m hm
    · exact hH.delivered hs (hms m hm)

theorem saveSnapshot (h : Mirrors a v rf) {index : Nat} {storage : List UInt8}
    (hi : index ≤ rf.lastApplied) (hr : rf.saveSnapshot index storage = some rf') :
    Mirrors a v rf' := by
  have hH := h.holds.saveSnapshot hr
  rcases Raft.saveSnapshot_cases hr with ⟨_, rfl⟩ | ⟨_, x, ls, _, _, rfl⟩
  · exact h
  · refine persist ⟨h.term, ?_, h.commit, h.applied, h.applied.le hi, h.disk, h.chan⟩
    exact hH.congr (Raft.persist_log _).symm (Raft.persist_snapshot _).symm

/-- **After a crash** the server is where it was on the board. -/
theorem make (hI : Good a) (h : Mirrors a v rf) (hs : rf.Saved) (grow : Nat) :
    Mirrors a v (Raft.make rf.persister grow) := by
  obtain ⟨h1, _, h3, h4, h5⟩ := Raft.make_saved hs h.holds.aligned.ne grow
  have hzero : Kept a v 0 := by
    have hb := hI.base_log v
    refine ⟨Nat.lt_of_lt_of_le Nat.one_pos hb.length_le, Or.inl ?_⟩
    rw [← take_of_begins hb (by exact le_refl 1)]
    exact List.take_prefix _ _
  refine ⟨h1 ▸ h.term, h.holds.congr h3 h4, ?_, h5 ▸ h.snap, h4 ▸ h.snap, ?_, fun m hm hv => ?_⟩
  · cases hd : rf.persister.raftstate with
    | none => rw [Raft.make_none hd]; exact hzero
    | some d =>
        obtain ⟨ms, e⟩ := Raft.make_some hd grow
        rw [e]
        exact h.disk d hd
  · rw [Raft.make_persister]
    exact h.disk
  · rw [Raft.make_quiet m hm] at hv
    cases hv

end Mirrors

end Mit6824
