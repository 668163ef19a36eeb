/-
  File:      Mit6824/Raft/Backup.lean
  Subject:   BACKING UP nextIndex (raft.go lines 420-445, 453-491, 519-608): what one goroutine of
             a broadcast does with one peer, as a loop.

  The peer answers a request whose entry before it does not have with a hint, `ConflictIndex` and
  `ConflictTerm`; the leader takes the hint, searches its own log down for the term and up to the
  end of its run, and tries again.

  * `Backup.exchange` -- one round: the request, the handler of the peer, `getNextIndex`;
    `Backup.round` -- with the checks the goroutine makes before each request;
  * `Raft.termOf` -- the term that is read at an index; `conflict_spec`, `findDown_spec`,
    `findUp_spec`, `getNextIndex_spec` -- the loops, in terms of it;
  * `AtWork.exchange` -- one round: it succeeds, or ends with a refusal and a new `nextIndex`;
  * `backup_terminates` -- **with a whole log the leader backs up to agreement**;
  * `exec_oneRound` -- a round of the loop is six steps of a cluster.
-/
import Mit6824.Lib.Loops
import Mit6824.Raft.Whole

namespace Mit6824

open Lib

variable {n : Nat} {C : Type}

/-! ## 1. The loop -/

/-- A leader and the peer one goroutine of its broadcast writes to. -/
structure Backup (n : Nat) (C : Type) where
  leader : Raft n C
  peer : Raft n C

/-- How the goroutine ends. -/
inductive Ending where
  | success
  | gaveUp
  deriving DecidableEq, Repr

/-- **One round of the retry loop** of the broadcast `B` for the peer `u`: the request of lines
    531-554, the handler of the peer, and lines 576-608 if it refuses. No message is lost and nothing
    else happens to the two, so the check of lines 568-573, that the term is still the one of the
    request, holds. -/
def Backup.exchange (B : Cast n C) (u : Fin n) (grow : Nat) (s : Backup n C) :
    Option (Backup n C ⊕ Backup n C × Ending) :=
  let nextIndex := s.leader.nextIndex u
  match s.leader.appendArgs B.owner nextIndex B.index B.term B.commitIndex with
  | none => none
  | some args =>
      match s.peer.appendEntries args grow with
      | none => none
      | some (peer, reply, _) =>
          if reply.success then some (.inr (⟨s.leader, peer⟩, .success))
          else if args.term < reply.term then
            some (.inr (⟨s.leader.stepDown reply.term, peer⟩, .gaveUp))
          else
            (s.leader.getNextIndex reply nextIndex).map fun next =>
              .inl ⟨{ s.leader with nextIndex := Function.update s.leader.nextIndex u next }, peer⟩

/-- **One round of the goroutine**, lines 521-608: before the request it checks that its server still
    leads in the term of the broadcast and has not applied more than the broadcast is about. -/
def Backup.round (B : Cast n C) (u : Fin n) (grow : Nat) (s : Backup n C) :
    Option (Backup n C ⊕ Backup n C × Ending) :=
  if s.leader.state ≠ .leader then some (.inr (s, .gaveUp))
  else if s.leader.currentTerm ≠ B.term ∨ B.index < s.leader.lastApplied then
    some (.inr (s, .gaveUp))
  else s.exchange B u grow

namespace Backup

variable {B : Cast n C} {u : Fin n} {grow : Nat} {s t : Backup n C}

/-- A round that comes to a reply. -/
theorem exchange_eq {args : AppendEntriesArgs n C}
    (hargs : s.leader.appendArgs B.owner (s.leader.nextIndex u) B.index B.term B.commitIndex =
      some args) {peer : Raft n C} {reply : AppendEntriesReply} {spawn : Bool}
    (hr : s.peer.appendEntries args grow = some (peer, reply, spawn)) :
    s.exchange B u grow =
      if reply.success then some (.inr (⟨s.leader, peer⟩, .success))
      else if args.term < reply.term then
        some (.inr (⟨s.leader.stepDown reply.term, peer⟩, .gaveUp))
      else
        (s.leader.getNextIndex reply (s.leader.nextIndex u)).map fun next =>
          .inl ⟨{ s.leader with nextIndex := Function.update s.leader.nextIndex u next }, peer⟩ := by
  unfold Backup.exchange
  dsimp only
  rw [hargs]
  dsimp only
  rw [hr]

/-- A round after which the loop goes on. -/
theorem exchange_inl (h : s.exchange B u grow = some (.inl t)) :
    ∃ args peer reply spawn next,
      s.leader.appendArgs B.owner (s.leader.nextIndex u) B.index B.term B.commitIndex = some args ∧
      s.peer.appendEntries args grow = some (peer, reply, spawn) ∧ reply.success = false ∧
      reply.term ≤ args.term ∧ s.leader.getNextIndex reply (s.leader.nextIndex u) = some next ∧
      t = ⟨{ s.leader with nextIndex := Function.update s.leader.nextIndex u next }, peer⟩ := by
  unfold Backup.exchange at h
  dsimp only at h
  split at h
  · cases h
  rename_i args hargs
  split at h
  · cases h
  rename_i peer reply spawn hr
  split at h
  · cases h
  rename_i hsucc
  split at h
  · cases h
  rename_i hle
  obtain ⟨next, hnext, he⟩ := Option.map_eq_some_iff.mp h
  exact ⟨args, peer, reply, spawn, next, hargs, hr, Bool.eq_false_iff.mpr hsucc,
    Nat.le_of_not_lt hle, hnext, (Sum.inl.inj he).symm⟩

/-- **The checks of the goroutine.** -/
structure Current (B : Cast n C) (s : Backup n C) : Prop where
  leads : s.leader.state = .leader
  term : s.leader.currentTerm = B.term
  applied : s.leader.lastApplied ≤ B.index

theorem Current.round (h : Current B s) (u : Fin n) (grow : Nat) :
    s.round B u grow = s.exchange B u grow := by
  have happ := h.applied
  unfold Backup.round
  rw [if_neg (not_not.mpr h.leads), if_neg (not_or.mpr ⟨not_not.mpr h.term, by omega⟩)]

theorem Current.exchange (h : Current B s) (he : s.exchange B u grow = some (.inl t)) :
    Current B t := by
  obtain ⟨_, _, _, _, _, _, _, _, _, _, rfl⟩ := exchange_inl he
  exact ⟨h.leads, h.term, h.applied⟩

/-- A goroutine that finds them to hold does what the loop does. -/
theorem Current.returns (h : Current B s) {k : Nat} {r : Backup n C × Ending}
    (hr : Returns (Backup.exchange B u grow) s k r) : Returns (Backup.round B u grow) s k r :=
  hr.of_eq_on (fun _ h => h.round u grow) (fun _ _ h he => h.exchange he) h

end Backup

/-! ## 2. Terms by index -/

namespace Raft

/-- The term that is read at an index, below the snapshot the snapshot's. -/
def termOf (rf : Raft n C) (i : Int) : Nat := ((rf.getLogByIndexUnLock i).map LogEntry.term).getD 0

theorem termOf_congr {rf rf' : Raft n C} (hl : rf'.log = rf.log) (hs : rf'.snapshot = rf.snapshot)
    (i : Int) : rf'.termOf i = rf.termOf i := by
  unfold termOf
  rw [getLogByIndexUnLock_congr hl hs]

theorem termOf_below {rf : Raft n C} {i : Int} (h : i < rf.snapshot.index) :
    rf.termOf i = rf.snapshot.term := by
  unfold termOf getLogByIndexUnLock
  rw [if_pos h]
  rfl

/-- **`Log[0].Term = snapshot.Term`.** -/
def Headed (rf : Raft n C) : Prop := ∀ e, rf.log[0]? = some e → e.term = rf.snapshot.term

theorem Headed.congr {rf rf' : Raft n C} (h : rf.Headed) (hl : rf'.log = rf.log)
    (hs : rf'.snapshot = rf.snapshot) : rf'.Headed := by
  unfold Headed
  rw [hl, hs]
  exact h

namespace Aligned

variable {rf : Raft n C}

theorem snap_le_last (h : rf.Aligned) : rf.snapshot.index ≤ rf.getLastLogUnLock.index := by
  have hlast := h.last
  have hpos := List.length_pos_iff.mpr h.ne
  omega

/-- Up to the last index every access is in range, and reads that term. -/
theorem read (h : rf.Aligned) {i : Int} (hi : i ≤ rf.getLastLogUnLock.index) :
    ∃ e, rf.getLogByIndexUnLock i = some e ∧ e.term = rf.termOf i := by
  have hget : ∃ e, rf.getLogByIndexUnLock i = some e := by
    have hlast := h.last
    unfold getLogByIndexUnLock
    split
    · exact ⟨_, rfl⟩
    · exact ⟨_, List.getElem?_eq_getElem (by omega)⟩
  obtain ⟨e, he⟩ := hget
  refine ⟨e, he, ?_⟩
  unfold termOf
  rw [he]
  rfl

theorem termOf_snap (h : rf.Aligned) (hh : rf.Headed) :
    rf.termOf rf.snapshot.index = rf.snapshot.term := by
  obtain ⟨e, he, ht⟩ := h.read (Int.ofNat_le.mpr h.snap_le_last)
  rw [← ht]
  refine hh e ?_
  unfold getLogByIndexUnLock at he
  simpa using he

/-! ## 3. The searches -/

/-- The loop of lines 433-439 goes down over entries of the term, and not to the snapshot. -/
theorem conflictLoop_spec (h : rf.Aligned) (t : Nat) {j : Nat}
    (hj : j ≤ rf.getLastLogUnLock.index + 1) :
    ∃ i, rf.conflictLoop t j = some i ∧ i ≤ j ∧
      (∀ k : Nat, i ≤ k → k < j → rf.termOf k = t) ∧ (rf.snapshot.index < i ∨ i = j) ∧
      (i ≤ rf.snapshot.index + 1 ∨ rf.termOf ((i : Int) - 1) ≠ t) := by
  induction j with
  | zero => exact ⟨0, rfl, le_refl 0, fun k _ hk => absurd hk (Nat.not_lt_zero k), Or.inr rfl,
      Or.inl (Nat.zero_le _)⟩
  | succ j ih =>
      have hstop : ∀ k : Nat, j + 1 ≤ k → k < j + 1 → rf.termOf k = t := fun k _ _ => by omega
      unfold Raft.conflictLoop
      split
      · rename_i hlt
        obtain ⟨x, hx, hxt⟩ := h.read (i := j) (by omega)
        rw [hx]
        dsimp only
        split
        · rename_i heq
          obtain ⟨i, hi, hij, hall, hsn, hend⟩ := ih (by omega)
          refine ⟨i, hi, by omega, fun k hk hk' => ?_, Or.inl (by omega), hend⟩
          rcases Nat.lt_or_ge k j with hkj | hkj
          · exact hall k hk hkj
          · rw [show k = j by omega, ← hxt, heq]
        · rename_i hne
          refine ⟨j + 1, rfl, le_refl _, hstop, Or.inr rfl, Or.inr ?_⟩
          rwa [show ((j + 1 : Nat) : Int) - 1 = j by omega, ← hxt]
      · exact ⟨j + 1, rfl, le_refl _, hstop, Or.inr rfl, Or.inl (by omega)⟩

/-- **The hint.** The log is too short, or the first index of the run of terms at `prev`. -/
theorem conflict_spec (h : rf.Aligned) (prev : Nat) :
    (rf.getLastLogUnLock.index ≤ prev ∧
      rf.conflict prev = some (rf.getLastLogUnLock.index, 0)) ∨
    (prev < rf.getLastLogUnLock.index ∧ ∃ i, rf.conflict prev = some (i, rf.termOf prev) ∧
      i ≤ prev ∧ (∀ k : Nat, i ≤ k → k ≤ prev → rf.termOf k = rf.termOf prev) ∧
      (rf.snapshot.index < i ∨ i = prev) ∧
      (i ≤ rf.snapshot.index + 1 ∨ rf.termOf ((i : Int) - 1) ≠ rf.termOf prev)) := by
  unfold Raft.conflict
  split
  · exact Or.inl ⟨by omega, rfl⟩
  · refine Or.inr ⟨by omega, ?_⟩
    obtain ⟨x, hx, hxt⟩ := h.read (i := prev) (by omega)
    obtain ⟨i, hi, hle, hall, hsn, hend⟩ := h.conflictLoop_spec x.term (j := prev) (by omega)
    rw [hxt] at hi hall hend
    rw [hx]
    dsimp only
    rw [hxt, hi]
    refine ⟨i, rfl, hle, fun k hk hk' => ?_, hsn, hend⟩
    rcases Nat.lt_or_ge k prev with hlt | hge
    · exact hall k hk hlt
    · rw [show k = prev by omega]

/-- The loop of lines 468-472 ends at an entry of the term, or at the snapshot. -/
theorem findDown_spec (h : rf.Aligned) (t : Nat) {i : Nat} (hi : i ≤ rf.getLastLogUnLock.index) :
    ∃ j, rf.findDown t i = some j ∧ j ≤ i ∧
      ((rf.snapshot.index < j ∧ rf.termOf j = t) ∨ j = min i rf.snapshot.index) := by
  induction i with
  | zero => exact ⟨0, rfl, le_refl 0, Or.inr (by omega)⟩
  | succ i ih =>
      unfold Raft.findDown
      split
      · rename_i hlt
        obtain ⟨x, hx, hxt⟩ := h.read (i := (i : Int) + 1) (by omega)
        rw [hx]
        dsimp only
        split
        · rename_i heq
          exact ⟨i + 1, rfl, le_refl _, Or.inl ⟨hlt, hxt.symm.trans heq⟩⟩
        · obtain ⟨j, hj, hle, hcase⟩ := ih (by omega)
          exact ⟨j, hj, by omega, hcase.imp_right fun e => by omega⟩
      · exact ⟨i + 1, rfl, le_refl _, Or.inr (by omega)⟩

/-- The loop of lines 475-480 goes up over entries of the term. -/
theorem findUp_spec (h : rf.Aligned) (t fuel : Nat) {j : Nat}
    (hj : j + fuel ≤ rf.getLastLogUnLock.index) :
    ∃ m, rf.findUp t fuel j = some m ∧ j ≤ m ∧ m ≤ j + fuel ∧
      (∀ k : Nat, j < k → k ≤ m → rf.termOf k = t) ∧
      (m = j + fuel ∨ rf.termOf ((m : Int) + 1) ≠ t) := by
  induction fuel generalizing j with
  | zero => exact ⟨j, rfl, le_refl _, le_refl _, fun k hk hk' => by omega, Or.inl rfl⟩
  | succ fuel ih =>
      unfold Raft.findUp
      obtain ⟨x, hx, hxt⟩ := h.read (i := (j : Int) + 1) (by omega)
      rw [hx]
      dsimp only
      split
      · rename_i heq
        obtain ⟨m, hm, hle, hle', hall, hend⟩ := ih (j := j + 1) (by omega)
        refine ⟨m, hm, by omega, by omega, fun k hk hk' => ?_, hend.imp_left fun e => by omega⟩
        rcases Nat.lt_or_ge (j + 1) k with hlt | hge
        · exact hall k hlt hk'
        · rw [show (k : Int) = (j : Int) + 1 by omega, ← hxt, heq]
      · rename_i hne
        exact ⟨j, rfl, le_refl _, by omega, fun k hk hk' => by omega, Or.inr (by rwa [← hxt])⟩

/-- **The new `nextIndex`**: the hinted index, if there is no hinted term or the search finds
    nothing; or one above the last index `m` of a run of the hinted term, found from an index `j` of
    the term or from the snapshot upwards. -/
theorem getNextIndex_spec (h : rf.Aligned) (reply : AppendEntriesReply) {next : Nat}
    (hi : reply.conflictIndex < next) (hn : next ≤ rf.getLastLogUnLock.index + 1) :
    (rf.getNextIndex reply next = some reply.conflictIndex ∧
      (reply.conflictTerm = 0 ∨ rf.termOf reply.conflictIndex < reply.conflictTerm ∨
        min reply.conflictIndex rf.snapshot.index = 0)) ∨
    (reply.conflictTerm ≠ 0 ∧ reply.conflictTerm ≤ rf.termOf reply.conflictIndex ∧
      ∃ j m, rf.getNextIndex reply next = some (m + 1) ∧ 0 < j ∧ j ≤ reply.conflictIndex ∧
        ((rf.snapshot.index < j ∧ rf.termOf j = reply.conflictTerm) ∨
          j = min reply.conflictIndex rf.snapshot.index) ∧
        j ≤ m ∧ m < next ∧ (∀ k : Nat, j < k → k ≤ m → rf.termOf k = reply.conflictTerm) ∧
        (m + 1 = next ∨ rf.termOf ((m : Int) + 1) ≠ reply.conflictTerm)) := by
  unfold Raft.getNextIndex
  split
  · rename_i hc
    exact Or.inl ⟨rfl, Or.inl hc⟩
  · rename_i hc
    obtain ⟨x, hx, hxt⟩ := h.read (i := reply.conflictIndex) (by omega)
    rw [hx]
    dsimp only
    rw [hxt]
    split
    · rename_i hle
      obtain ⟨j, hj, hji, hcase⟩ := h.findDown_spec reply.conflictTerm (i := reply.conflictIndex)
        (by omega)
      rw [hj]
      dsimp only
      split
      · refine Or.inl ⟨rfl, Or.inr (Or.inr ?_)⟩
        rcases hcase with ⟨hlt, _⟩ | hmin <;> omega
      · rename_i hj0
        obtain ⟨m, hm, hjm, hmf, hall, hend⟩ := h.findUp_spec reply.conflictTerm (next - (j + 1))
          (j := j) (by omega)
        rw [hm]
        exact Or.inr ⟨hc, hle, j, m, rfl, by omega, hji, hcase, hjm, by omega, hall,
          hend.imp_left fun e => by omega⟩
    · rename_i hlt
      exact Or.inl ⟨rfl, Or.inr (Or.inl (by omega))⟩

end Aligned

/-! ## 4. One round -/

section Congr

variable {rf rf' : Raft n C} (hl : rf'.log = rf.log) (hs : rf'.snapshot = rf.snapshot)

include hl hs

theorem conflictLoop_congr (t i : Nat) : rf'.conflictLoop t i = rf.conflictLoop t i := by
  induction i with
  | zero => rfl
  | succ i ih =>
      unfold Raft.conflictLoop
      rw [getLogByIndexUnLock_congr hl hs, hs, ih]

theorem conflict_congr (prev : Nat) : rf'.conflict prev = rf.conflict prev := by
  unfold Raft.conflict
  simp only [getLastLogUnLock_congr hl hs, getLogByIndexUnLock_congr hl hs,
    conflictLoop_congr hl hs]

end Congr

/-- The request of a leader whose `nextIndex` lies within its log. -/
theorem Aligned.appendArgs {rf : Raft n C} (h : rf.Aligned) (me : Fin n) {next index : Nat}
    (term commitIndex : Nat) (hs : rf.snapshot.index ≤ index)
    (hi : index ≤ rf.getLastLogUnLock.index) (hn : next ≤ rf.getLastLogUnLock.index + 1) :
    ∃ args, rf.appendArgs me next index term commitIndex = some args ∧ Request args ∧
      args.term = term ∧ args.prevLogIndex = (next : Int) - 1 ∧
      args.prevLogTerm = rf.termOf ((next : Int) - 1) ∧ args.logSnapshot = rf.snapshot := by
  have hlast := h.last
  obtain ⟨x, hx, hxt⟩ := h.read (i := (next : Int) - 1) (by omega)
  -- the slices end within the log
  have hslice : ∀ lo : Int, 0 ≤ lo → lo ≤ (index : Int) - rf.snapshot.index + 1 →
      ∃ ls, rf.sliceLog lo ((index : Int) - rf.snapshot.index + 1) = some ls := by
    intro lo h0 hlo
    unfold sliceLog
    rw [if_pos ⟨h0, hlo, by rw [List.length_append]; omega⟩]
    exact ⟨_, rfl⟩
  have hargs : ∃ args, rf.appendArgs me next index term commitIndex = some args := by
    unfold Raft.appendArgs
    rw [hx]
    dsimp only
    split
    · split
      · obtain ⟨ls, hls⟩ := hslice 0 (le_refl 0) (by omega)
        rw [hls]
        exact ⟨_, rfl⟩
      · obtain ⟨ls, hls⟩ := hslice ((next : Int) - rf.snapshot.index) (by omega) (by omega)
        rw [hls]
        exact ⟨_, rfl⟩
    · exact ⟨_, rfl⟩
  obtain ⟨args, hargs⟩ := hargs
  refine ⟨args, hargs, request_appendArgs h hargs (by omega), ?_⟩
  obtain ⟨y, es, hy, _, rfl⟩ := appendArgs_inv hargs
  rw [hx, Option.some.injEq] at hy
  exact ⟨rfl, rfl, by rw [← hxt, hy], rfl⟩

theorem Aligned.prevConsistent_iff {rf : Raft n C} (h : rf.Aligned) (prev prevTerm : Nat) :
    rf.prevConsistent prev prevTerm =
      some (decide (prev ≤ rf.getLastLogUnLock.index ∧ rf.termOf prev = prevTerm)) := by
  unfold Raft.prevConsistent
  split
  · rename_i hle
    obtain ⟨x, hx, hxt⟩ := h.read (Int.ofNat_le.mpr hle)
    rw [hx, Option.map_some, hxt]
    simp [hle]
  · rename_i hgt
    simp [hgt]

/-- The check of the entry before, by where the request begins: below the snapshot the trimmed
    request begins after the snapshot's entry, and passes. -/
theorem Aligned.check_cases {rf : Raft n C} (h : rf.Aligned) (hh : rf.Headed)
    (args : AppendEntriesArgs n C) :
    (args.prevLogIndex < rf.snapshot.index ∧
      rf.prevConsistent (rf.trimArgs args).1 (rf.trimArgs args).2.1 = some true) ∨
    ∃ prev : Nat, args.prevLogIndex = prev ∧ rf.snapshot.index ≤ prev ∧
      (rf.trimArgs args).1 = prev ∧
      rf.prevConsistent (rf.trimArgs args).1 (rf.trimArgs args).2.1 =
        some (decide (prev ≤ rf.getLastLogUnLock.index ∧ rf.termOf prev = args.prevLogTerm)) := by
  unfold trimArgs
  split
  · rename_i hlt
    refine Or.inl ⟨hlt, ?_⟩
    rw [h.prevConsistent_iff, h.termOf_snap hh]
    simp [h.snap_le_last]
  · rename_i hge
    refine Or.inr ⟨args.prevLogIndex.toNat, by omega, by omega, rfl, ?_⟩
    rw [h.prevConsistent_iff]

/-- **The handler and a request in its term or a later one.** It accepts a request that begins below
    its snapshot or after an entry it has, and installs the snapshot of the request if that is
    newer; it refuses any other with a hint, and nothing of its log changes. -/
theorem Aligned.appendEntries_cases {rf : Raft n C} (h : rf.Aligned) (hh : rf.Headed)
    {args : AppendEntriesArgs n C} (hargs : Request args) (ht : rf.currentTerm ≤ args.term)
    (grow : Nat) :
    (∃ rf' spawn, rf.appendEntries args grow = some (rf', ⟨args.term, true, 0, 0⟩, spawn) ∧
      (args.prevLogIndex < rf.snapshot.index ∨
        (args.prevLogIndex ≤ rf.getLastLogUnLock.index ∧
          rf.termOf args.prevLogIndex = args.prevLogTerm)) ∧
      rf'.snapshot =
        if rf.snapshot.index < args.logSnapshot.index then args.logSnapshot else rf.snapshot) ∨
    (∃ prev i c : Nat, rf.appendEntries args grow =
        some (rf.catchUp args.term, ⟨args.term, false, i, c⟩, false) ∧
      args.prevLogIndex = prev ∧ rf.snapshot.index ≤ prev ∧
      (prev ≤ rf.getLastLogUnLock.index → rf.termOf prev ≠ args.prevLogTerm) ∧
      rf.conflict prev = some (i, c)) := by
  have hlog : (rf.catchUp args.term).log = rf.log := catchUp_log rf args.term
  have hsnap : (rf.catchUp args.term).snapshot = rf.snapshot := catchUp_snapshot rf args.term
  have hcheck := Aligned.check_cases (h.congr hlog hsnap) (hh.congr hlog hsnap) args
  simp only [hsnap, getLastLogUnLock_congr hlog hsnap, termOf_congr hlog hsnap] at hcheck
  obtain ⟨rf', reply, spawn, hr, _⟩ := appendEntries_aligned h hargs grow
  rcases Raft.appendEntries_cases hr with ⟨hlt, _⟩ | ⟨_, hp, ha, rfl, _⟩ |
    ⟨_, hp, rfl, rfl, hrt, hrs, hcf⟩
  · omega
  · refine Or.inl ⟨rf', spawn, hr, ?_, ?_⟩
    · rcases hcheck with ⟨hlt, _⟩ | ⟨prev, hprev, _, _, hb⟩
      · exact Or.inl hlt
      · rw [hp, Option.some.injEq] at hb
        obtain ⟨hle, hterm⟩ := of_decide_eq_true hb.symm
        rw [hprev]
        exact Or.inr ⟨by omega, hterm⟩
    · obtain ⟨m, log, spare, rfl, _⟩ := acceptEntries_cases ha
      rw [persist_snapshot, updateSnapshotUnLock_snapshot, written_snapshot, hsnap]
  · rcases hcheck with ⟨_, hb⟩ | ⟨prev, hprev, hle, htrim, hb⟩
    · rw [hp] at hb
      cases hb
    · obtain ⟨rt, rs, i, c⟩ := reply
      obtain rfl : rt = args.term := hrt
      obtain rfl : rs = false := hrs
      rw [hp, Option.some.injEq] at hb
      rw [htrim, conflict_congr hlog hsnap] at hcf
      exact Or.inr ⟨prev, i, c, hr, hprev, hle, fun hl ht => of_decide_eq_false hb.symm ⟨hl, ht⟩, hcf⟩

end Raft

/-- **A goroutine at work**: its server leads in the term of the broadcast, has the entries of the
    broadcast above its snapshot, and the peer is in no later term. -/
structure AtWork (B : Cast n C) (s : Backup n C) : Prop where
  leads : s.leader.state = .leader
  term : s.leader.currentTerm = B.term
  older : s.peer.currentTerm ≤ B.term
  leader : s.leader.Aligned
  peer : s.peer.Aligned
  headed : s.peer.Headed
  snap_le : s.leader.snapshot.index ≤ B.index
  index_le : B.index ≤ s.leader.getLastLogUnLock.index

/-- The two after a refused request: a new `nextIndex`, and the peer in the term of the leader. -/
def Backup.retry (B : Cast n C) (u : Fin n) (s : Backup n C) (next : Nat) : Backup n C :=
  ⟨{ s.leader with nextIndex := Function.update s.leader.nextIndex u next }, s.peer.catchUp B.term⟩

namespace AtWork

variable {B : Cast n C} {s : Backup n C}

theorem retry (h : AtWork B s) (u : Fin n) (next : Nat) : AtWork B (s.retry B u next) where
  leads := h.leads
  term := h.term
  older := (Raft.catchUp_currentTerm h.older).le
  leader := h.leader.congr rfl rfl
  peer := h.peer.congr (Raft.catchUp_log _ _) (Raft.catchUp_snapshot _ _)
  headed := h.headed.congr (Raft.catchUp_log _ _) (Raft.catchUp_snapshot _ _)
  snap_le := h.snap_le
  index_le := h.index_le

/-- **One request**: the peer accepts it, or refuses it with a hint about the entry before. -/
theorem request (h : AtWork B s) {next : Nat} (hn : next ≤ s.leader.getLastLogUnLock.index + 1)
    (grow : Nat) :
    ∃ args, s.leader.appendArgs B.owner next B.index B.term B.commitIndex = some args ∧
      args.term = B.term ∧
      ((∃ peer spawn, s.peer.appendEntries args grow =
          some (peer, ⟨B.term, true, 0, 0⟩, spawn) ∧
        peer.snapshot = (if s.peer.snapshot.index < s.leader.snapshot.index then s.leader.snapshot
          else s.peer.snapshot) ∧
        (next ≤ s.peer.snapshot.index ∨ (next ≤ s.peer.getLastLogUnLock.index + 1 ∧
          s.peer.termOf ((next : Int) - 1) = s.leader.termOf ((next : Int) - 1)))) ∨
      ∃ prev i c, s.peer.appendEntries args grow =
          some (s.peer.catchUp B.term, ⟨B.term, false, i, c⟩, false) ∧
        next = prev + 1 ∧ s.peer.snapshot.index ≤ prev ∧
        (prev ≤ s.peer.getLastLogUnLock.index → s.peer.termOf prev ≠ s.leader.termOf prev) ∧
        s.peer.conflict prev = some (i, c)) := by
  obtain ⟨args, hargs, hreq, ht, hp, hpt, hsn⟩ :=
    h.leader.appendArgs B.owner B.term B.commitIndex h.snap_le h.index_le hn
  refine ⟨args, hargs, ht, ?_⟩
  have hcases := h.peer.appendEntries_cases h.headed hreq (by rw [ht]; exact h.older) grow
  rw [ht, hp, hpt, hsn] at hcases
  rcases hcases with ⟨peer, spawn, hr, hacc, hsnap⟩ | ⟨prev, i, c, hr, hprev, hle, hne, hcf⟩
  · exact Or.inl ⟨peer, spawn, hr, hsnap, hacc.imp (fun h => by omega) fun h => ⟨by omega, h.2⟩⟩
  · rw [hprev] at hne
    exact Or.inr ⟨prev, i, c, hr, by omega, hle, hne, hcf⟩

/-- **One round**: `Success`, or a new attempt. -/
theorem exchange (h : AtWork B s) {u : Fin n}
    (hn : s.leader.nextIndex u ≤ s.leader.getLastLogUnLock.index + 1) (grow : Nat) :
    (∃ peer, s.exchange B u grow = some (.inr (⟨s.leader, peer⟩, .success)) ∧
      peer.snapshot = (if s.peer.snapshot.index < s.leader.snapshot.index then s.leader.snapshot
        else s.peer.snapshot) ∧
      (s.leader.nextIndex u ≤ s.peer.snapshot.index ∨
        (s.leader.nextIndex u ≤ s.peer.getLastLogUnLock.index + 1 ∧
          s.peer.termOf ((s.leader.nextIndex u : Int) - 1) =
            s.leader.termOf ((s.leader.nextIndex u : Int) - 1)))) ∨
    ∃ prev i c, s.leader.nextIndex u = prev + 1 ∧ s.peer.snapshot.index ≤ prev ∧
      (prev ≤ s.peer.getLastLogUnLock.index → s.peer.termOf prev ≠ s.leader.termOf prev) ∧
      s.peer.conflict prev = some (i, c) ∧
      s.exchange B u grow = (s.leader.getNextIndex ⟨B.term, false, i, c⟩ (prev + 1)).map
        fun next => .inl (s.retry B u next) := by
  obtain ⟨args, hargs, ht, hcases⟩ := h.request hn grow
  rcases hcases with ⟨peer, spawn, hr, hsnap, hacc⟩ | ⟨prev, i, c, hr, hprev, hle, hne, hcf⟩
  · refine Or.inl ⟨peer, ?_, hsnap, hacc⟩
    rw [Backup.exchange_eq hargs hr]
    rfl
  · refine Or.inr ⟨prev, i, c, hprev, hle, hne, hcf, ?_⟩
    rw [Backup.exchange_eq hargs hr, hprev]
    simp only [Bool.false_eq_true, if_false, ht, Nat.lt_irrefl]
    rfl

/-- A goroutine that has been overtaken gives up before it sends anything. -/
theorem gaveUp (h : AtWork B s) (hla : B.index < s.leader.lastApplied) (u : Fin n) (grow : Nat) :
    s.round B u grow = some (.inr (s, .gaveUp)) := by
  unfold Backup.round
  rw [if_neg (not_not.mpr h.leads), if_pos (Or.inr hla)]

/-! ## 5. A leader with a whole log -/

/-- **The new `nextIndex` is smaller.** The run of the hinted term that the leader finds cannot
    reach the entry before the request: there the terms differ. -/
theorem getNextIndex_lt (h : AtWork B s) (h0 : s.leader.snapshot.index = 0) {prev i c : Nat}
    (hn : prev ≤ s.leader.getLastLogUnLock.index)
    (hne : prev ≤ s.peer.getLastLogUnLock.index → s.peer.termOf prev ≠ s.leader.termOf prev)
    (hcf : s.peer.conflict prev = some (i, c)) :
    ∃ next, s.leader.getNextIndex ⟨B.term, false, i, c⟩ (prev + 1) = some next ∧ next < prev + 1 := by
  obtain ⟨hi, hc⟩ : i ≤ prev ∧ (c = 0 ∨ c ≠ s.leader.termOf prev) := by
    rcases h.peer.conflict_spec prev with ⟨hlast, hcf'⟩ | ⟨hlt, i', hcf', hi, _⟩
    · rw [hcf, Option.some.injEq, Prod.mk.injEq] at hcf'
      exact ⟨by omega, Or.inl hcf'.2⟩
    · rw [hcf, Option.some.injEq, Prod.mk.injEq] at hcf'
      obtain ⟨rfl, rfl⟩ := hcf'
      exact ⟨hi, Or.inr (hne (by omega))⟩
  rcases h.leader.getNextIndex_spec ⟨B.term, false, i, c⟩ (Nat.lt_succ_of_le hi) (by omega) with
    ⟨hy, _⟩ | ⟨hc0, _, j, m, hy, hj, hji, hcase, hjm, hm, hall, _⟩
  · exact ⟨i, hy, Nat.lt_succ_of_le hi⟩
  · dsimp only at hc0 hji hcase hall
    have hjt : s.leader.termOf j = c := by
      rcases hcase with ⟨_, ht⟩ | hmin
      · exact ht
      · omega
    have hmp : m ≠ prev := by
      rintro rfl
      refine hc.resolve_left hc0 ?_
      rcases Nat.lt_or_ge j m with hlt | hge
      · exact (hall m hlt (le_refl m)).symm
      · rw [← hjt, show j = m by omega]
    exact ⟨m + 1, hy, by omega⟩

end AtWork

/-- **Fast log backup terminates in agreement.** A leader that has dropped nothing, a peer in no
    later term, logs that both start at their snapshot; the terms may be any. For every `nextIndex`
    up to the end of the leader's log no access on either side is out of range, and a refused
    request lowers it. So the retry loop comes to a `Success` in at most `nextIndex + 1` rounds, and
    so does the goroutine with its checks, unless it finds itself overtaken (`index < lastApplied`)
    and sends nothing. -/
theorem backup_terminates {leader peer : Raft n C} (hl : leader.Aligned) (hp : peer.Aligned)
    (hh : peer.Headed) (h0 : leader.snapshot.index = 0) (hs : leader.state = .leader) {B : Cast n C}
    (hB : leader.currentTerm = B.term) (ht : peer.currentTerm ≤ leader.currentTerm)
    (hi : B.index ≤ leader.getLastLogUnLock.index) (u : Fin n) (grow : Nat) :
    (∀ next ≤ leader.getLastLogUnLock.index + 1, ∃ args peer' reply spawn,
      leader.appendArgs B.owner next B.index B.term B.commitIndex = some args ∧
      peer.appendEntries args grow = some (peer', reply, spawn) ∧
      (reply.success = false →
        ∃ next', leader.getNextIndex reply next = some next' ∧ next' < next)) ∧
    (leader.nextIndex u ≤ leader.getLastLogUnLock.index + 1 → ∃ k s',
      Returns (Backup.exchange B u grow) ⟨leader, peer⟩ k (s', .success) ∧
      k ≤ leader.nextIndex u + 1 ∧
      (leader.lastApplied ≤ B.index →
        Returns (Backup.round B u grow) ⟨leader, peer⟩ k (s', .success))) ∧
    (B.index < leader.lastApplied →
      Returns (Backup.round B u grow) ⟨leader, peer⟩ 1 (⟨leader, peer⟩, .gaveUp)) := by
  have hw : AtWork B ⟨leader, peer⟩ := by
    refine ⟨hs, hB, ?_, hl, hp, hh, ?_, hi⟩
    · rw [← hB]
      exact ht
    · show leader.snapshot.index ≤ B.index
      omega
  refine ⟨fun next hn => ?_, fun hn => ?_, fun hla => .done _ _ (hw.gaveUp hla u grow)⟩
  · obtain ⟨args, hargs, _, hcases⟩ := hw.request hn grow
    rcases hcases with ⟨peer', spawn, hr, _⟩ | ⟨prev, i, c, hr, rfl, _, hne, hcf⟩
    · refine ⟨args, peer', _, spawn, hargs, hr, fun hf => ?_⟩
      cases hf
    · refine ⟨args, _, _, _, hargs, hr, fun _ => ?_⟩
      exact hw.getNextIndex_lt h0 (Nat.le_of_succ_le_succ hn) hne hcf
  · -- the number that falls is `nextIndex`
    have hloop : ∃ k r, Returns (Backup.exchange B u grow) ⟨leader, peer⟩ k r ∧
        k ≤ leader.nextIndex u + 1 ∧ r.2 = .success := by
      refine returns_of_weight (W := fun s w => AtWork B s ∧ s.leader.snapshot.index = 0 ∧
        s.leader.nextIndex u = w ∧ w ≤ s.leader.getLastLogUnLock.index + 1) ?_ ⟨hw, h0, rfl, hn⟩
      intro s w hW
      obtain ⟨hw, h0, rfl, hn⟩ := hW
      rcases hw.exchange hn grow with ⟨peer', hr, _⟩ | ⟨prev, i, c, hprev, _, hne, hcf, hr⟩
      · exact Or.inl ⟨_, hr, rfl⟩
      · obtain ⟨next, hnext, hlt⟩ := hw.getNextIndex_lt h0 (by omega) hne hcf
        rw [hnext] at hr
        refine Or.inr ⟨s.retry B u next, next, hr, by omega, hw.retry u next, h0, ?_, ?_⟩
        · exact Function.update_self _ _ _
        · show next ≤ s.leader.getLastLogUnLock.index + 1
          omega
    obtain ⟨k, ⟨s', e⟩, hr, hk, he⟩ := hloop
    obtain rfl : e = .success := he
    exact ⟨k, s', hr, hk, fun hla => Backup.Current.returns ⟨hs, hB, hla⟩ hr⟩

/-! ## 6. The loop in a cluster -/

namespace Cluster

/-- The steps of a goroutine's round, in a broadcast for `index`. -/
def oneRound (k : Nat) (u : Fin n) (index grow : Nat) : List (Action n C) :=
  [.peerState k u, .peerArgs k u, .encode k u (index + 1), .handleAppend k u grow, .peerCheck k u,
    .peerReply k u]

section Sections

variable {s : Cluster n C} {k : Nat} {B : Cast n C} {u : Fin n} (hk : s.casts[k]? = some B)

include hk

theorem get_setPeer (c : PeerCall n C) (B' : Cast n C) :
    (s.setPeer k B' u c).casts[k]? = some { B' with peer := Function.update B'.peer u c } := by
  rw [setPeer_casts, List.getElem?_set_self (List.getElem?_eq_some_iff.mp hk).1]

theorem peerState_retry (ha : B.alive = true) (hp : B.peer u = .retry)
    (hs : (s.rafts B.owner).state = .leader) : ∃ s', s.step (.peerState k u) = some s' ∧
      s'.casts[k]? = some { B with peer := Function.update B.peer u .ready } ∧ s'.rafts = s.rafts := by
  refine ⟨s.setPeer k B u .ready, ?_, get_setPeer hk _ _, rfl⟩
  simp [step, peerState, hk, ha, hp, hs]

theorem peerArgs_ready (ha : B.alive = true) (hp : B.peer u = .ready)
    (ht : (s.rafts B.owner).currentTerm = B.term) (hi : (s.rafts B.owner).lastApplied ≤ B.index)
    {args : AppendEntriesArgs n C}
    (hargs : (s.rafts B.owner).appendArgs B.owner ((s.rafts B.owner).nextIndex u) B.index B.term
      B.commitIndex = some args) :
    ∃ s', s.step (.peerArgs k u) = some s' ∧ s'.casts[k]? = some { B with
      peer := Function.update B.peer u (.built args ((s.rafts B.owner).nextIndex u)
        ((s.rafts B.owner).entriesSlice ((s.rafts B.owner).nextIndex u)) []) } ∧
      s'.rafts = s.rafts := by
  refine ⟨s.setPeer k B u (.built args ((s.rafts B.owner).nextIndex u)
    ((s.rafts B.owner).entriesSlice ((s.rafts B.owner).nextIndex u)) []), ?_, get_setPeer hk _ _, rfl⟩
  simp [step, peerArgs, hk, ha, hp, ht, Nat.not_lt.mpr hi, hargs]

theorem encode_built (ha : B.alive = true) {args : AppendEntriesArgs n C} {next m : Nat}
    {slice : Slice} (hp : B.peer u = .built args next slice [])
    (hr : (s.rafts B.owner).readOn slice args.entries.length m [] = args.entries)
    (hm : args.entries.length ≤ m) :
    ∃ s', s.step (.encode k u m) = some s' ∧ s'.casts[k]? = some { B with
      peer := Function.update B.peer u (.sent args next) } ∧ s'.rafts = s.rafts := by
  refine ⟨(s.setPeer k B u (.sent args next)).record (.send B.owner u args), ?_,
    get_setPeer hk _ _, rfl⟩
  simp [step, encode, hk, ha, hp, hr, Nat.not_lt.mpr hm]

theorem handleAppend_sent {args : AppendEntriesArgs n C} {next grow : Nat}
    (hp : B.peer u = .sent args next) {rf : Raft n C} {reply : AppendEntriesReply} {spawn : Bool}
    (hr : (s.rafts u).appendEntries args grow = some (rf, reply, spawn)) :
    ∃ s', s.step (.handleAppend k u grow) = some s' ∧ s'.casts[k]? = some { B with
      peer := Function.update B.peer u (.replied args next reply) } ∧
      s'.rafts = Function.update s.rafts u rf := by
  have hc := get_setPeer (s := s.setRaft u rf) hk (u := u) (.replied args next reply) B
  refine ⟨_, by simp only [step, handleAppend, hk, hp, hr]; rfl, ?_, ?_⟩
  · split <;> split <;> exact hc
  · split <;> split <;> rfl

theorem peerCheck_replied (ha : B.alive = true) {args : AppendEntriesArgs n C} {next : Nat}
    {reply : AppendEntriesReply} (hp : B.peer u = .replied args next reply)
    (ht : (s.rafts B.owner).currentTerm = args.term) : ∃ s', s.step (.peerCheck k u) = some s' ∧
      s'.casts[k]? = some { B with peer := Function.update B.peer u (.checked args next reply) } ∧
      s'.rafts = s.rafts := by
  refine ⟨s.setPeer k B u (.checked args next reply), ?_, get_setPeer hk _ _, rfl⟩
  simp [step, peerCheck, hk, ha, hp, ht]

theorem peerReply_refused (ha : B.alive = true) {args : AppendEntriesArgs n C} {next next' : Nat}
    {reply : AppendEntriesReply} (hp : B.peer u = .checked args next reply)
    (hf : reply.success = false) (ht : reply.term ≤ args.term)
    (hn : (s.rafts B.owner).getNextIndex reply next = some next') :
    ∃ s', s.step (.peerReply k u) = some s' ∧
      s'.casts[k]? = some { B with peer := Function.update B.peer u .retry } ∧
      s'.rafts = Function.update s.rafts B.owner { s.rafts B.owner with
        nextIndex := Function.update (s.rafts B.owner).nextIndex u next' } := by
  refine ⟨_, ?_, get_setPeer (s := s.setRaft B.owner { s.rafts B.owner with
    nextIndex := Function.update (s.rafts B.owner).nextIndex u next' }) hk .retry B, rfl⟩
  simp [step, peerReply, peerFail, hk, ha, hp, hf, hn, Nat.not_lt.mpr ht]

end Sections

/-- **A round of the loop is what the cluster does**, when nothing else moves in between. -/
theorem exec_oneRound {s : Cluster n C} {k : Nat} {B : Cast n C} {u : Fin n} {grow : Nat}
    (hk : s.casts[k]? = some B) (ha : B.alive = true) (hp : B.peer u = .retry) (hu : u ≠ B.owner)
    (hcur : Backup.Current B ⟨s.rafts B.owner, s.rafts u⟩) {t : Backup n C}
    (hr : Backup.exchange B u grow ⟨s.rafts B.owner, s.rafts u⟩ = some (.inl t)) :
    ∃ s', exec step (fun _ _ => true) s (oneRound k u B.index grow) = some s' ∧
      s'.casts[k]? = some B ∧ s'.rafts B.owner = t.leader ∧ s'.rafts u = t.peer := by
  obtain ⟨hst, hterm, hla⟩ := hcur
  obtain ⟨args, peer, reply, spawn, next, hargs, happ, hf, hle, hnext, rfl⟩ :=
    Backup.exchange_inl hr
  dsimp only at hst hterm hla hargs happ hnext
  have hat : args.term = B.term := by
    obtain ⟨_, _, _, _, rfl⟩ := Raft.appendArgs_inv hargs
    rfl
  obtain ⟨s₁, h₁, hc₁, hr₁⟩ := peerState_retry hk ha hp hst
  obtain ⟨s₀, h₀, hc₀, hr₀⟩ := peerArgs_ready hc₁ ha (Function.update_self _ _ _)
    (by rw [hr₁]; exact hterm) (by rw [hr₁]; exact hla) (by rw [hr₁]; exact hargs)
  have hlen := Raft.appendArgs_length hargs
  obtain ⟨s₂, h₂, hc₂, hr₂⟩ := encode_built hc₀ ha (Function.update_self _ _ _)
    (by rw [hr₀, hr₁]; exact Raft.appendArgs_readOn hargs hlen) hlen
  obtain ⟨s₃, h₃, hc₃, hr₃⟩ := handleAppend_sent hc₂ (Function.update_self _ _ _)
    (by rw [hr₂, hr₀, hr₁]; exact happ)
  rw [hr₂, hr₀, hr₁] at hr₃
  have how : s₃.rafts B.owner = s.rafts B.owner := by
    rw [hr₃, Function.update_of_ne hu.symm]
  obtain ⟨s₄, h₄, hc₄, hr₄⟩ := peerCheck_replied hc₃ ha (Function.update_self _ _ _)
    (by show (s₃.rafts B.owner).currentTerm = _; rw [how, hterm, hat])
  obtain ⟨s₅, h₅, hc₅, hr₅⟩ := peerReply_refused hc₄ ha (Function.update_self _ _ _) hf hle
    (by show (s₄.rafts B.owner).getNextIndex _ _ = _; rw [hr₄, how, hr₁]; exact hnext)
  refine ⟨s₅, ?_, ?_, ?_, ?_⟩
  · simp [oneRound, exec, h₁, h₀, h₂, h₃, h₄, h₅]
  · have hback : Function.update B.peer u .retry = B.peer := by
      rw [← hp]
      exact Function.update_eq_self u B.peer
    rw [hc₅]
    simp only [Function.update_idem, hback]
  · rw [hr₅, hr₄]
    show Function.update _ B.owner _ B.owner = _
    rw [Function.update_self, how]
  · rw [hr₅, hr₄]
    show Function.update _ B.owner _ u = _
    rw [Function.update_of_ne hu, hr₃, Function.update_self]

end Cluster

/-! ### Servers given by the terms of their entries -/

/-- A log with these terms; entry `i` carries the command `i`. -/
def logOf (terms : List Nat) : List (LogEntry Nat) :=
  terms.zipIdx.map fun (t, i) => ⟨i, t, if i = 0 then none else some i⟩

/-- A server with this log, cut at `cut`. -/
def serverOf (terms : List Nat) (cut currentTerm : Nat) (state : Role) (next : Nat) : Raft 3 Nat :=
  { Raft.make ⟨none, []⟩ 0 with
    state := state
    currentTerm := currentTerm
    log := (logOf terms).drop cut
    commitIndex := cut
    lastApplied := cut
    nextIndex := fun _ => next
    snapshot := ⟨cut, terms.getD cut 0, []⟩ }

theorem get_logOf {terms : List Nat} {i : Nat} {e : LogEntry Nat} (h : (logOf terms)[i]? = some e) :
    e.index = i ∧ e.term = terms.getD i 0 := by
  rw [logOf, List.getElem?_map, List.getElem?_zipIdx] at h
  obtain ⟨⟨t, j⟩, hp, rfl⟩ := Option.map_eq_some_iff.mp h
  obtain ⟨t', ht, heq⟩ := Option.map_eq_some_iff.mp hp
  rw [Prod.mk.injEq] at heq
  obtain ⟨rfl, rfl⟩ := heq
  exact ⟨Nat.zero_add i, by rw [List.getD_eq_getElem?_getD, ht]; rfl⟩

theorem length_logOf (terms : List Nat) : (logOf terms).length = terms.length := by
  rw [logOf, List.length_map, List.length_zipIdx]

theorem from_logOf (terms : List Nat) : From 0 (logOf terms) := by
  intro k e he
  rw [(get_logOf he).1, Nat.zero_add]

theorem serverOf_holds {terms : List Nat} {cut : Nat} (h : cut < terms.length) (t : Nat) (r : Role)
    (next : Nat) : (serverOf terms cut t r next).Holds (logOf terms) := by
  refine ⟨CutAt.self (from_logOf terms) ?_, fun y hy => (get_logOf hy).2.symm⟩
  rw [length_logOf]
  exact h

theorem serverOf_aligned {terms : List Nat} {cut : Nat} (h : cut < terms.length) (t : Nat) (r : Role)
    (next : Nat) : (serverOf terms cut t r next).Aligned :=
  (serverOf_holds h t r next).aligned

theorem serverOf_headed (terms : List Nat) (cut t : Nat) (r : Role) (next : Nat) :
    (serverOf terms cut t r next).Headed := by
  intro e he
  have he' : ((logOf terms).drop cut)[0]? = some e := he
  rw [List.getElem?_drop, Nat.add_zero] at he'
  exact (get_logOf he').2

/-- A broadcast of server 0 in term `t`, up to `index`. -/
def castOf (index t : Nat) : Cast 3 Nat :=
  ⟨0, true, index, t, 0, 1, false, .running, fun _ => .retry⟩

/-- Two logs that part ways after entry 1, the follower cut there. -/
theorem backup_terminates_parted : ∃ k s',
    Returns (Backup.round (castOf 5 4) 1 0)
      ⟨serverOf [0, 1, 1, 1, 4, 4] 0 4 .leader 6, serverOf [0, 1, 2, 2, 3, 3, 3] 1 3 .follower 0⟩ k
      (s', .success) ∧ k ≤ 7 := by
  have hl : (serverOf [0, 1, 1, 1, 4, 4] 0 4 .leader 6).Aligned :=
    serverOf_aligned (by decide) _ _ _
  have hp : (serverOf [0, 1, 2, 2, 3, 3, 3] 1 3 .follower 0).Aligned :=
    serverOf_aligned (by decide) _ _ _
  obtain ⟨_, hloop, _⟩ := backup_terminates hl hp (serverOf_headed _ _ _ _ _) rfl rfl
    (B := castOf 5 4) rfl (by decide) (by decide) 1 0
  obtain ⟨k, s', _, hk, hr⟩ := hloop (by decide)
  exact ⟨k, s', hr (by decide), hk⟩

end Mit6824
