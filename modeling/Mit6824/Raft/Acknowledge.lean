/-
  File:      Mit6824/Raft/Acknowledge.lean
  Subject:   WHAT A SUCCESS REPLY TELLS THE LEADER (raft.go lines 368-419, 525-554, 609-633, 887-911).

  The leader counts a peer that answers `Success = true` as one that holds its log up to the index
  of the broadcast. Leader and follower are taken as they stand here, with whole logs `L` and `F`
  of which nothing is known but log matching; nothing is said about how they were reached.

  * `Replicated leader rf index` -- what the leader concludes;
  * `Raft.ackOk` -- the condition on a request with a gap (entries that start at the sender's
    snapshot, above `PrevLogIndex + 1`) whose entries the match loop takes for its own;
  * `success_replicated_iff` -- the conclusion is right under the condition, and wrong in every
    case the condition leaves out;
  * `acknowledged_and_missing` -- there is such a case.
-/
import Mit6824.Raft.Handler

namespace Mit6824

open Lib

variable {n : Nat} {C : Type}

/-! ## 1. The conclusion and the condition -/

/-- **What the leader concludes**: the last index is at least `index`, and above the snapshot the
    log holds the leader's entries up to there. -/
def Replicated (leader rf : Raft n C) (index : Nat) : Prop :=
  index ≤ rf.getLastLogUnLock.index ∧
    ∀ k, rf.snapshot.index < k → k ≤ index →
      ∃ e, rf.getLogByIndexUnLock k = some e ∧ leader.getLogByIndexUnLock k = some e

/-- **Log matching**: entries of one term at one position, and the logs are the same up to there. -/
def LogMatching (L F : List (LogEntry C)) : Prop :=
  ∀ i x y, L[i]? = some x → F[i]? = some y → x.term = y.term → F.take (i + 1) = L.take (i + 1)

theorem logMatching_of_begins {L F : List (LogEntry C)} (h : F <+: L) : LogMatching L F :=
  matching_of_begins h

/-- **The condition on a request with a gap**: if the loop of lines 388-394 finds that its entries
    match, the last of them is the snapshot's own, or the log does hold it. -/
def Raft.ackOk (rf : Raft n C) (args : AppendEntriesArgs n C) : Bool :=
  match (rf.trimArgs args).2.2.getLast? with
  | none => true
  | some e =>
      decide ((rf.trimArgs args).1 + 1 < args.logSnapshot.index →
        rf.isMatch ((rf.trimArgs args).1 + 1) (rf.trimArgs args).2.2 = some true →
          e.index ≤ args.logSnapshot.index ∨ rf.holdsEntry e = true)

/-! Both read the log and the snapshot of a server and nothing else. -/

section Congr

variable {rf rf' : Raft n C} (hl : rf'.log = rf.log) (hs : rf'.snapshot = rf.snapshot)

include hl hs

theorem Raft.isMatch_congr (es : List (LogEntry C)) : ∀ next,
    rf'.isMatch next es = rf.isMatch next es := by
  induction es with
  | nil => exact fun _ => rfl
  | cons e es ih =>
      intro next
      unfold Raft.isMatch
      rw [Raft.getLastLogUnLock_congr hl hs, Raft.getLogByIndexUnLock_congr hl hs, ih]

theorem Raft.ackOk_congr (args : AppendEntriesArgs n C) : rf'.ackOk args = rf.ackOk args := by
  have htrim : rf'.trimArgs args = rf.trimArgs args := by
    unfold trimArgs
    rw [hs]
  have hhold : ∀ e, rf'.holdsEntry e = rf.holdsEntry e := by
    intro e
    unfold holdsEntry
    rw [getLogByIndexUnLock_congr hl hs]
  unfold ackOk
  simp only [htrim, hhold, isMatch_congr hl hs]

theorem Replicated.congr {leader : Raft n C} {index : Nat} (h : Replicated leader rf index) :
    Replicated leader rf' index := by
  unfold Replicated
  rw [Raft.getLastLogUnLock_congr hl hs, hs]
  simp only [Raft.getLogByIndexUnLock_congr hl hs]
  exact h

end Congr

/-! ## 2. Whole logs -/

theorem Raft.le_updateSnapshotUnLock (rf : Raft n C) (sn : Snapshot) (grow : Nat) :
    sn.index ≤ (rf.updateSnapshotUnLock sn grow).snapshot.index ∧
      rf.snapshot.index ≤ (rf.updateSnapshotUnLock sn grow).snapshot.index := by
  rw [updateSnapshotUnLock_snapshot]
  split <;> omega

/-- What is read above a snapshot that has just been installed was in the log before. -/
theorem Raft.Holds.get_installed {rf : Raft n C} {F : List (LogEntry C)} (h : rf.Holds F)
    {sn : Snapshot} (hnew : rf.snapshot.index < sn.index) {k grow : Nat} (hk : sn.index < k)
    {e : LogEntry C} (he : (rf.updateSnapshotUnLock sn grow).getLogByIndexUnLock k = some e) :
    F[k]? = some e := by
  have hd := h.cut.from_cut.dropWhile_ne sn.index (by omega)
  have hsn : (rf.updateSnapshotUnLock sn grow).snapshot = sn := by
    rw [updateSnapshotUnLock_snapshot, if_pos hnew]
  rw [getLogByIndexUnLock_of_le _ (by rw [hsn]; omega), hsn] at he
  unfold Raft.updateSnapshotUnLock at he
  rw [if_pos hnew, hd] at he
  split at he
  · rw [show k - sn.index = (k - sn.index - 1) + 1 by omega] at he
    simp at he
  · rename_i x xs hcons
    dsimp only at he
    rw [← hcons, List.getElem?_drop,
      show sn.index - rf.snapshot.index + (k - sn.index) = k - rf.snapshot.index by omega,
      h.cut.get (by omega)] at he
    exact he

/-- Behind a snapshot that covers the index there is nothing to show. -/
theorem replicated_of_snapshot {leader rf : Raft n C} {index : Nat} (h : rf.Aligned)
    (hi : index ≤ rf.snapshot.index) : Replicated leader rf index := by
  have hlast := h.last
  have hpos := List.length_pos_iff.mpr h.ne
  exact ⟨by omega, fun k hk hk' => by omega⟩

/-- A whole log that is the leader's above both snapshots. -/
theorem replicated_of_holds {leader rf : Raft n C} {L G : List (LogEntry C)} {index : Nat}
    (hL : leader.Holds L) (h : rf.Holds G) (hlen : index < G.length)
    (hsn : leader.snapshot.index ≤ rf.snapshot.index)
    (hG : ∀ k, rf.snapshot.index < k → k ≤ index → G[k]? = L[k]?) :
    Replicated leader rf index := by
  have hlast := h.last_index
  refine ⟨by omega, fun k hk hk' => ?_⟩
  obtain ⟨e, he⟩ : ∃ e, G[k]? = some e := ⟨_, List.getElem?_eq_getElem (by omega)⟩
  refine ⟨e, by rw [h.get_above hk, he], ?_⟩
  rw [hL.get_above (by omega), ← hG k hk hk', he]

/-! ## 3. The handler -/

/-- A request out of the whole log `L` that the server with the whole log `F` finds consistent. -/
structure Consistent (L F : List (LogEntry C)) (rf : Raft n C) (idx p : Nat)
    (args : AppendEntriesArgs n C) : Prop where
  line : From 0 L
  holds : rf.Holds F
  matching : LogMatching L F
  excerpt : Excerpt L idx p args
  consistent : rf.prevConsistent (rf.trimArgs args).1 (rf.trimArgs args).2.1 = some true

namespace Consistent

variable {L F : List (LogEntry C)} {rf leader : Raft n C} {idx p : Nat}
  {args : AppendEntriesArgs n C}

theorem prev_lt (h : Consistent L F rf idx p args) : (rf.trimArgs args).1 < F.length := by
  have hcon := h.consistent
  have hlast := h.holds.last_index
  unfold Raft.prevConsistent at hcon
  split at hcon
  · omega
  · cases hcon

/-- **Up to the entry before, the logs are the same**, unless it was cut off or lies below the
    leader's snapshot, where its term is not known to the leader. -/
theorem prev_agrees (h : Consistent L F rf idx p args)
    (hs : args.logSnapshot.index ≤ (rf.trimArgs args).1)
    (hown : rf.snapshot.index < (rf.trimArgs args).1) :
    F.take ((rf.trimArgs args).1 + 1) = L.take ((rf.trimArgs args).1 + 1) := by
  obtain ⟨_, _, hwho⟩ := h.excerpt.trimArgs h.line rf
  have hlt := h.prev_lt
  have hcon := h.consistent
  rcases hwho with ⟨heq, _⟩ | ⟨hp, hpt⟩
  · omega
  · have hple := h.excerpt.prev_le
    obtain ⟨y, hy⟩ : ∃ y, F[(rf.trimArgs args).1]? = some y := ⟨_, List.getElem?_eq_getElem hlt⟩
    obtain ⟨z, hz⟩ : ∃ z, L[(rf.trimArgs args).1]? = some z :=
      ⟨_, List.getElem?_eq_getElem (by omega)⟩
    unfold Raft.prevConsistent at hcon
    rw [h.holds.get_above hown, hy] at hcon
    split at hcon
    · have hyt : y.term = (rf.trimArgs args).2.1 := by simpa using hcon
      have hzt := h.excerpt.prev_term z (by
        rwa [show max (p - 1) args.logSnapshot.index = (rf.trimArgs args).1 by omega])
      exact h.matching _ z y hz hy (by rw [hyt, hpt, hzt])
    · cases hcon

/-- An entry of the log at `idx` with the leader's term. -/
theorem same_of_term (h : Consistent L F rf idx p args)
    (ht : (F[idx]?).map LogEntry.term = (L[idx]?).map LogEntry.term) :
    F.take (idx + 1) = L.take (idx + 1) := by
  have hidx := h.excerpt.idx_lt
  rw [List.getElem?_eq_getElem hidx, Option.map_some] at ht
  obtain ⟨y, hy, hyt⟩ := Option.map_eq_some_iff.mp ht
  exact h.matching idx _ y (List.getElem?_eq_getElem hidx) hy hyt.symm

/-- The loop has compared the last entry with its own position. -/
theorem same_of_match (h : Consistent L F rf idx p args)
    (hm : rf.isMatch ((rf.trimArgs args).1 + 1) (rf.trimArgs args).2.2 = some true)
    (hlt : (rf.trimArgs args).1 < idx)
    (hes : ∀ k, ((rf.trimArgs args).2.2[k]?).map LogEntry.term =
      ((L.take (idx + 1))[(rf.trimArgs args).1 + 1 + k]?).map LogEntry.term) :
    F.take (idx + 1) = L.take (idx + 1) := by
  obtain ⟨hs, _⟩ := h.excerpt.trimArgs h.line rf
  have hidx := h.excerpt.idx_lt
  have hall := (h.holds.isMatch _ (by omega) hm).mp rfl
  have hk := hes (idx - ((rf.trimArgs args).1 + 1))
  rw [show (rf.trimArgs args).1 + 1 + (idx - ((rf.trimArgs args).1 + 1)) = idx by omega,
    List.getElem?_take_of_lt (Nat.lt_succ_self idx), List.getElem?_eq_getElem hidx,
    Option.map_some] at hk
  obtain ⟨e, he, het⟩ := Option.map_eq_some_iff.mp hk
  obtain ⟨y, hy, hyt⟩ := hall _ e he
  rw [show (rf.trimArgs args).1 + 1 + (idx - ((rf.trimArgs args).1 + 1)) = idx by omega] at hy
  refine h.same_of_term ?_
  rw [hy, List.getElem?_eq_getElem hidx, Option.map_some, Option.map_some, hyt, het]

/-- **The log is the leader's up to `idx`**, if the entries are found to match and the server knows
    something about `idx` beyond the two snapshots. -/
theorem same_of_ack (h : Consistent L F rf idx p args)
    (hm : rf.isMatch ((rf.trimArgs args).1 + 1) (rf.trimArgs args).2.2 = some true)
    (hack : rf.ackOk args = true) (hown : rf.snapshot.index < idx)
    (hsn : args.logSnapshot.index < idx) : F.take (idx + 1) = L.take (idx + 1) := by
  obtain ⟨hs, hcase, _⟩ := h.excerpt.trimArgs h.line rf
  rcases hcase with ⟨hle, hes⟩ | ⟨hlt, hcut⟩
  · by_cases hpos : (rf.trimArgs args).1 < idx
    · refine h.same_of_match hm hpos fun k => ?_
      rw [hes, List.getElem?_drop]
    · -- no entries: the entry before is at `idx` or beyond
      have heq := congrArg (List.take (idx + 1)) (h.prev_agrees hle (by omega))
      rwa [List.take_take, List.take_take, Nat.min_eq_left (by omega)] at heq
  · by_cases hgap : (rf.trimArgs args).1 + 1 = args.logSnapshot.index
    · refine h.same_of_match hm (by omega) fun k => ?_
      rw [hgap]
      exact hcut.terms k
    · obtain ⟨e, z, he, hz, hei, het⟩ := h.excerpt.last_entry hcut
      unfold Raft.ackOk at hack
      rw [he] at hack
      rcases of_decide_eq_true hack (by omega) hm with hle | hhold
      · omega
      · obtain ⟨y, hy, hyt⟩ := (h.holds.holdsEntry (by omega)).mp hhold
        rw [hei] at hy
        exact h.matching idx z y hz hy (by rw [hyt, het])

/-- Entries that match: the log stays as it is, up to the snapshot. -/
theorem replicated_match (h : Consistent L F rf idx p args) (hL : leader.Holds L)
    (hleader : args.logSnapshot = leader.snapshot)
    (hm : rf.isMatch ((rf.trimArgs args).1 + 1) (rf.trimArgs args).2.2 = some true)
    (hack : rf.ackOk args = true) (lc last grow : Nat) :
    Replicated leader ((rf.written rf.memory rf.log rf.spare lc last).updateSnapshotUnLock
      args.logSnapshot grow) idx := by
  have hw : (rf.written rf.memory rf.log rf.spare lc last).Holds F :=
    h.holds.congr (by simp) (by simp)
  have hboth := Raft.le_updateSnapshotUnLock (rf.written rf.memory rf.log rf.spare lc last)
    args.logSnapshot grow
  rw [Raft.written_snapshot] at hboth
  by_cases hbelow : idx ≤ ((rf.written rf.memory rf.log rf.spare lc last).updateSnapshotUnLock
      args.logSnapshot grow).snapshot.index
  · exact replicated_of_snapshot (Raft.aligned_updateSnapshotUnLock hw.aligned _ _) hbelow
  · have hidx := h.excerpt.idx_lt
    have hsame := h.same_of_ack hm hack (by omega) (by omega)
    have hget : ∀ k, k ≤ idx → F[k]? = L[k]? := by
      intro k hk
      have := congrArg (·[k]?) hsame
      simpa only [List.getElem?_take_of_lt (show k < idx + 1 by omega)] using this
    have hlen := congrArg List.length hsame
    rw [List.length_take, List.length_take] at hlen
    obtain ⟨y, hy⟩ : ∃ y, L[args.logSnapshot.index]? = some y :=
      ⟨_, List.getElem?_eq_getElem (by omega)⟩
    have hF := hw.updateSnapshotUnLock ((hget _ (by omega)).trans hy)
      (h.excerpt.snap_term y hy) grow
    exact replicated_of_holds hL hF (by omega) (hleader ▸ hboth.1) fun k _ hk => hget k hk

/-- The entries written behind the entry before. What the own snapshot covers need not be what the
    leader has; above it the log is the leader's. -/
theorem holds_behind (h : Consistent L F rf idx p args) {log : List (LogEntry C)}
    (hlog : log = rf.log.take ((rf.trimArgs args).1 + 1 - rf.snapshot.index) ++
      (L.take (idx + 1)).drop ((rf.trimArgs args).1 + 1))
    (mem : Memory C) (spare : List (LogEntry C)) (lc last : Nat) :
    (rf.written mem log spare lc last).Holds
      (F.take ((rf.trimArgs args).1 + 1) ++ (L.take (idx + 1)).drop ((rf.trimArgs args).1 + 1)) := by
  obtain ⟨hs, _⟩ := h.excerpt.trimArgs h.line rf
  have hlt := h.prev_lt
  have hlen : (F.take ((rf.trimArgs args).1 + 1)).length = (rf.trimArgs args).1 + 1 := by
    rw [List.length_take]
    omega
  have hrun : From 0 (F.take ((rf.trimArgs args).1 + 1) ++
      (L.take (idx + 1)).drop ((rf.trimArgs args).1 + 1)) := by
    refine (h.holds.cut.run.take _).append ?_
    rw [hlen]
    exact (h.line.take _).drop _
  refine ⟨?_, fun y hy => ?_⟩
  · rw [Raft.written_log, Raft.written_snapshot, hlog]
    have hcut := h.holds.cut.overwrite hrun hs (by rw [List.take_left' hlen])
    rwa [List.drop_left' hlen] at hcut
  · rw [Raft.written_snapshot] at hy ⊢
    rw [List.getElem?_append_left (by omega), List.getElem?_take_of_lt (by omega)] at hy
    exact h.holds.snap y hy

/-- Above the own snapshot. -/
theorem get_behind (h : Consistent L F rf idx p args)
    (hle : args.logSnapshot.index ≤ (rf.trimArgs args).1) {k : Nat} (hk : rf.snapshot.index < k)
    (hk' : k ≤ idx) :
    (F.take ((rf.trimArgs args).1 + 1) ++ (L.take (idx + 1)).drop ((rf.trimArgs args).1 + 1))[k]? =
      L[k]? := by
  have hlt := h.prev_lt
  have hlen : (F.take ((rf.trimArgs args).1 + 1)).length = (rf.trimArgs args).1 + 1 := by
    rw [List.length_take]
    omega
  by_cases hkp : k < (rf.trimArgs args).1 + 1
  · rw [List.getElem?_append_left (by omega), h.prev_agrees hle (by omega),
      List.getElem?_take_of_lt hkp]
  · rw [List.getElem?_append_right (by omega), hlen, List.getElem?_drop,
      show (rf.trimArgs args).1 + 1 + (k - ((rf.trimArgs args).1 + 1)) = k by omega,
      List.getElem?_take_of_lt (by omega)]

/-- Entries that do not match are copied. -/
theorem replicated_copy (h : Consistent L F rf idx p args) (hL : leader.Holds L)
    (hleader : args.logSnapshot = leader.snapshot)
    (hm : rf.isMatch ((rf.trimArgs args).1 + 1) (rf.trimArgs args).2.2 = some false)
    (mem : Memory C) (spare : List (LogEntry C)) (lc last grow : Nat) :
    Replicated leader ((rf.written mem (rf.log.take ((rf.trimArgs args).1 + 1 - rf.snapshot.index) ++
      (rf.trimArgs args).2.2) spare lc last).updateSnapshotUnLock args.logSnapshot grow) idx := by
  obtain ⟨hs, hcase, _⟩ := h.excerpt.trimArgs h.line rf
  have hlt := h.prev_lt
  have hidx := h.excerpt.idx_lt
  have hsl := h.excerpt.snap_le
  obtain ⟨y, hy⟩ : ∃ y, L[args.logSnapshot.index]? = some y :=
    ⟨_, List.getElem?_eq_getElem (by omega)⟩
  have hboth := Raft.le_updateSnapshotUnLock (rf.written mem (rf.log.take
    ((rf.trimArgs args).1 + 1 - rf.snapshot.index) ++ (rf.trimArgs args).2.2) spare lc last)
    args.logSnapshot grow
  rw [Raft.written_snapshot] at hboth
  rcases hcase with ⟨hle, hes⟩ | ⟨hgt, hcut⟩
  · have hpos : (rf.trimArgs args).1 < idx := by
      by_contra hno
      refine Raft.isMatch_nil hm ?_
      rw [hes]
      refine List.drop_eq_nil_of_le ?_
      rw [List.length_take]
      omega
    have hw := h.holds_behind (congrArg _ hes) mem spare lc last
    have hw' : ((rf.written mem (rf.log.take ((rf.trimArgs args).1 + 1 - rf.snapshot.index) ++
        (rf.trimArgs args).2.2) spare lc last).updateSnapshotUnLock args.logSnapshot grow).Holds
          (F.take ((rf.trimArgs args).1 + 1) ++
            (L.take (idx + 1)).drop ((rf.trimArgs args).1 + 1)) := by
      by_cases hnew : rf.snapshot.index < args.logSnapshot.index
      · exact hw.updateSnapshotUnLock ((h.get_behind hle hnew hsl).trans hy)
          (h.excerpt.snap_term y hy) grow
      · unfold Raft.updateSnapshotUnLock
        rwa [if_neg (by rwa [Raft.written_snapshot])]
    refine replicated_of_holds hL hw' ?_ (hleader ▸ hboth.1)
      fun k hk hk' => h.get_behind hle (by omega) hk'
    rw [List.length_append, List.length_take, List.length_drop, List.length_take]
    omega
  · have hw := h.holds.copied_gap hs hgt hcut (fun z hz => ?_) mem spare lc last grow
    · refine replicated_of_holds hL hw ?_ (hleader ▸ hboth.1) fun k _ hk => ?_
      · rw [List.length_take]
        omega
      · rw [List.getElem?_take_of_lt (by omega)]
    · rw [List.getElem?_take_of_lt (by omega)] at hz
      exact h.excerpt.snap_term z hz

/-- **An accepted request, under the condition.** -/
theorem replicated (h : Consistent L F rf idx p args) (hL : leader.Holds L)
    (hleader : args.logSnapshot = leader.snapshot) (hack : rf.ackOk args = true) {rf' : Raft n C}
    {grow : Nat}
    (ha : rf.acceptEntries args (rf.trimArgs args).1 (rf.trimArgs args).2.2 grow = some rf') :
    Replicated leader rf' idx := by
  have hal := h.holds.aligned
  obtain ⟨hs, _⟩ := h.excerpt.trimArgs h.line rf
  have hlt := h.prev_lt
  have hlast := h.holds.last_index
  obtain ⟨m, hm⟩ := hal.isMatch (rf.trimArgs args).2.2 ((rf.trimArgs args).1 + 1)
  cases m with
  | true =>
      rw [Raft.acceptEntries_match hm grow, Option.some.injEq] at ha
      subst ha
      exact (h.replicated_match hL hleader hm hack _ _ grow).congr (Raft.persist_log _)
        (Raft.persist_snapshot _)
  | false =>
      obtain ⟨mem, spare, hc⟩ := hal.copyEntries hs (by omega) (rf.trimArgs args).2.2 grow
      rw [Raft.acceptEntries_copy hm hc, Option.some.injEq] at ha
      subst ha
      exact (h.replicated_copy hL hleader hm mem spare _ _ grow).congr (Raft.persist_log _)
        (Raft.persist_snapshot _)

/-- **Without the condition** the log that is left does not hold the entry at `idx`. -/
theorem not_replicated (h : Consistent L F rf idx p args) (hL : leader.Holds L)
    (hleader : args.logSnapshot = leader.snapshot) (hack : rf.ackOk args = false) {rf' : Raft n C}
    {grow : Nat}
    (ha : rf.acceptEntries args (rf.trimArgs args).1 (rf.trimArgs args).2.2 grow = some rf') :
    ¬ Replicated leader rf' idx := by
  obtain ⟨hs, hcase, _⟩ := h.excerpt.trimArgs h.line rf
  -- what the condition leaves out
  unfold Raft.ackOk at hack
  split at hack
  · cases hack
  rename_i e he
  have hno := of_decide_eq_false hack
  push Not at hno
  obtain ⟨hgap, hm, hei, hhold⟩ := hno
  rcases hcase with ⟨hle, _⟩ | ⟨_, hcut⟩
  · omega
  obtain ⟨e', z, he', hz, hidx, het⟩ := h.excerpt.last_entry hcut
  obtain rfl : e = e' := Option.some.inj (he.symm.trans he')
  rw [hidx] at hei
  rw [Raft.acceptEntries_match hm grow, Option.some.injEq] at ha
  subst ha
  rintro ⟨_, hall⟩
  obtain ⟨x, hx, hlx⟩ := hall idx (by
    rw [Raft.persist_snapshot, Raft.updateSnapshotUnLock_snapshot, Raft.written_snapshot,
      if_pos (by omega)]
    exact hei) (le_refl _)
  rw [Raft.getLogByIndexUnLock_congr (Raft.persist_log _) (Raft.persist_snapshot _)] at hx
  have hw : (rf.written rf.memory rf.log rf.spare args.leaderCommit
      ((rf.trimArgs args).1 + (rf.trimArgs args).2.2.length)).Holds F :=
    h.holds.congr (by simp) (by simp)
  have hF := hw.get_installed (by rw [Raft.written_snapshot]; omega) hei hx
  rw [hL.get_above (by rw [← hleader]; exact hei), hz, Option.some.injEq] at hlx
  refine hhold ((h.holds.holdsEntry (by omega)).mpr ⟨x, by rw [hidx]; exact hF, ?_⟩)
  rw [het, hlx]

end Consistent

/-! ## 4. Two servers in term 1 -/

/-- `k` commands, all of term 1. -/
def commands (k : Nat) : List (LogEntry Nat) :=
  ⟨0, 0, none⟩ :: (List.range k).map fun i => ⟨i + 1, 1, some (11 + i)⟩

/-- A server that holds them, cut at `cut`. -/
def holding (k cut : Nat) : Raft 3 Nat :=
  { Raft.make ⟨none, []⟩ 0 with
    currentTerm := 1
    log := (commands k).drop cut
    commitIndex := cut
    snapshot := ⟨cut, min cut 1, []⟩ }

theorem get_commands {k i : Nat} {e : LogEntry Nat} (h : (commands k)[i]? = some e) :
    e.index = i ∧ e.term = min i 1 := by
  cases i with
  | zero =>
      cases h
      exact ⟨rfl, rfl⟩
  | succ i =>
      rw [commands, List.getElem?_cons_succ, List.getElem?_map] at h
      obtain ⟨j, hj, rfl⟩ := Option.map_eq_some_iff.mp h
      have := (List.getElem?_eq_some_iff.mp hj).2
      rw [List.getElem_range] at this
      exact ⟨by rw [this], by show 1 = min (i + 1) 1; omega⟩

theorem holding_holds {k cut : Nat} (hc : cut ≤ k) : (holding k cut).Holds (commands k) := by
  refine ⟨CutAt.self (fun i e he => ?_) ?_, fun y hy => ?_⟩
  · rw [(get_commands he).1, Nat.zero_add]
  · show cut < (commands k).length
    simp only [commands, List.length_cons, List.length_map, List.length_range]
    omega
  · exact ((get_commands hy).2).symm

theorem commands_begins {k l : Nat} (h : k ≤ l) : commands k <+: commands l := by
  refine (List.prefix_cons_inj _).mpr (List.IsPrefix.map _ ?_)
  obtain ⟨d, rfl⟩ := Nat.exists_eq_add_of_le h
  rw [List.range_add]
  exact List.prefix_append _ _

/-! ## 5. What the leader concludes -/

section Conclusion

variable {leader follower rf' : Raft n C} {L F : List (LogEntry C)} {me : Fin n}
  {next index term commitIndex grow : Nat} {args : AppendEntriesArgs n C}
  {reply : AppendEntriesReply} {spawn : Bool}

theorem snapshot_of_appendArgs
    (hargs : leader.appendArgs me next index term commitIndex = some args) :
    args.logSnapshot = leader.snapshot := by
  obtain ⟨_, _, _, _, rfl⟩ := Raft.appendArgs_inv hargs
  rfl

/-- A request that is answered with `Success = true` was found consistent and accepted, in the
    term of the request. -/
theorem consistent_of_success (hL : leader.Holds L) (hF : follower.Holds F)
    (hM : LogMatching L F) (hidx : index ≤ leader.getLastLogUnLock.index)
    (hsn : leader.snapshot.index ≤ index)
    (hargs : leader.appendArgs me next index term commitIndex = some args)
    (hr : follower.appendEntries args grow = some (rf', reply, spawn))
    (hs : reply.success = true) :
    Consistent L F (follower.catchUp args.term) index next args ∧
      (follower.catchUp args.term).acceptEntries args
        ((follower.catchUp args.term).trimArgs args).1
        ((follower.catchUp args.term).trimArgs args).2.2 grow = some rf' := by
  have hlast := hL.last_index
  rcases Raft.appendEntries_cases hr with ⟨_, _, rfl, _⟩ | ⟨_, hcon, ha, _⟩ | ⟨_, _, _, _, _, hno, _⟩
  · cases hs
  · exact ⟨⟨hL.cut.run, hF.congr (Raft.catchUp_log _ _) (Raft.catchUp_snapshot _ _), hM,
      excerpt_appendArgs hL hargs (by omega) hsn, hcon⟩, ha⟩
  · rw [hno] at hs
    cases hs

/-- **A Success acknowledgement means replication**, for every leader and follower with matching
    logs, every index the leader holds and every `nextIndex`, unless a request with a gap is taken
    for one that matches; and then it does not. -/
theorem success_replicated_iff (hL : leader.Holds L) (hF : follower.Holds F)
    (hM : LogMatching L F) (hidx : index ≤ leader.getLastLogUnLock.index)
    (hsn : leader.snapshot.index ≤ index)
    (hargs : leader.appendArgs me next index term commitIndex = some args)
    (hr : follower.appendEntries args grow = some (rf', reply, spawn))
    (hs : reply.success = true) :
    Replicated leader rf' index ↔ follower.ackOk args = true := by
  obtain ⟨hc, ha⟩ := consistent_of_success hL hF hM hidx hsn hargs hr hs
  have hsnap := snapshot_of_appendArgs hargs
  rw [← Raft.ackOk_congr (Raft.catchUp_log follower args.term)
    (Raft.catchUp_snapshot follower args.term)]
  refine ⟨fun hrep => ?_, fun hack => hc.replicated hL hsnap hack ha⟩
  by_contra hack
  exact hc.not_replicated hL hsnap (Bool.eq_false_of_not_eq_true hack) ha hrep

end Conclusion

/-- A follower that lags behind the leader's snapshot and gets what it lacks. -/
theorem success_replicated_lagging :
    ∃ (args : AppendEntriesArgs 3 Nat) (rf' : Raft 3 Nat) (reply : AppendEntriesReply)
      (spawn : Bool), (holding 4 3).appendArgs 0 2 4 1 3 = some args ∧
      args.prevLogIndex + 1 < args.logSnapshot.index ∧
      (holding 1 0).appendEntries args 0 = some (rf', reply, spawn) ∧ reply.success = true ∧
      Replicated (holding 4 3) rf' 4 := by
  have hL : (holding 4 3).Holds (commands 4) := holding_holds (by decide)
  have hF : (holding 1 0).Holds (commands 1) := holding_holds (by decide)
  have hM : LogMatching (commands 4) (commands 1) :=
    logMatching_of_begins (commands_begins (by decide))
  have hargs : (holding 4 3).appendArgs 0 2 4 1 3 =
      some ⟨1, 0, 1, 1, [⟨3, 1, some 13⟩, ⟨4, 1, some 14⟩], 3, ⟨3, 1, []⟩⟩ := rfl
  exact ⟨_, _, _, _, hargs, by decide, rfl, rfl,
    (success_replicated_iff hL hF hM (by decide) (by decide) hargs rfl rfl).mpr (by decide)⟩

/-- **An acknowledgement of entries that are missing.** The leader's snapshot covers the commands 1
    to 3, which both servers hold, and its log holds number 4. With `nextIndex` 2 the request says
    `PrevLogIndex` 1 and carries the entries 3 and 4. The follower compares them with its entries
    2 and 3, which are of the same term, keeps its log and answers `Success = true`. -/
theorem acknowledged_and_missing :
    ∃ (leader follower rf' : Raft 3 Nat) (L F : List (LogEntry Nat)) (next index : Nat)
      (args : AppendEntriesArgs 3 Nat) (reply : AppendEntriesReply) (spawn : Bool),
      leader.Holds L ∧ follower.Holds F ∧ LogMatching L F ∧
      (leader.snapshot.index ≤ leader.commitIndex ∧ L.take (leader.snapshot.index + 1) <+: F) ∧
      index ≤ leader.getLastLogUnLock.index ∧ leader.snapshot.index ≤ index ∧ next ≤ index + 1 ∧
      leader.appendArgs 0 next index leader.currentTerm leader.commitIndex = some args ∧
      follower.appendEntries args 0 = some (rf', reply, spawn) ∧ reply.success = true ∧
      rf'.getLastLogUnLock.index < index := by
  refine ⟨holding 4 3, holding 3 0, _, commands 4, commands 3, 2, 4, _, _, _,
    holding_holds (by decide), holding_holds (by decide),
    logMatching_of_begins (commands_begins (by decide)), ⟨by decide, by decide⟩, by decide,
    by decide, by decide, rfl, rfl, rfl, by decide⟩

end Mit6824
