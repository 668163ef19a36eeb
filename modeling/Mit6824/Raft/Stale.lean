/-
  File:      Mit6824/Raft/Stale.lean
  Subject:   OLD, REPEATED AND REORDERED MESSAGES (raft.go lines 92-124, 368-445).

  A message of `AppendEntries` is a slice of the sender's log `L`. It may be late, come twice or
  after a longer one; the receiver may meanwhile have cut its log at a snapshot.

  * `CutOut L next last args` -- the message with the entries `next .. last` of `L`;
  * `Raft.Matches rf L` -- the log of `rf` matches `L` above its snapshot, which is one of `L`;
  * `Raft.agreement rf L` -- the last index up to which the log of `rf` is `L`;
  * `Aligned.acceptEntries_adopts` -- the handler is `Adopts` of the library, above the snapshot;
  * `stale_messages_harmless` -- **no message of `L` removes an entry that agrees with `L`**.
-/
import Mit6824.Raft.Acknowledge
import Mit6824.Raft.Backup
import Mit6824.Raft.Durable

namespace Mit6824

open Lib

variable {n : Nat} {C : Type}

/-! ## 1. The message and the receiver -/

/-- **A message cut out of the log `L`**: `PrevLogIndex` is `next - 1`, the entries are those from
    `next` to `last`, none if there are none. -/
structure CutOut (L : List (LogEntry C)) (next last : Nat) (args : AppendEntriesArgs n C) : Prop where
  next_le : next ≤ L.length
  last_lt : last < L.length
  prev : args.prevLogIndex = (next : Int) - 1
  prev_term : 0 < next → ∀ y, L[next - 1]? = some y → args.prevLogTerm = y.term
  entries : args.entries = (L.take (last + 1)).drop next

/-- **The log matches `L` above the snapshot, and the snapshot is one of `L`.** -/
structure Raft.Matches (rf : Raft n C) (L : List (LogEntry C)) : Prop where
  aligned : rf.Aligned
  headed : rf.Headed
  matching : LogMatching (L.drop (rf.snapshot.index + 1)) rf.log.tail
  snap : ∀ y, L[rf.snapshot.index]? = some y → rf.snapshot.term = y.term

/-- **The last index up to which the log is `L`**; what the snapshot covers counts as the same. -/
def Raft.agreement [DecidableEq C] (rf : Raft n C) (L : List (LogEntry C)) : Nat :=
  rf.snapshot.index + commonLength rf.log.tail (L.drop (rf.snapshot.index + 1))

namespace Raft

variable {rf rf' : Raft n C} {L F : List (LogEntry C)}

theorem Matches.congr (h : rf.Matches L) (hl : rf'.log = rf.log) (hs : rf'.snapshot = rf.snapshot) :
    rf'.Matches L :=
  ⟨h.aligned.congr hl hs, h.headed.congr hl hs, by rw [hl, hs]; exact h.matching,
    by rw [hs]; exact h.snap⟩

/-- A server whose whole log matches `L`. -/
theorem Holds.matches_of (h : rf.Holds F) (hm : LogMatching L F)
    (hs : ∀ y, L[rf.snapshot.index]? = some y → rf.snapshot.term = y.term) : rf.Matches L := by
  obtain ⟨x, y, hy, hxy, hl⟩ := h.cut.head
  refine ⟨h.aligned, fun e he => ?_, ?_, hs⟩
  · rw [hl, List.getElem?_cons_zero, Option.some.injEq] at he
    rw [← he, hxy.2.1, h.snap y hy]
  · intro i a b ha hb ht
    rw [hl, List.tail_cons, List.getElem?_drop] at hb
    rw [List.getElem?_drop] at ha
    have heq := congrArg (List.drop (rf.snapshot.index + 1)) (hm _ a b ha hb ht)
    rw [List.drop_take, List.drop_take] at heq
    rw [hl, List.tail_cons]
    rwa [show rf.snapshot.index + 1 + i + 1 - (rf.snapshot.index + 1) = i + 1 by omega] at heq

theorem agreement_congr [DecidableEq C] (hl : rf'.log = rf.log) (hs : rf'.snapshot = rf.snapshot) :
    rf'.agreement L = rf.agreement L := by
  unfold agreement
  rw [hl, hs]

/-- Above the snapshot, what is read is the log without its first element. -/
theorem getLogByIndexUnLock_tail (rf : Raft n C) {k : Nat} (h : rf.snapshot.index < k) :
    rf.getLogByIndexUnLock k = rf.log.tail[k - (rf.snapshot.index + 1)]? := by
  rw [rf.getLogByIndexUnLock_of_le (Nat.le_of_lt h), List.getElem?_tail,
    show k - (rf.snapshot.index + 1) + 1 = k - rf.snapshot.index by omega]

/-- Up to there the entries are those of `L`. -/
theorem get_of_le_agreement [DecidableEq C] {k : Nat} (hk : rf.snapshot.index < k)
    (h : k ≤ rf.agreement L) : ∃ e, rf.getLogByIndexUnLock k = some e ∧ L[k]? = some e := by
  unfold agreement at h
  have hlt : k - (rf.snapshot.index + 1) <
      commonLength rf.log.tail (L.drop (rf.snapshot.index + 1)) := by omega
  obtain ⟨e, he, he'⟩ := get_of_lt_commonLength hlt
  rw [List.getElem?_drop, show rf.snapshot.index + 1 + (k - (rf.snapshot.index + 1)) = k by omega]
    at he'
  exact ⟨e, by rw [rf.getLogByIndexUnLock_tail hk, he], he'⟩

/-- An entry with the term `L` has there lies within the agreement. -/
theorem Matches.le_agreement [DecidableEq C] (h : rf.Matches L) {k : Nat} {x y : LogEntry C}
    (hk : rf.snapshot.index < k) (hx : rf.getLogByIndexUnLock k = some x) (hy : L[k]? = some y)
    (ht : x.term = y.term) : k ≤ rf.agreement L := by
  rw [rf.getLogByIndexUnLock_tail hk] at hx
  have hy' : (L.drop (rf.snapshot.index + 1))[k - (rf.snapshot.index + 1)]? = some y := by
    rw [List.getElem?_drop, show rf.snapshot.index + 1 + (k - (rf.snapshot.index + 1)) = k by omega]
    exact hy
  have hM : Matching LogEntry.term (L.drop (rf.snapshot.index + 1)) rf.log.tail := h.matching
  have hlt := hM.lt_commonLength hy' hx ht.symm
  unfold agreement
  omega

end Raft

/-! ## 2. The handler -/

namespace CutOut

variable {L : List (LogEntry C)} {next last : Nat} {args : AppendEntriesArgs n C}

theorem request (h : CutOut L next last args) (hL : From 0 L) : Raft.Request args := by
  refine ⟨next, ?_, Or.inr (Or.inl ?_)⟩
  · rw [h.entries]
    have := (hL.take (last + 1)).drop next
    rwa [Nat.zero_add] at this
  · rw [h.prev]
    omega

/-- **What is left of the message at a receiver with a snapshot**: the slice above it. -/
theorem trimArgs (h : CutOut L next last args) (hL : From 0 L) (rf : Raft n C) :
    (rf.trimArgs args).1 = max (next - 1) rf.snapshot.index ∧
    (rf.trimArgs args).2.2 = (L.take (last + 1)).drop ((rf.trimArgs args).1 + 1) ∧
    ((rf.trimArgs args).1 = rf.snapshot.index ∨
      ∀ y, L[(rf.trimArgs args).1]? = some y → (rf.trimArgs args).2.1 = y.term) := by
  have hprev := h.prev
  unfold Raft.trimArgs
  split
  · rename_i hlt
    refine ⟨by dsimp only; omega, ?_, Or.inl rfl⟩
    have hrun := (hL.take (last + 1)).drop next
    dsimp only
    rw [h.entries, hrun.dropWhile_le, List.drop_drop,
      show next + (rf.snapshot.index + 1 - (0 + next)) = rf.snapshot.index + 1 by omega]
  · rename_i hge
    have hnext : args.prevLogIndex.toNat + 1 = next := by omega
    refine ⟨by dsimp only; omega, by dsimp only; rw [hnext, h.entries], Or.inr fun y hy => ?_⟩
    exact h.prev_term (by omega) y (by rwa [← hnext])

end CutOut

namespace Raft

variable {rf rf' : Raft n C} {L : List (LogEntry C)}

/-- A slice of `L` above `prev`, seen from the snapshot. -/
theorem slice_above (L : List (LogEntry C)) {s prev : Nat} (h : s ≤ prev) (last : Nat) :
    (L.take (last + 1)).drop (prev + 1) =
      ((L.drop (s + 1)).take (last - s)).drop (prev - s) := by
  rw [List.drop_take, List.drop_take, List.drop_drop,
    show s + 1 + (prev - s) = prev + 1 by omega,
    show last - s - (prev - s) = last + 1 - (prev + 1) by omega]

/-- The match loop asks whether the slice is there already. -/
theorem Aligned.isMatch_sameTerms (h : rf.Aligned) {prev last : Nat} (hs : rf.snapshot.index ≤ prev)
    {b : Bool} (hb : rf.isMatch (prev + 1) ((L.take (last + 1)).drop (prev + 1)) = some b) :
    b = true ↔ SameTerms LogEntry.term (L.drop (rf.snapshot.index + 1)) rf.log.tail
      (prev - rf.snapshot.index) (last - rf.snapshot.index) := by
  rw [h.isMatch_iff _ (by omega) hb]
  constructor
  · intro hall k e hk hk' he
    rw [List.getElem?_drop] at he
    obtain ⟨y, hy, ht⟩ := hall (k - (prev - rf.snapshot.index)) e (by
      rw [List.getElem?_drop, List.getElem?_take_of_lt (by omega),
        show prev + 1 + (k - (prev - rf.snapshot.index)) = rf.snapshot.index + 1 + k by omega, he])
    refine ⟨y, ?_, ht⟩
    rw [List.getElem?_tail, ← hy]
    congr 1
    omega
  · intro hall k e he
    have hlt : prev + 1 + k < last + 1 := by
      have := (List.getElem?_eq_some_iff.mp he).1
      rw [List.length_drop, List.length_take] at this
      omega
    rw [List.getElem?_drop, List.getElem?_take_of_lt hlt] at he
    obtain ⟨y, hy, ht⟩ := hall (prev - rf.snapshot.index + k) e (by omega) (by omega) (by
      rw [List.getElem?_drop,
        show rf.snapshot.index + 1 + (prev - rf.snapshot.index + k) = prev + 1 + k by omega, he])
    refine ⟨y, ?_, ht⟩
    rw [List.getElem?_tail] at hy
    rw [← hy]
    congr 1
    omega

/-- **An accepted message**: above the snapshot the log takes over the slice, and it keeps its first
    element. -/
theorem Aligned.acceptEntries_adopts (h : rf.Aligned) {args : AppendEntriesArgs n C}
    (hsn : args.logSnapshot.index ≤ rf.snapshot.index) {prev last grow : Nat}
    (hs : rf.snapshot.index ≤ prev) (hp : prev ≤ rf.getLastLogUnLock.index)
    (ha : rf.acceptEntries args prev ((L.take (last + 1)).drop (prev + 1)) grow = some rf') :
    Adopts LogEntry.term (L.drop (rf.snapshot.index + 1)) rf.log.tail (prev - rf.snapshot.index)
        (last - rf.snapshot.index) rf'.log.tail ∧
      rf'.log.head? = rf.log.head? ∧ rf'.snapshot = rf.snapshot ∧
      rf'.commitIndex = if rf.commitIndex < args.leaderCommit then
        min args.leaderCommit (prev + ((L.take (last + 1)).drop (prev + 1)).length)
      else rf.commitIndex := by
  -- the message brings no snapshot
  have hkeep : ∀ m log spare, (rf.written m log spare args.leaderCommit
      (prev + ((L.take (last + 1)).drop (prev + 1)).length)).updateSnapshotUnLock args.logSnapshot
        grow = rf.written m log spare args.leaderCommit
          (prev + ((L.take (last + 1)).drop (prev + 1)).length) := by
    intro m log spare
    unfold updateSnapshotUnLock
    rw [if_neg (by rw [written_snapshot]; omega)]
  obtain ⟨m, hm⟩ := h.isMatch ((L.take (last + 1)).drop (prev + 1)) (prev + 1)
  have hsame := h.isMatch_sameTerms hs hm
  cases m with
  | true =>
      rw [acceptEntries_match hm grow, hkeep, Option.some.injEq] at ha
      subst ha
      rw [persist_log, persist_snapshot, persist_commitIndex, written_log, written_snapshot,
        written_commitIndex]
      exact ⟨Or.inl ⟨hsame.mp rfl, rfl⟩, rfl, rfl, rfl⟩
  | false =>
      obtain ⟨mem, spare, hc⟩ := h.copyEntries hs hp ((L.take (last + 1)).drop (prev + 1)) grow
      rw [acceptEntries_copy hm hc, hkeep, Option.some.injEq] at ha
      subst ha
      rw [persist_log, persist_snapshot, persist_commitIndex, written_log, written_snapshot,
        written_commitIndex]
      obtain ⟨x, xs, hl⟩ := List.exists_cons_of_ne_nil h.ne
      refine ⟨Or.inr ⟨fun hyes => absurd (hsame.mpr hyes) Bool.false_ne_true, ?_⟩, ?_, rfl, rfl⟩
      · rw [hl, ← slice_above L hs last,
          show prev + 1 - rf.snapshot.index = (prev - rf.snapshot.index) + 1 by omega,
          List.take_succ_cons, List.cons_append, List.tail_cons, List.tail_cons]
      · rw [hl, show prev + 1 - rf.snapshot.index = (prev - rf.snapshot.index) + 1 by omega,
          List.take_succ_cons, List.cons_append, List.head?_cons, List.head?_cons]

/-- The entry before the message is found to be consistent: the logs are the same up to it. -/
theorem Matches.prev_le_agreement [DecidableEq C] (h : rf.Matches L) {next last : Nat}
    {args : AppendEntriesArgs n C} (hargs : CutOut L next last args) (hL : From 0 L)
    (hc : rf.prevConsistent (rf.trimArgs args).1 (rf.trimArgs args).2.1 = some true) :
    (rf.trimArgs args).1 ≤ rf.getLastLogUnLock.index ∧ (rf.trimArgs args).1 ≤ rf.agreement L := by
  obtain ⟨hmax, _, hterm⟩ := hargs.trimArgs hL rf
  have hnext := hargs.next_le
  have hlast := hargs.last_lt
  rw [h.aligned.prevConsistent_iff, Option.some.injEq, decide_eq_true_eq] at hc
  refine ⟨hc.1, ?_⟩
  rcases hterm with heq | hterm
  · rw [heq]
    exact Nat.le_add_right _ _
  · rcases Nat.lt_or_ge rf.snapshot.index (rf.trimArgs args).1 with hlt | hge
    · obtain ⟨x, hx, hxt⟩ := h.aligned.read (Int.ofNat_le.mpr hc.1)
      obtain ⟨y, hy⟩ : ∃ y, L[(rf.trimArgs args).1]? = some y :=
        ⟨_, List.getElem?_eq_getElem (by omega)⟩
      exact h.le_agreement hlt hx hy (by rw [hxt, hc.2, hterm y hy])
    · exact Nat.le_trans hge (Nat.le_add_right _ _)

/-- **An accepted message**: the logs still match, agree on what they agreed on and on the slice,
    and `commitIndex` goes no further than that. -/
theorem Matches.accept [DecidableEq C] (h : rf.Matches L) {next last grow : Nat}
    {args : AppendEntriesArgs n C} (hargs : CutOut L next last args) (hL : From 0 L)
    (hsn : args.logSnapshot.index ≤ rf.snapshot.index)
    (hc : rf.prevConsistent (rf.trimArgs args).1 (rf.trimArgs args).2.1 = some true)
    (ha : rf.acceptEntries args (rf.trimArgs args).1 (rf.trimArgs args).2.2 grow = some rf')
    (hal : rf'.Aligned) :
    rf'.Matches L ∧ rf'.snapshot = rf.snapshot ∧ rf'.log.head? = rf.log.head? ∧
      rf.agreement L ≤ rf'.agreement L ∧ max (next - 1) last ≤ rf'.agreement L ∧
      (rf.commitIndex < rf'.commitIndex → rf'.commitIndex ≤ rf'.agreement L) := by
  obtain ⟨hmax, hes, _⟩ := hargs.trimArgs hL rf
  obtain ⟨hp, hq⟩ := h.prev_le_agreement hargs hL hc
  have hM : Matching LogEntry.term (L.drop (rf.snapshot.index + 1)) rf.log.tail := h.matching
  have hlast := hargs.last_lt
  rw [hes] at ha
  obtain ⟨had, hhead, hsnap, hci⟩ := h.aligned.acceptEntries_adopts hsn (by omega) hp ha
  unfold agreement at hq ⊢
  rw [hsnap]
  have hq' : (rf.trimArgs args).1 - rf.snapshot.index ≤
      commonLength rf.log.tail (L.drop (rf.snapshot.index + 1)) := by omega
  have hm : last - rf.snapshot.index ≤ (L.drop (rf.snapshot.index + 1)).length := by
    rw [List.length_drop]
    omega
  have hkept := had.commonLength_le hM hq' hm
  have hslice := had.le_commonLength hM hq' hm
  refine ⟨⟨hal, ?_, by rw [hsnap]; exact had.matching hM hq' hm, by rw [hsnap]; exact h.snap⟩, rfl,
    hhead, by omega, by omega, fun hlt => ?_⟩
  · intro e he
    rw [hsnap]
    rw [← List.head?_eq_getElem?, hhead, List.head?_eq_getElem?] at he
    exact h.headed e he
  · rw [hci, List.length_drop, List.length_take] at hlt ⊢
    split at hlt
    · rename_i hraise
      rw [if_pos hraise]
      omega
    · omega

/-- What one message leaves behind. -/
structure Tolerated [DecidableEq C] (L : List (LogEntry C)) (next last : Nat) (rf rf' : Raft n C)
    (reply : AppendEntriesReply) : Prop where
  kept : rf.agreement L ≤ rf'.agreement L
  accepted : reply.success = true → max (next - 1) last ≤ rf'.agreement L
  refused : reply.success = false →
    rf'.log = rf.log ∧ rf'.commitIndex = rf.commitIndex ∧ rf'.snapshot = rf.snapshot
  commit : rf.commitIndex < rf'.commitIndex → rf'.log.head? = rf.log.head? ∧
    ∀ k, rf'.snapshot.index < k → k ≤ rf'.commitIndex →
      ∃ e, rf'.getLogByIndexUnLock k = some e ∧ L[k]? = some e

/-- **One message.** -/
theorem Matches.appendEntries [DecidableEq C] (h : rf.Matches L) {next last : Nat}
    {args : AppendEntriesArgs n C} (hargs : CutOut L next last args) (hL : From 0 L)
    (hsn : args.logSnapshot.index ≤ rf.snapshot.index) (grow : Nat) :
    ∃ rf' reply spawn, rf.appendEntries args grow = some (rf', reply, spawn) ∧
      Tolerated L next last rf rf' reply ∧ rf'.Matches L ∧ rf'.snapshot = rf.snapshot := by
  obtain ⟨rf', reply, spawn, hr, hal⟩ := appendEntries_aligned h.aligned (hargs.request hL) grow
  have hl : (rf.catchUp args.term).log = rf.log := catchUp_log _ _
  have hs : (rf.catchUp args.term).snapshot = rf.snapshot := catchUp_snapshot _ _
  have hc : (rf.catchUp args.term).commitIndex = rf.commitIndex := catchUp_commitIndex _ _
  refine ⟨rf', reply, spawn, hr, ?_⟩
  rcases appendEntries_cases hr with ⟨_, rfl, rfl, _⟩ | ⟨_, hcon, ha, rfl, _⟩ | ⟨_, _, rfl, _, _, hf, _⟩
  · exact ⟨⟨Nat.le_refl _, fun h => absurd h Bool.false_ne_true, fun _ => ⟨rfl, rfl, rfl⟩,
      fun h => absurd h (Nat.lt_irrefl _)⟩, h, rfl⟩
  · obtain ⟨hm, hsnap, hhead, hkept, hslice, hci⟩ :=
      (h.congr hl hs).accept hargs hL (by rw [hs]; exact hsn) hcon ha hal
    rw [hs] at hsnap
    rw [hl] at hhead
    rw [agreement_congr hl hs] at hkept
    rw [hc] at hci
    exact ⟨⟨hkept, fun _ => hslice, fun h => absurd h.symm Bool.false_ne_true,
      fun hlt => ⟨hhead, fun k hk hk' => get_of_le_agreement hk (Nat.le_trans hk' (hci hlt))⟩⟩,
      hm, hsnap⟩
  · refine ⟨⟨(agreement_congr hl hs).ge, fun h => ?_, fun _ => ⟨hl, hc, hs⟩, fun h => ?_⟩,
      h.congr hl hs, hs⟩
    · rw [hf] at h
      cases h
    · omega

end Raft

/-! ## 3. Any sequence of messages -/

/-- **Messages of `L`, in any order and any number**: the handler returns every time, and an entry
    that agrees with `L` stays. -/
theorem Raft.Matches.messages [DecidableEq C] {L : List (LogEntry C)} (hL : From 0 L) (me : Fin n)
    (msgs : List (AppendEntriesArgs n C × Nat)) : ∀ {rf : Raft n C}, rf.Matches L →
      (∀ m ∈ msgs, (∃ next last, CutOut L next last m.1) ∧
        m.1.logSnapshot.index ≤ rf.snapshot.index) →
      ∃ rf', exec (Raft.step me) (fun _ _ => true) rf (msgs.map fun m => .appendEntries m.1 m.2) =
          some rf' ∧ rf'.Matches L ∧ rf'.snapshot = rf.snapshot ∧
        rf.agreement L ≤ rf'.agreement L := by
  induction msgs with
  | nil => exact fun h _ => ⟨_, rfl, h, rfl, Nat.le_refl _⟩
  | cons m msgs ih =>
      intro rf h hmsgs
      obtain ⟨⟨next, last, hcut⟩, hsn⟩ := hmsgs m List.mem_cons_self
      obtain ⟨rf₁, reply, spawn, hr, htol, hm, hs⟩ := h.appendEntries hcut hL hsn m.2
      obtain ⟨rf', he, hm', hs', hle⟩ := ih hm fun m' hm' => by
        rw [hs]
        exact hmsgs m' (List.mem_cons_of_mem m hm')
      refine ⟨rf', ?_, hm', hs'.trans hs, Nat.le_trans htol.kept hle⟩
      rw [List.map_cons, exec, if_pos rfl, Raft.step, hr]
      exact he

/-- **AppendEntries tolerates stale, repeated and reordered messages.** For every log `L` and every
    server whose log matches it above a snapshot of `L`: no message cut out of `L` makes the server
    agree with `L` on less; an accepted one makes it agree up to the end of the message, a refused one
    changes neither log nor `commitIndex` nor snapshot, and a `commitIndex` that is raised covers only
    entries of `L`. So no sequence of such messages removes an entry that agrees with `L`. -/
theorem stale_messages_harmless [DecidableEq C] {L : List (LogEntry C)} (hL : From 0 L)
    {rf : Raft n C} (h : rf.Matches L) :
    (∀ (args : AppendEntriesArgs n C) (next last grow : Nat), CutOut L next last args →
      args.logSnapshot.index ≤ rf.snapshot.index →
      ∃ rf' reply spawn, rf.appendEntries args grow = some (rf', reply, spawn) ∧
        Raft.Tolerated L next last rf rf' reply) ∧
    ∀ (me : Fin n) (msgs : List (AppendEntriesArgs n C × Nat)),
      (∀ m ∈ msgs, (∃ next last, CutOut L next last m.1) ∧
        m.1.logSnapshot.index ≤ rf.snapshot.index) →
      ∃ rf', exec (Raft.step me) (fun _ _ => true) rf (msgs.map fun m => .appendEntries m.1 m.2) =
          some rf' ∧ rf.agreement L ≤ rf'.agreement L ∧
        ∀ k e, rf.snapshot.index < k → rf.getLogByIndexUnLock k = some e → L[k]? = some e →
          rf'.getLogByIndexUnLock k = some e := by
  refine ⟨fun args next last grow hcut hsn => ?_, fun me msgs hmsgs => ?_⟩
  · obtain ⟨rf', reply, spawn, hr, htol, _⟩ := h.appendEntries hcut hL hsn grow
    exact ⟨rf', reply, spawn, hr, htol⟩
  · obtain ⟨rf', he, _, hs, hle⟩ := h.messages hL me msgs hmsgs
    refine ⟨rf', he, hle, fun k e hk hg hLk => ?_⟩
    have hka := h.le_agreement hk hg hLk rfl
    obtain ⟨x, hx, hx'⟩ := Raft.get_of_le_agreement (hs ▸ hk) (Nat.le_trans hka hle)
    rw [hLk, Option.some.injEq] at hx'
    rw [hx, hx']

/-- What a leader with the whole log `L` sends to a peer whose `nextIndex` lies above its snapshot. -/
theorem Excerpt.cutOut {L : List (LogEntry C)} {last next : Nat} {args : AppendEntriesArgs n C}
    (h : Excerpt L last next args) (hn : args.logSnapshot.index < next) : CutOut L next last args where
  next_le := h.prev_le
  last_lt := h.idx_lt
  prev := h.prev
  prev_term := fun _ y hy => h.prev_term y (by
    rwa [show max (next - 1) args.logSnapshot.index = next - 1 by omega])
  entries := by
    rcases h.entries with ⟨hle, _⟩ | ⟨_, he⟩
    · omega
    · exact he

/-- **The requests of a leader are such messages**: however late one of them is, it does no harm to a
    server that has come further. -/
theorem late_request_harmless [DecidableEq C] {leader rf : Raft n C} {L : List (LogEntry C)}
    (hL : leader.Holds L) (h : rf.Matches L) {me : Fin n} {next index t ci : Nat}
    {args : AppendEntriesArgs n C} (hargs : leader.appendArgs me next index t ci = some args)
    (hi : index < L.length) (hs : leader.snapshot.index ≤ index) (hn : leader.snapshot.index < next)
    (hle : leader.snapshot.index ≤ rf.snapshot.index) (grow : Nat) :
    ∃ rf' reply spawn, rf.appendEntries args grow = some (rf', reply, spawn) ∧
      Raft.Tolerated L next index rf rf' reply := by
  obtain ⟨_, _, _, _, rfl⟩ := Raft.appendArgs_inv hargs
  obtain ⟨rf', reply, spawn, hr, htol, _⟩ :=
    h.appendEntries ((excerpt_appendArgs hL hargs hi hs).cutOut hn) hL.cut.run hle grow
  exact ⟨rf', reply, spawn, hr, htol⟩

/-- The entries `next .. last` of a log with these terms, sent in term `t`. -/
def sliceOf (terms : List Nat) (t next last : Nat) : AppendEntriesArgs 3 Nat where
  term := t
  leaderId := 0
  prevLogIndex := (next : Int) - 1
  prevLogTerm := terms.getD (next - 1) 0
  entries := ((logOf terms).take (last + 1)).drop next
  leaderCommit := last
  logSnapshot := ⟨0, 0, []⟩

theorem sliceOf_cutOut {terms : List Nat} {next last : Nat} (hn : next ≤ terms.length)
    (hl : last < terms.length) (t : Nat) :
    CutOut (logOf terms) next last (sliceOf terms t next last) := by
  have hlen := length_logOf terms
  exact ⟨hlen.symm ▸ hn, hlen.symm ▸ hl, rfl, fun _ y hy => (get_logOf hy).2.symm, rfl⟩

/-- A long message, and after it a short one from below the receiver's snapshot, twice. -/
theorem stale_messages_harmless_thrice : ∃ rf' : Raft 3 Nat,
    exec (Raft.step 1) (fun _ _ => true) (serverOf [0, 1, 1, 2] 1 2 .follower 0)
      [.appendEntries (sliceOf [0, 1, 1, 2, 2, 2] 2 3 5) 0,
        .appendEntries (sliceOf [0, 1, 1, 2, 2, 2] 2 1 2) 0,
        .appendEntries (sliceOf [0, 1, 1, 2, 2, 2] 2 1 2) 0] = some rf' ∧
    3 ≤ rf'.agreement (logOf [0, 1, 1, 2, 2, 2]) := by
  have hh : (serverOf [0, 1, 1, 2] 1 2 .follower 0).Holds (logOf [0, 1, 1, 2]) :=
    serverOf_holds (by decide) _ _ _
  have hm : (serverOf [0, 1, 1, 2] 1 2 .follower 0).Matches (logOf [0, 1, 1, 2, 2, 2]) :=
    hh.matches_of (logMatching_of_begins (by decide)) fun y hy => (get_logOf hy).2.symm
  obtain ⟨_, hseq⟩ := stale_messages_harmless (from_logOf _) hm
  obtain ⟨rf', he, hle, _⟩ := hseq 1 [(sliceOf [0, 1, 1, 2, 2, 2] 2 3 5, 0),
    (sliceOf [0, 1, 1, 2, 2, 2] 2 1 2, 0), (sliceOf [0, 1, 1, 2, 2, 2] 2 1 2, 0)] (by
      intro m hm
      simp only [List.mem_cons, List.not_mem_nil, or_false] at hm
      rcases hm with rfl | rfl | rfl
      · exact ⟨⟨3, 5, sliceOf_cutOut (by decide) (by decide) 2⟩, by decide⟩
      · exact ⟨⟨1, 2, sliceOf_cutOut (by decide) (by decide) 2⟩, by decide⟩
      · exact ⟨⟨1, 2, sliceOf_cutOut (by decide) (by decide) 2⟩, by decide⟩)
  exact ⟨rf', he, Nat.le_trans (by decide) hle⟩

end Mit6824
