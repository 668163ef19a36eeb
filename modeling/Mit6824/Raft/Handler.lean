/-
  File:      Mit6824/Raft/Handler.lean
  Subject:   THE APPENDENTRIES REQUEST AND ITS HANDLER ON THE BOARD (raft.go lines 348-445, 525-554).

  * `Carries a idx p args` -- what `args` says about the line of its term: the entry before `p`,
    the entries from `p` (or from the sender's snapshot) up to `idx`, a snapshot and a commit
    index that are settled;
  * `carries_appendArgs` -- what a leader builds does;
  * `Raft.gapOk` -- the condition on a request whose entries start above `PrevLogIndex + 1`, at the
    sender's snapshot: there the match loop compares entries with the wrong positions;
  * `Receives.mirrors` -- an accepted request is the move `accept`: afterwards the server holds the
    line up to `idx`, and loses nothing that it held beyond.
-/
import Mit6824.Raft.Mirror

namespace Mit6824

open Lib

variable {n : Nat} {C : Type}

/-! ## 1. The request -/

/-- **What a request says about the line of its term.** -/
structure Carries (a : Board (Fin n) (LogEntry C)) (idx p : Nat) (args : AppendEntriesArgs n C) :
    Prop where
  lead : a.lead args.term ≠ none
  idx_lt : idx < (a.line args.term).length
  snap_le : args.logSnapshot.index ≤ idx
  snap_term : ∀ y, (a.line args.term)[args.logSnapshot.index]? = some y →
    args.logSnapshot.term = y.term
  snap_settled : Board.Settled base a args.term
    ((a.line args.term).take (args.logSnapshot.index + 1))
  prev : args.prevLogIndex = (p : Int) - 1
  prev_le : p ≤ (a.line args.term).length
  prev_term : ∀ y, (a.line args.term)[max (p - 1) args.logSnapshot.index]? = some y →
    args.prevLogTerm = y.term
  entries : (p ≤ args.logSnapshot.index ∧
      CutAt args.logSnapshot.index args.entries ((a.line args.term).take (idx + 1))) ∨
    (args.logSnapshot.index < p ∧ args.entries = ((a.line args.term).take (idx + 1)).drop p)
  commit : ∃ P, P.length = args.leaderCommit + 1 ∧ Board.Settled base a args.term P

/-- A request stays right: lines only grow. -/
theorem Carries.grow {a a' : Board (Fin n) (LogEntry C)} {idx p : Nat}
    {args : AppendEntriesArgs n C} (h : Carries a idx p args) (hle : a ≤ a') :
    Carries a' idx p args := by
  have hline := hle.line args.term
  have hlen := hline.length_le
  have hidx := h.idx_lt
  have hsn := h.snap_le
  have hprev := h.prev_le
  have htake : ∀ k, k ≤ (a.line args.term).length →
      (a'.line args.term).take k = (a.line args.term).take k :=
    fun k hk => (take_of_begins hline hk).symm
  have hget : ∀ k y, k < (a.line args.term).length → (a'.line args.term)[k]? = some y →
      (a.line args.term)[k]? = some y := by
    intro k y hk hy
    have h1 := get_of_begins hline (List.getElem?_eq_getElem hk)
    rw [hy] at h1
    rw [List.getElem?_eq_getElem hk]
    exact h1.symm
  exact {
    lead := by
      obtain ⟨c, hc⟩ := Option.ne_none_iff_exists'.mp h.lead
      rw [(hle.lead _ c hc).1]
      exact Option.some_ne_none c
    idx_lt := by omega
    snap_le := hsn
    snap_term := fun y hy => h.snap_term y (hget _ y (by omega) hy)
    snap_settled := by rw [htake _ (by omega)]; exact h.snap_settled.grow hle
    prev := h.prev
    prev_le := by omega
    prev_term := fun y hy => h.prev_term y (hget _ y (by omega) hy)
    entries := by rw [htake _ (by omega)]; exact h.entries
    commit := by
      obtain ⟨P, hP, hs⟩ := h.commit
      exact ⟨P, hP, hs.grow hle⟩ }

/-- **What a leader sends**: its log is the line of its term. -/
theorem carries_appendArgs {a : Board (Fin n) (LogEntry C)} (hI : Good a) {v : Fin n}
    {rf : Raft n C} (hm : Mirrors a v rf) {next idx t ci : Nat} {args : AppendEntriesArgs n C}
    (hargs : rf.appendArgs v next idx t ci = some args) (ht : rf.currentTerm = t)
    (hl : a.lead t = some v) (hidx : idx < (a.line t).length) (hsn : rf.snapshot.index ≤ idx)
    (hci : ∃ P, P.length = ci + 1 ∧ Board.Settled base a t P) : Carries a idx next args := by
  have hterm : a.term v = t := hm.term.trans ht
  have hH := hm.holds
  have hset := hm.snap.2
  rw [hI.lead_log t v hl hterm] at hH hset
  rw [hterm] at hset
  have hex := excerpt_appendArgs hH hargs hidx hsn
  obtain ⟨_, _, _, _, rfl⟩ := Raft.appendArgs_inv hargs
  exact {
    lead := by rw [hl]; exact Option.some_ne_none v
    idx_lt := hidx
    snap_le := hsn
    snap_term := hex.snap_term
    snap_settled := hset
    prev := hex.prev
    prev_le := hex.prev_le
    prev_term := hex.prev_term
    entries := hex.entries
    commit := hci }

/-- It is taken from the line of its term. -/
theorem Carries.excerpt {a : Board (Fin n) (LogEntry C)} {idx p : Nat}
    {args : AppendEntriesArgs n C} (h : Carries a idx p args) :
    Excerpt (a.line args.term) idx p args :=
  ⟨h.idx_lt, h.snap_le, h.snap_term, h.prev, h.prev_le, h.prev_term, h.entries⟩

/-! ## 2. The condition on a gap -/

/-- Does the log hold an entry of the term of `e` where `e` belongs? -/
def Raft.holdsEntry (rf : Raft n C) (e : LogEntry C) : Bool :=
  (rf.getLogByIndexUnLock e.index).any fun x => decide (x.term = e.term)

theorem Raft.Holds.holdsEntry {rf : Raft n C} {F : List (LogEntry C)} (h : rf.Holds F)
    {e : LogEntry C} (hi : rf.snapshot.index < e.index) :
    rf.holdsEntry e = true ↔ ∃ y, F[e.index]? = some y ∧ y.term = e.term := by
  unfold Raft.holdsEntry
  rw [h.get_above hi, Option.any_eq_true]
  simp only [decide_eq_true_eq]

/-- **The condition on a request whose entries start at the sender's snapshot, above
    `PrevLogIndex + 1`**, after the cut of lines 370-380: if the loop of lines 388-394 says that
    the entries match, the log holds the last of them; if it says that they do not, then the log
    does not hold that entry with others behind it. -/
def Raft.gapOk (rf : Raft n C) (args : AppendEntriesArgs n C) : Bool :=
  match (rf.trimArgs args).2.2.getLast? with
  | none => true
  | some e =>
      decide ((rf.trimArgs args).1 + 1 < args.logSnapshot.index →
        if rf.isMatch ((rf.trimArgs args).1 + 1) (rf.trimArgs args).2.2 = some true then
          rf.holdsEntry e = true
        else rf.holdsEntry e = true → rf.getLastLogUnLock.index ≤ e.index)

/-- Without a snapshot there is no gap. -/
theorem Raft.gapOk_of_zero (rf : Raft n C) {args : AppendEntriesArgs n C}
    (h : args.logSnapshot.index = 0) : rf.gapOk args = true := by
  unfold Raft.gapOk
  split
  · rfl
  · rw [decide_eq_true_eq, h]
    omega

/-! ## 3. The handler -/

/-- A request that the server `v`, in the term of the request, finds consistent. -/
structure Receives (a : Board (Fin n) (LogEntry C)) (v : Fin n) (rf : Raft n C) (idx p : Nat)
    (args : AppendEntriesArgs n C) : Prop where
  good : Good a
  line : From 0 (a.line args.term)
  mirror : Mirrors a v rf
  term : rf.currentTerm = args.term
  carries : Carries a idx p args
  consistent : rf.prevConsistent (rf.trimArgs args).1 (rf.trimArgs args).2.1 = some true
  gap : rf.gapOk args = true

namespace Receives

variable {a : Board (Fin n) (LogEntry C)} {v : Fin n} {rf : Raft n C} {idx p : Nat}
  {args : AppendEntriesArgs n C}

theorem board_term (h : Receives a v rf idx p args) : a.term v = args.term :=
  h.mirror.term.trans h.term

theorem lead (h : Receives a v rf idx p args) : a.lead (a.term v) ≠ none := by
  rw [h.board_term]
  exact h.carries.lead

/-- **Up to the entry before, log and line are the same.** -/
theorem prev_agrees (h : Receives a v rf idx p args) :
    (rf.trimArgs args).1 < (a.log v).length ∧
      (a.log v).take ((rf.trimArgs args).1 + 1) =
        (a.line args.term).take ((rf.trimArgs args).1 + 1) := by
  obtain ⟨hs, _, hwho⟩ := h.carries.excerpt.trimArgs h.line rf
  have hcon := h.consistent
  have hlast := h.mirror.holds.last_index
  unfold Raft.prevConsistent at hcon
  split at hcon
  · rename_i hle
    have hlt : (rf.trimArgs args).1 < (a.log v).length := by omega
    refine ⟨hlt, ?_⟩
    suffices hb : (a.log v).take ((rf.trimArgs args).1 + 1) <+: a.line args.term from
      ((take_begins_iff hlt).mp hb).2
    obtain ⟨x, hx, hxt⟩ := Option.map_eq_some_iff.mp hcon
    rcases hwho with ⟨hsn, _⟩ | ⟨hp, hpt⟩
    · -- the cut at the own snapshot: what it covers is settled
      rw [hsn, ← h.board_term]
      exact h.good.settled_line h.mirror.snap.2 h.lead
    · -- the term of the request is that of an entry of the line at or beyond the position
      obtain ⟨y, hy, hst, _⟩ := h.mirror.holds.get hs hx
      have hidx := h.carries.idx_lt
      have hsl := h.carries.snap_le
      have hple := h.carries.prev_le
      obtain ⟨z, hz⟩ : ∃ z, (a.line args.term)[max (p - 1) args.logSnapshot.index]? = some z :=
        ⟨_, List.getElem?_eq_getElem (by omega)⟩
      have hyz : y.term = z.term := by
        rw [← hst.2.1, of_decide_eq_true hxt, hpt, h.carries.prev_term z hz]
      have h1 := h.good.agree_log v _ y hy
      have h2 := h.good.agree_line args.term _ z hz
      rw [← hyz] at h2
      refine (begins_of_begins h1 h2 ?_).trans <| List.take_prefix _ _
      rw [List.length_take, List.length_take]
      omega
  · cases hcon

/-- **The verdict of the match loop**, when it compares each entry with its own position. -/
theorem match_aligned (h : Receives a v rf idx p args) {m : Bool} {es : List (LogEntry C)}
    (hm : rf.isMatch ((rf.trimArgs args).1 + 1) es = some m)
    (hes : ∀ k, (es[k]?).map LogEntry.term =
      (((a.line args.term).take (idx + 1))[(rf.trimArgs args).1 + 1 + k]?).map LogEntry.term) :
    m = true ↔ (a.line args.term).take (idx + 1) <+: a.log v := by
  obtain ⟨hs, _⟩ := h.carries.excerpt.trimArgs h.line rf
  obtain ⟨hlt, hpre⟩ := h.prev_agrees
  have hidx := h.carries.idx_lt
  rw [h.mirror.holds.isMatch es (by omega) hm]
  constructor
  · intro hall
    rcases Nat.lt_or_ge (rf.trimArgs args).1 idx with hgt | hge
    · -- the last entry of the request decides for all before it
      obtain ⟨z, hz⟩ : ∃ z, (a.line args.term)[idx]? = some z := ⟨_, List.getElem?_eq_getElem hidx⟩
      have hk := hes (idx - ((rf.trimArgs args).1 + 1))
      rw [show (rf.trimArgs args).1 + 1 + (idx - ((rf.trimArgs args).1 + 1)) = idx by omega,
        List.getElem?_take_of_lt (by omega), hz, Option.map_some] at hk
      obtain ⟨e, he, het⟩ := Option.map_eq_some_iff.mp hk
      obtain ⟨y, hy, hyt⟩ := hall _ e he
      rw [show (rf.trimArgs args).1 + 1 + (idx - ((rf.trimArgs args).1 + 1)) = idx by omega] at hy
      rw [← (h.good.agree_log v).matching (h.good.agree_line args.term) hy hz (hyt.trans het)]
      exact List.take_prefix _ _
    · have hb : (a.line args.term).take (idx + 1) <+:
          (a.line args.term).take ((rf.trimArgs args).1 + 1) :=
        List.take_prefix_take_left (by omega)
      rw [← hpre] at hb
      exact hb.trans <| List.take_prefix _ _
  · intro hb k e he
    have hk := hes k
    rw [he, Option.map_some] at hk
    obtain ⟨y, hy, hyt⟩ := Option.map_eq_some_iff.mp hk.symm
    exact ⟨y, get_of_begins hb hy, hyt⟩

/-- **The verdict of the match loop.** A request that matches is held already; one that does not
    is not held with more entries behind it. Across a gap this is the condition `gapOk`. -/
theorem match_verdict (h : Receives a v rf idx p args) {m : Bool}
    (hm : rf.isMatch ((rf.trimArgs args).1 + 1) (rf.trimArgs args).2.2 = some m) :
    (m = true → (a.line args.term).take (idx + 1) <+: a.log v) ∧
    (m = false → (a.line args.term).take (idx + 1) <+: a.log v →
      (a.log v).length ≤ idx + 1) := by
  obtain ⟨hs, hcase, _⟩ := h.carries.excerpt.trimArgs h.line rf
  have close : (m = true ↔ (a.line args.term).take (idx + 1) <+: a.log v) →
      (m = true → (a.line args.term).take (idx + 1) <+: a.log v) ∧
      (m = false → (a.line args.term).take (idx + 1) <+: a.log v →
        (a.log v).length ≤ idx + 1) := by
    intro hiff
    refine ⟨hiff.mp, fun hf hb => ?_⟩
    rw [hiff.mpr hb] at hf
    cases hf
  rcases hcase with ⟨_, hes⟩ | ⟨hlt, hcut⟩
  · refine close (h.match_aligned hm fun k => ?_)
    rw [hes, List.getElem?_drop]
  · by_cases hgap : (rf.trimArgs args).1 + 1 = args.logSnapshot.index
    · refine close (h.match_aligned hm fun k => ?_)
      rw [hgap]
      exact hcut.terms k
    · -- the loop compares with positions further back: the guard speaks about the last entry
      have hidx := h.carries.idx_lt
      have hsl := h.carries.snap_le
      have hlast := h.mirror.holds.last_index
      obtain ⟨e, z, he, hz, hei, het⟩ := h.carries.excerpt.last_entry hcut
      have hhold : rf.holdsEntry e = true ↔ ∃ y, (a.log v)[idx]? = some y ∧ y.term = z.term := by
        rw [h.mirror.holds.holdsEntry (by omega), hei, het]
      have hguard := h.gap
      unfold Raft.gapOk at hguard
      rw [he] at hguard
      have hguard := of_decide_eq_true hguard (by omega)
      rw [hm] at hguard
      refine ⟨fun htrue => ?_, fun hfalse hb => ?_⟩
      · subst htrue
        obtain ⟨y, hy, hyt⟩ := hhold.mp (by simpa using hguard)
        rw [← (h.good.agree_log v).matching (h.good.agree_line args.term) hy hz hyt]
        exact List.take_prefix _ _
      · subst hfalse
        have hz' : ((a.line args.term).take (idx + 1))[idx]? = some z := by
          rw [List.getElem?_take_of_lt (Nat.lt_succ_self idx)]
          exact hz
        have hle := (by simpa using hguard : rf.holdsEntry e = true →
          rf.getLastLogUnLock.index ≤ e.index) (hhold.mpr ⟨z, get_of_begins hb hz', rfl⟩)
        omega

/-- **The log the handler leaves is the log of the move.** -/
theorem accepted_eq (h : Receives a v rf idx p args) {m : Bool}
    (hm : rf.isMatch ((rf.trimArgs args).1 + 1) (rf.trimArgs args).2.2 = some m) :
    a.accepted v (idx + 1) = if m then a.log v else (a.line args.term).take (idx + 1) := by
  obtain ⟨htrue, hfalse⟩ := h.match_verdict hm
  unfold Board.accepted
  rw [h.board_term]
  cases m with
  | true => rw [if_pos (htrue rfl), if_pos rfl]
  | false =>
      rw [if_neg Bool.false_ne_true]
      split
      · rename_i hb
        have hidx := h.carries.idx_lt
        refine (hb.eq_of_length_le ?_).symm
        rw [List.length_take]
        have := hfalse rfl hb
        omega
      · rfl

/-- The entry the snapshot of the request ends at, on the line and on the new log. -/
theorem snap_entry (h : Receives a v rf idx p args) :
    ∃ y, ((a.line args.term).take (idx + 1))[args.logSnapshot.index]? = some y ∧
      args.logSnapshot.term = y.term := by
  have hidx := h.carries.idx_lt
  have hsl := h.carries.snap_le
  obtain ⟨y, hy⟩ : ∃ y, (a.line args.term)[args.logSnapshot.index]? = some y :=
    ⟨_, List.getElem?_eq_getElem (by omega)⟩
  exact ⟨y, by rwa [List.getElem?_take_of_lt (by omega)], h.carries.snap_term y hy⟩

/-- The copied log, and the snapshot installed on it. -/
theorem holds_copied (h : Receives a v rf idx p args)
    (hm : rf.isMatch ((rf.trimArgs args).1 + 1) (rf.trimArgs args).2.2 = some false)
    (mem : Memory C) (spare : List (LogEntry C)) (lc last grow : Nat) :
    ((rf.written mem (rf.log.take ((rf.trimArgs args).1 + 1 - rf.snapshot.index) ++
        (rf.trimArgs args).2.2) spare lc last).updateSnapshotUnLock args.logSnapshot grow).Holds
      ((a.line args.term).take (idx + 1)) := by
  obtain ⟨hs, hcase, _⟩ := h.carries.excerpt.trimArgs h.line rf
  obtain ⟨_, hpre⟩ := h.prev_agrees
  obtain ⟨y, hy, hyt⟩ := h.snap_entry
  have hne := Raft.isMatch_nil hm
  rcases hcase with ⟨_, hes⟩ | ⟨hlt, hcut⟩
  · -- right behind the entry before: the new log is cut where the old one was
    refine Raft.Holds.updateSnapshotUnLock ?_ hy hyt grow
    have hpos : (rf.trimArgs args).1 + 1 < idx + 1 := by
      by_contra hno
      apply hne
      rw [hes]
      refine List.drop_eq_nil_of_le ?_
      rw [List.length_take]
      omega
    have heq : (a.log v).take ((rf.trimArgs args).1 + 1) =
        ((a.line args.term).take (idx + 1)).take ((rf.trimArgs args).1 + 1) := by
      rw [hpre, List.take_take, Nat.min_eq_left (by omega)]
    refine ⟨?_, fun z hz => ?_⟩
    · rw [Raft.written_log, Raft.written_snapshot, hes]
      exact h.mirror.holds.cut.overwrite (h.line.take _) hs heq
    · rw [Raft.written_snapshot] at hz ⊢
      refine h.mirror.holds.snap z ?_
      have hcong := congrArg (·[rf.snapshot.index]?) heq
      simp only [List.getElem?_take_of_lt (show rf.snapshot.index < (rf.trimArgs args).1 + 1 by omega)]
        at hcong
      rw [hcong, hz]
  · refine h.mirror.holds.copied_gap hs hlt hcut (fun z hz => ?_) mem spare lc last grow
    rw [hy] at hz
    cases hz
    exact hyt

/-- **The whole log after an accepted request.** -/
theorem holds (h : Receives a v rf idx p args) {rf' : Raft n C} {grow : Nat}
    (ha : rf.acceptEntries args (rf.trimArgs args).1 (rf.trimArgs args).2.2 grow = some rf') :
    ∃ mem log spare, rf' = Raft.persist ((rf.written mem log spare args.leaderCommit
        ((rf.trimArgs args).1 + (rf.trimArgs args).2.2.length)).updateSnapshotUnLock
          args.logSnapshot grow) ∧
      ((rf.written mem log spare args.leaderCommit
        ((rf.trimArgs args).1 + (rf.trimArgs args).2.2.length)).updateSnapshotUnLock
          args.logSnapshot grow).Holds (a.accepted v (idx + 1)) := by
  have hal := h.mirror.holds.aligned
  obtain ⟨hs, _⟩ := h.carries.excerpt.trimArgs h.line rf
  obtain ⟨hlt, _⟩ := h.prev_agrees
  have hlast := h.mirror.holds.last_index
  obtain ⟨m, hm⟩ := hal.isMatch (rf.trimArgs args).2.2 ((rf.trimArgs args).1 + 1)
  have hacc := h.accepted_eq hm
  cases m with
  | true =>
      rw [Raft.acceptEntries_match hm grow] at ha
      refine ⟨_, _, _, (Option.some.inj ha).symm, ?_⟩
      rw [hacc, if_pos rfl]
      obtain ⟨y, hy, hyt⟩ := h.snap_entry
      have hb := (h.match_verdict hm).1 rfl
      have hw : (rf.written rf.memory rf.log rf.spare args.leaderCommit
          ((rf.trimArgs args).1 + (rf.trimArgs args).2.2.length)).Holds (a.log v) :=
        h.mirror.holds.congr (by simp) (by simp)
      exact hw.updateSnapshotUnLock (get_of_begins hb hy) hyt grow
  | false =>
      obtain ⟨mem, spare, hc⟩ := hal.copyEntries hs (by omega) (rf.trimArgs args).2.2 grow
      rw [Raft.acceptEntries_copy hm hc] at ha
      refine ⟨_, _, _, (Option.some.inj ha).symm, ?_⟩
      rw [hacc, if_neg Bool.false_ne_true]
      exact h.holds_copied hm mem spare _ _ grow

/-- What the line has settled up to `k` is kept, if the new log has it. -/
theorem kept_line (h : Receives a v rf idx p args) {k : Nat} (hk : k < (a.line args.term).length)
    (hs : Board.Settled base a args.term ((a.line args.term).take (k + 1)))
    (hb : (a.line args.term).take (k + 1) <+: a.accepted v (idx + 1)) :
    Kept (a.accept v (idx + 1)) v k := by
  obtain ⟨hle, heq⟩ := (take_begins_iff (by omega)).mp hb
  have hlog : (a.accept v (idx + 1)).log v = a.accepted v (idx + 1) := Function.update_self _ _ _
  have hterm : (a.accept v (idx + 1)).term v = args.term := h.board_term
  unfold Kept
  rw [hlog, hterm, ← heq]
  exact ⟨by omega, hs.grow Board.accept_grows⟩

theorem line_begins (h : Receives a v rf idx p args) {k : Nat} (hk : k ≤ idx) :
    (a.line args.term).take (k + 1) <+: a.accepted v (idx + 1) := by
  have hb : (a.line args.term).take (k + 1) <+: (a.line args.term).take (idx + 1) :=
    List.take_prefix_take_left (by omega)
  have := Board.take_begins_accepted (a := a) (v := v) (k := idx + 1)
  rw [h.board_term] at this
  exact hb.trans this

/-- The commit index of lines 406-410 is within what the request covers. -/
theorem kept_commit (h : Receives a v rf idx p args) : Kept (a.accept v (idx + 1)) v
    (min args.leaderCommit ((rf.trimArgs args).1 + (rf.trimArgs args).2.2.length)) := by
  obtain ⟨hs, hcase, _⟩ := h.carries.excerpt.trimArgs h.line rf
  obtain ⟨hlt, hpre⟩ := h.prev_agrees
  have hidx := h.carries.idx_lt
  obtain ⟨P, hP, hset⟩ := h.carries.commit
  have hPl := h.good.settled_line hset h.carries.lead
  have hPlen := hPl.length_le
  have hlast : (rf.trimArgs args).1 + (rf.trimArgs args).2.2.length ≤
      max (rf.trimArgs args).1 idx := by
    rcases hcase with ⟨_, hes⟩ | ⟨hgt, hcut⟩
    · rw [hes, List.length_drop, List.length_take]
      omega
    · have := hcut.length
      rw [List.length_take] at this
      omega
  refine h.kept_line (by omega) (hset.begins ?_) ?_
  · have hcut : (a.line args.term).take
        (min args.leaderCommit ((rf.trimArgs args).1 + (rf.trimArgs args).2.2.length) + 1) <+:
          a.line args.term := List.take_prefix _ _
    refine begins_of_begins hcut hPl ?_
    rw [List.length_take]
    omega
  · by_cases hle : min args.leaderCommit
        ((rf.trimArgs args).1 + (rf.trimArgs args).2.2.length) ≤ idx
    · exact h.line_begins hle
    · -- beyond the last entry of the request: both logs had it before
      refine Board.begins_accepted ?_ ?_
      · refine List.IsPrefix.trans ?_ <| List.take_prefix ((rf.trimArgs args).1 + 1) _
        rw [hpre]
        exact List.take_prefix_take_left (by omega)
      · rw [h.board_term]
        exact List.take_prefix _ _

/-- **An accepted request is the move `accept`.** -/
theorem mirrors (h : Receives a v rf idx p args) {rf' : Raft n C} {grow : Nat}
    (ha : rf.acceptEntries args (rf.trimArgs args).1 (rf.trimArgs args).2.2 grow = some rf') :
    Mirrors (a.accept v (idx + 1)) v rf' := by
  obtain ⟨_, _, _, rfl, hH⟩ := h.holds ha
  have hlog : (a.accept v (idx + 1)).log v = a.accepted v (idx + 1) := Function.update_self _ _ _
  have keep : ∀ {k}, Kept a v k → Kept (a.accept v (idx + 1)) v k :=
    fun hk => hk.accept h.good h.lead
  refine Mirrors.persist ⟨?_, ?_, ?_, ?_, ?_, ?_, ?_⟩
  · rw [Raft.updateSnapshotUnLock_currentTerm, Raft.written_currentTerm]
    exact h.mirror.term
  · rw [hlog]
    exact hH
  · rw [Raft.updateSnapshotUnLock_commitIndex, Raft.written_commitIndex]
    split
    · exact h.kept_commit
    · exact keep h.mirror.commit
  · rw [Raft.updateSnapshotUnLock_lastApplied, Raft.written_lastApplied]
    exact keep h.mirror.applied
  · rw [Raft.updateSnapshotUnLock_snapshot, Raft.written_snapshot]
    split
    · have hidx := h.carries.idx_lt
      have hsl := h.carries.snap_le
      exact h.kept_line (by omega) h.carries.snap_settled (h.line_begins hsl)
    · exact keep h.mirror.snap
  · rw [Raft.updateSnapshotUnLock_persister, Raft.written_persister]
    exact fun d hd => keep (h.mirror.disk d hd)
  · rw [Raft.updateSnapshotUnLock_applyChan, Raft.written_applyChan]
    exact fun m hm => (h.mirror.chan m hm).grow Board.accept_grows

end Receives

end Mit6824
