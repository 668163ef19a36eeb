/-
  File:      Mit6824/Raft/Align.lean
  Subject:   THE LOG STARTS AT THE SNAPSHOT (raft.go lines 92-124, 368-441, 525-554, 869-911).

  Every function of the log turns an index into a position by subtracting `snapshot.Index`, which
  is right as long as `Log[k].Index = snapshot.Index + k`.

  * `Raft.Aligned` -- that; `Request` -- what a request has to be: its entries follow each other,
    and begin after `PrevLogIndex` or, further on, at the sender's snapshot;
  * `appendEntries_aligned` -- on an aligned log no such request runs out of range, and the log is
    aligned afterwards, although a request of the second kind leaves a gap in it for a while;
  * `argsGuard` -- a broadcast slices `Log` up to its length only;
  * `log_aligned` -- in every run whose steps meet `argsGuard` and `encodeGuard` all logs are
    aligned;
  * `slice_past_the_end` -- without `argsGuard` a broadcast that outlived a cut of the log reads the
    array behind it, and the log of a follower is not aligned any more.
-/
import Mit6824.Raft.Casts

namespace Mit6824

open Lib

variable {n : Nat} {C : Type}

/-! ## 1. Entries that follow each other -/

/-- The indices of `es` are `i`, `i + 1`, ... -/
def From (i : Nat) (es : List (LogEntry C)) : Prop := ∀ k e, es[k]? = some e → e.index = i + k

theorem From.nil (i : Nat) : From i ([] : List (LogEntry C)) := fun k e h => by simp at h

theorem From.take {i : Nat} {es : List (LogEntry C)} (h : From i es) (k : Nat) :
    From i (es.take k) := by
  intro j e he
  rw [List.getElem?_take] at he
  split at he
  · exact h j e he
  · cases he

theorem From.drop {i : Nat} {es : List (LogEntry C)} (h : From i es) (k : Nat) :
    From (i + k) (es.drop k) := by
  intro j e he
  rw [List.getElem?_drop] at he
  rw [h _ e he]
  omega

theorem From.append {i : Nat} {es es' : List (LogEntry C)} (h : From i es)
    (h' : From (i + es.length) es') : From i (es ++ es') := by
  intro j e he
  by_cases hj : j < es.length
  · rw [List.getElem?_append_left hj] at he
    exact h j e he
  · rw [List.getElem?_append_right (by omega)] at he
    rw [h' _ e he]
    omega

theorem From.tail {i : Nat} {e : LogEntry C} {es : List (LogEntry C)} (h : From i (e :: es)) :
    e.index = i ∧ From (i + 1) es := ⟨h 0 e rfl, h.drop 1⟩

/-- Cutting at an index is cutting at a position. -/
theorem From.dropWhile_le {es : List (LogEntry C)} : ∀ {i : Nat}, From i es → ∀ s : Nat,
    es.dropWhile (fun e => decide (e.index ≤ s)) = es.drop (s + 1 - i) := by
  induction es with
  | nil => intro i _ s; simp
  | cons e es ih =>
      intro i h s
      obtain ⟨he, hes⟩ := h.tail
      by_cases hle : i ≤ s
      · rw [List.dropWhile_cons_of_pos (by simpa [he] using hle), ih hes s,
          show s + 1 - i = (s + 1 - (i + 1)) + 1 by omega, List.drop_succ_cons]
      · rw [List.dropWhile_cons_of_neg (by simpa [he] using hle), show s + 1 - i = 0 by omega,
          List.drop_zero]

theorem From.dropWhile_ne {es : List (LogEntry C)} : ∀ {i : Nat}, From i es → ∀ s : Nat, i ≤ s →
    es.dropWhile (fun e => decide (e.index ≠ s)) = es.drop (s - i) := by
  induction es with
  | nil => intro i _ s _; simp
  | cons e es ih =>
      intro i h s hs
      obtain ⟨he, hes⟩ := h.tail
      by_cases hne : i = s
      · subst hne
        rw [List.dropWhile_cons_of_neg (by simp [he]), Nat.sub_self, List.drop_zero]
      · rw [List.dropWhile_cons_of_pos (by simpa [he] using hne), ih hes s (by omega),
          show s - i = (s - (i + 1)) + 1 by omega, List.drop_succ_cons]

namespace Raft

/-- **`Log[k].Index = snapshot.Index + k`**, and there is a `Log[0]`. -/
structure Aligned (rf : Raft n C) : Prop where
  ne : rf.log ≠ []
  run : From rf.snapshot.index rf.log

theorem Aligned.congr {rf rf' : Raft n C} (h : rf.Aligned) (hl : rf'.log = rf.log)
    (hs : rf'.snapshot = rf.snapshot) : rf'.Aligned :=
  ⟨by rw [hl]; exact h.ne, by rw [hl, hs]; exact h.run⟩

theorem Aligned.last {rf : Raft n C} (h : rf.Aligned) :
    rf.getLastLogUnLock.index + 1 = rf.snapshot.index + rf.log.length := by
  have hpos := List.length_pos_iff.mpr h.ne
  have hget : rf.log.getLast? = some (rf.log.getLast h.ne) := List.getLast?_eq_some_getLast h.ne
  unfold getLastLogUnLock
  rw [hget]
  have he : rf.log[rf.log.length - 1]? = some (rf.log.getLast h.ne) := by
    rw [← List.getLast?_eq_getElem?, hget]
  have hi := h.run _ _ he
  show (rf.log.getLast h.ne).index + 1 = _
  omega

/-- Up to the last index every index is in range. -/
theorem Aligned.get {rf : Raft n C} (h : rf.Aligned) {i : Nat}
    (hi : i ≤ rf.getLastLogUnLock.index) : ∃ e, rf.getLogByIndexUnLock i = some e := by
  have hlast := h.last
  unfold getLogByIndexUnLock
  split
  · exact ⟨_, rfl⟩
  · exact ⟨_, List.getElem?_eq_getElem (by omega)⟩

/-! ## 2. The handler -/

/-- `es` goes after `prev`: at once, or from the snapshot of the sender on. -/
def Follows (prev : Int) (sn : Nat) (es : List (LogEntry C)) : Prop :=
  ∃ first : Nat, From first es ∧
    (es = [] ∨ (first : Int) = prev + 1 ∨ (prev + 1 < first ∧ first = sn))

/-- **A request a server can take.** -/
def Request (args : AppendEntriesArgs n C) : Prop :=
  Follows args.prevLogIndex args.logSnapshot.index args.entries

theorem follows_trimArgs (rf : Raft n C) {args : AppendEntriesArgs n C} (h : Request args) :
    rf.snapshot.index ≤ (rf.trimArgs args).1 ∧
      Follows (rf.trimArgs args).1 args.logSnapshot.index (rf.trimArgs args).2.2 := by
  obtain ⟨first, hrun, hfirst⟩ := h
  unfold trimArgs
  split
  · rename_i hlt
    refine ⟨le_refl _, first + (rf.snapshot.index + 1 - first), ?_, ?_⟩
    · dsimp only
      rw [hrun.dropWhile_le]
      exact hrun.drop _
    · rcases hfirst with hnil | hnext | ⟨hgap, hsn⟩
      · exact Or.inl (by simp [hnil])
      · exact Or.inr (Or.inl (by omega))
      · -- the gap stays, or is closed by the entries the snapshot covers
        by_cases hle : first ≤ rf.snapshot.index + 1
        · exact Or.inr (Or.inl (by omega))
        · exact Or.inr (Or.inr ⟨by omega, by omega⟩)
  · rename_i hge
    refine ⟨by show rf.snapshot.index ≤ args.prevLogIndex.toNat; omega, first, hrun, ?_⟩
    have hprev : ((args.prevLogIndex.toNat : Nat) : Int) = args.prevLogIndex := by omega
    rcases hfirst with hnil | hnext | ⟨hgap, hsn⟩
    · exact Or.inl hnil
    · exact Or.inr (Or.inl (by show (first : Int) = (args.prevLogIndex.toNat : Int) + 1; omega))
    · exact Or.inr (Or.inr
        ⟨by show (args.prevLogIndex.toNat : Int) + 1 < first; omega, hsn⟩)

theorem Aligned.isMatch {rf : Raft n C} (h : rf.Aligned) (es : List (LogEntry C)) :
    ∀ next, ∃ b, rf.isMatch next es = some b := by
  induction es with
  | nil => exact fun _ => ⟨true, rfl⟩
  | cons e es ih =>
      intro next
      unfold Raft.isMatch
      split
      · exact ⟨false, rfl⟩
      · obtain ⟨x, hx⟩ := h.get (i := next) (by omega)
        rw [hx]
        dsimp only
        split
        · exact ih _
        · exact ⟨false, rfl⟩

/-- **The match loop** compares terms, position by position. -/
theorem Aligned.isMatch_iff {rf : Raft n C} (h : rf.Aligned) (es : List (LogEntry C)) :
    ∀ {next : Nat}, rf.snapshot.index < next → ∀ {b}, rf.isMatch next es = some b →
      (b = true ↔ ∀ k e, es[k]? = some e →
        ∃ y, rf.log[next + k - rf.snapshot.index]? = some y ∧ y.term = e.term) := by
  induction es with
  | nil =>
      intro next _ b hb
      cases hb
      simp
  | cons e es ih =>
      intro next hn b hb
      have hlast := h.last
      -- the first position decides, or the loop goes on one position further
      rw [Lib.forall_get_cons]
      unfold Raft.isMatch at hb
      rw [rf.getLogByIndexUnLock_of_le (Nat.le_of_lt hn)] at hb
      split at hb
      · -- the log has ended
        rename_i hend
        cases hb
        refine ⟨fun hf => absurd hf Bool.false_ne_true, fun hboth => ?_⟩
        obtain ⟨y, hy, _⟩ := hboth.1
        have := (List.getElem?_eq_some_iff.mp hy).1
        omega
      · cases hF : rf.log[next - rf.snapshot.index]? with
        | none => rw [hF] at hb; cases hb
        | some x =>
            rw [hF] at hb
            dsimp only at hb
            split at hb
            · rename_i hx
              rw [ih (by omega) hb]
              simp only [Nat.add_assoc, Nat.add_comm 1]
              exact ⟨fun hr => ⟨⟨x, rfl, hx⟩, hr⟩, fun hr => hr.2⟩
            · rename_i hx
              cases hb
              refine ⟨fun hf => absurd hf Bool.false_ne_true, fun hboth => ?_⟩
              obtain ⟨y, hy, ht⟩ := hboth.1
              cases hy
              exact absurd ht hx

theorem Aligned.prevConsistent {rf : Raft n C} (h : rf.Aligned) (prev prevTerm : Nat) :
    ∃ b, rf.prevConsistent prev prevTerm = some b ∧
      (b = true → prev ≤ rf.getLastLogUnLock.index) := by
  unfold Raft.prevConsistent
  split
  · rename_i hle
    obtain ⟨x, hx⟩ := h.get hle
    rw [hx]
    exact ⟨_, rfl, fun _ => hle⟩
  · exact ⟨false, rfl, nofun⟩

theorem Aligned.conflictLoop {rf : Raft n C} (h : rf.Aligned) (t : Nat) : ∀ i,
    i ≤ rf.getLastLogUnLock.index + 1 → ∃ j, rf.conflictLoop t i = some j := by
  intro i
  induction i with
  | zero => exact fun _ => ⟨0, rfl⟩
  | succ i ih =>
      intro hi
      unfold Raft.conflictLoop
      split
      · obtain ⟨x, hx⟩ := h.get (i := i) (by omega)
        rw [hx]
        dsimp only
        split
        · exact ih (by omega)
        · exact ⟨_, rfl⟩
      · exact ⟨_, rfl⟩

theorem Aligned.conflict {rf : Raft n C} (h : rf.Aligned) (prev : Nat) :
    ∃ ic, rf.conflict prev = some ic := by
  unfold Raft.conflict
  split
  · exact ⟨_, rfl⟩
  · obtain ⟨x, hx⟩ := h.get (i := prev) (by omega)
    obtain ⟨j, hj⟩ := h.conflictLoop x.term prev (by omega)
    rw [hx]
    dsimp only
    rw [hj]
    exact ⟨_, rfl⟩

/-- The log the handler writes, before it looks at the snapshot. -/
theorem Aligned.copyEntries {rf : Raft n C} (h : rf.Aligned) {prev : Nat}
    (hs : rf.snapshot.index ≤ prev) (hp : prev ≤ rf.getLastLogUnLock.index)
    (es : List (LogEntry C)) (grow : Nat) :
    ∃ m spare, rf.copyEntries prev es grow = some { rf with
      memory := m, log := rf.log.take (prev + 1 - rf.snapshot.index) ++ es, spare := spare } := by
  have hlast := h.last
  unfold Raft.copyEntries
  split
  · rename_i heq
    obtain ⟨m, spare, e⟩ := rf.appendLog_eq rf.log rf.spare es grow
    rw [List.take_of_length_le (by omega), e]
    exact ⟨m, spare, rfl⟩
  · have hhi : ((prev : Int) + 1 - rf.snapshot.index).toNat = prev + 1 - rf.snapshot.index := by
      omega
    have hslice : rf.sliceLog 0 ((prev : Int) + 1 - rf.snapshot.index) =
        some (rf.log.take (prev + 1 - rf.snapshot.index),
          (rf.log ++ rf.spare).drop (prev + 1 - rf.snapshot.index)) := by
      unfold sliceLog
      rw [if_pos ⟨le_refl _, by omega, by rw [List.length_append]; omega⟩, hhi, Int.toNat_zero,
        List.drop_zero, List.take_append_of_le_length (by omega)]
    obtain ⟨m, spare, e⟩ := rf.appendLog_eq (rf.log.take (prev + 1 - rf.snapshot.index))
      ((rf.log ++ rf.spare).drop (prev + 1 - rf.snapshot.index)) es grow
    rw [hslice]
    exact ⟨m, spare, congrArg some e⟩

/-- Installing a snapshot on an aligned log. -/
theorem aligned_updateSnapshotUnLock {rf : Raft n C} (h : rf.Aligned) (sn : Snapshot)
    (grow : Nat) : (rf.updateSnapshotUnLock sn grow).Aligned := by
  unfold updateSnapshotUnLock
  split
  · rename_i hlt
    have hd := h.run.dropWhile_ne sn.index (by omega)
    split
    · refine ⟨List.cons_ne_nil _ _, fun k e he => ?_⟩
      cases k with
      | zero =>
          cases he
          rfl
      | succ k => simp at he
    · rename_i x xs hcut
      refine ⟨List.cons_ne_nil _ _, ?_⟩
      show From sn.index (x :: xs)
      rw [← hcut, hd]
      have := h.run.drop (sn.index - rf.snapshot.index)
      rwa [show rf.snapshot.index + (sn.index - rf.snapshot.index) = sn.index by omega] at this
  · exact h

/-- A gap is closed by installing the snapshot it ends at: nothing before it is kept. -/
theorem aligned_gap {rf : Raft n C} {pre es : List (LogEntry C)} {sn : Snapshot}
    (hlog : rf.log = pre ++ es) (hpre : From rf.snapshot.index pre)
    (hgap : rf.snapshot.index + pre.length < sn.index) (hes : From sn.index es) (hne : es ≠ [])
    (grow : Nat) : (rf.updateSnapshotUnLock sn grow).Aligned := by
  have hskip : ∀ e ∈ pre, decide (e.index ≠ sn.index) = true := by
    intro e he
    obtain ⟨k, hk⟩ := List.mem_iff_getElem?.mp he
    have hlen := (List.getElem?_eq_some_iff.mp hk).1
    rw [decide_eq_true_eq, hpre k e hk]
    omega
  have hcut : rf.log.dropWhile (fun e => decide (e.index ≠ sn.index)) = es := by
    rw [hlog, List.dropWhile_append_of_pos hskip, hes.dropWhile_ne _ (le_refl _), Nat.sub_self,
      List.drop_zero]
  unfold updateSnapshotUnLock
  rw [if_pos (by omega), hcut]
  cases es with
  | nil => exact absurd rfl hne
  | cons e es => exact ⟨List.cons_ne_nil _ _, hes⟩

/-- **An accepted request**: no access is out of range, and the log is aligned again. -/
theorem aligned_acceptEntries {rf : Raft n C} (h : rf.Aligned) (args : AppendEntriesArgs n C)
    {prev : Nat} {es : List (LogEntry C)} (hs : rf.snapshot.index ≤ prev)
    (hp : prev ≤ rf.getLastLogUnLock.index) (hes : Follows prev args.logSnapshot.index es)
    (grow : Nat) : ∃ rf', rf.acceptEntries args prev es grow = some rf' ∧ rf'.Aligned := by
  have hlast := h.last
  obtain ⟨m, hm⟩ := h.isMatch es (prev + 1)
  cases m with
  | true =>
      have hw : (rf.written rf.memory rf.log rf.spare args.leaderCommit
          (prev + es.length)).Aligned :=
        h.congr (by simp) (by simp)
      exact ⟨_, acceptEntries_match hm grow,
        (aligned_updateSnapshotUnLock hw args.logSnapshot grow).congr (by simp) (by simp)⟩
  | false =>
      obtain ⟨_, spare, hc⟩ := h.copyEntries hs hp es grow
      refine ⟨_, acceptEntries_copy hm hc, Aligned.congr ?_ (persist_log _) (persist_snapshot _)⟩
      have hpre := h.run.take (prev + 1 - rf.snapshot.index)
      have hlen : (rf.log.take (prev + 1 - rf.snapshot.index)).length =
          prev + 1 - rf.snapshot.index := by
        rw [List.length_take]
        omega
      have hne : rf.log.take (prev + 1 - rf.snapshot.index) ≠ [] :=
        List.ne_nil_of_length_pos (by omega)
      obtain ⟨first, hrun, hfirst⟩ := hes
      rcases hfirst with rfl | hnext | ⟨hgap, rfl⟩
      · refine aligned_updateSnapshotUnLock ⟨?_, ?_⟩ _ _
        · rw [written_log, List.append_nil]
          exact hne
        · rw [written_log, written_snapshot, List.append_nil]
          exact hpre
      · refine aligned_updateSnapshotUnLock ⟨?_, ?_⟩ _ _
        · rw [written_log]
          exact List.append_ne_nil_of_left_ne_nil hne _
        · rw [written_log, written_snapshot]
          refine hpre.append ?_
          rwa [hlen, show rf.snapshot.index + (prev + 1 - rf.snapshot.index) = first by omega]
      · refine aligned_gap (written_log _ _ _ _ _ _) (by rw [written_snapshot]; exact hpre) ?_ hrun
          (isMatch_nil hm) grow
        rw [written_snapshot, hlen]
        omega

/-- **The handler on an aligned log**: it returns, and leaves an aligned log. -/
theorem appendEntries_aligned {rf : Raft n C} (h : rf.Aligned) {args : AppendEntriesArgs n C}
    (hargs : Request args) (grow : Nat) :
    ∃ rf' reply spawn, rf.appendEntries args grow = some (rf', reply, spawn) ∧ rf'.Aligned := by
  unfold appendEntries
  split
  · have hc : (rf.catchUp args.term).Aligned := h.congr (by simp) (by simp)
    obtain ⟨hs, hfol⟩ := follows_trimArgs (rf.catchUp args.term) hargs
    obtain ⟨b, hb, hle⟩ := hc.prevConsistent ((rf.catchUp args.term).trimArgs args).1
      ((rf.catchUp args.term).trimArgs args).2.1
    dsimp only
    rw [hb]
    cases b with
    | true =>
        obtain ⟨rf', hrf', hal⟩ := aligned_acceptEntries hc args hs (hle rfl) hfol grow
        dsimp only
        rw [hrf']
        exact ⟨_, _, _, rfl, hal⟩
    | false =>
        obtain ⟨⟨i, c⟩, hic⟩ := hc.conflict ((rf.catchUp args.term).trimArgs args).1
        dsimp only
        rw [hic]
        exact ⟨_, _, _, rfl, hc⟩
  · exact ⟨_, _, _, rfl, h⟩

/-! ## 3. The sender -/

/-- A slice that stays within the length. -/
theorem sliceLog_within {rf : Raft n C} {lo hi : Int}
    {ls : List (LogEntry C) × List (LogEntry C)} (h : rf.sliceLog lo hi = some ls)
    (hhi : hi ≤ rf.log.length) : ls.1 = (rf.log.take hi.toNat).drop lo.toNat := by
  unfold sliceLog at h
  split at h
  · cases h
    dsimp only
    rw [List.take_append_of_le_length (by omega)]
  · cases h

theorem request_appendArgs {rf : Raft n C} (h : rf.Aligned) {me : Fin n}
    {next index term commitIndex : Nat} {args : AppendEntriesArgs n C}
    (hargs : rf.appendArgs me next index term commitIndex = some args)
    (hin : next < index + 1 → index + 1 ≤ rf.snapshot.index + rf.log.length) : Request args := by
  obtain ⟨prevLog, es, _, hes, rfl⟩ := appendArgs_inv hargs
  show Follows ((next : Int) - 1) rf.snapshot.index es
  split at hes
  · rename_i hlt
    have hhi : (index : Int) - rf.snapshot.index + 1 ≤ rf.log.length := by
      have := hin hlt
      omega
    split at hes
    · rename_i hbelow
      obtain ⟨ls, hls, rfl⟩ := Option.map_eq_some_iff.mp hes
      refine ⟨rf.snapshot.index, ?_, Or.inr (Or.inr ⟨by omega, rfl⟩)⟩
      rw [sliceLog_within hls hhi, Int.toNat_zero, List.drop_zero]
      exact h.run.take _
    · rename_i habove
      obtain ⟨ls, hls, rfl⟩ := Option.map_eq_some_iff.mp hes
      refine ⟨next, ?_, Or.inr (Or.inl (by omega))⟩
      rw [sliceLog_within hls hhi]
      have := (h.run.take ((index : Int) - rf.snapshot.index + 1).toNat).drop
        ((next : Int) - rf.snapshot.index).toNat
      rwa [show rf.snapshot.index + ((next : Int) - rf.snapshot.index).toNat = next by omega]
        at this
  · cases hes
    exact ⟨0, From.nil _, Or.inl rfl⟩

/-! ## 4. The other sections -/

/-- A server that starts with nothing. -/
theorem aligned_make_none {p : Persister n C} (h : p.raftstate = none) (grow : Nat) :
    (make p grow).Aligned := by
  rw [make_none h]
  refine ⟨List.cons_ne_nil _ _, fun k e he => ?_⟩
  cases k with
  | zero =>
      cases he
      rfl
  | succ k => simp [fresh] at he

theorem aligned_startLog {rf : Raft n C} (h : rf.Aligned) (command : Option C) (grow : Nat) :
    (rf.startLog command grow).Aligned := by
  refine ⟨by simp, ?_⟩
  have hrun : From rf.snapshot.index (rf.log ++ [rf.newEntry command]) := by
    refine h.run.append fun k e he => ?_
    cases k with
    | zero =>
        cases he
        rfl
    | succ k => simp at he
  simpa using hrun

theorem aligned_saveSnapshot {rf rf' : Raft n C} (h : rf.Aligned) {index : Nat}
    {storage : List UInt8} (hs : rf.saveSnapshot index storage = some rf') : rf'.Aligned := by
  refine ⟨saveSnapshot_log_ne h.ne hs, ?_⟩
  rcases saveSnapshot_cases hs with ⟨_, rfl⟩ | ⟨hlt, x, ls, _, hls, rfl⟩
  · exact h.run
  · rw [persist_log, persist_snapshot]
    show From index ls.1
    rw [sliceLog_within hls (le_refl _), Int.toNat_natCast, List.take_length]
    have := h.run.drop ((index : Int) - rf.snapshot.index).toNat
    rwa [show rf.snapshot.index + ((index : Int) - rf.snapshot.index).toNat = index by omega]
      at this

/-- **One section, but for the AppendEntries handler.** -/
theorem aligned_change {me : Fin n} {a : Action n C} {rf rf' : Raft n C} {evs : List (Event n C)}
    (h : rf.Aligned) (hs : rf.Saved) (hc : Change me a rf evs rf') :
    rf'.Aligned ∨ ∃ k grow, a = .handleAppend k me grow := by
  cases hc with
  | idle => exact Or.inl h
  | send => exact Or.inl h
  | candidate => exact Or.inl (h.congr (by simp [becomeCandidate]) (by simp [becomeCandidate]))
  | vote e _ args =>
      rcases requestVote_cases rf args with ⟨_, e⟩ | ⟨_, _, e⟩ | ⟨_, _, e⟩ <;> rw [e]
      · exact Or.inl h
      · exact Or.inl (h.congr (by simp) (by simp))
      · exact Or.inl (h.congr (by simp) (by simp))
  | down => exact Or.inl (h.congr (by simp) (by simp))
  | lead => exact Or.inl (h.congr (by simp [becomeLeader]) (by simp [becomeLeader]))
  | start k grow _ command term => exact Or.inl (aligned_startLog h command grow)
  | append k grow => exact Or.inr ⟨k, grow, rfl⟩
  | next => exact Or.inl (h.congr rfl rfl)
  | count => exact Or.inl (h.congr (by simp) (by simp))
  | commit => exact Or.inl (h.congr (by simp) (by simp))
  | apply _ _ h' =>
      obtain ⟨i, ms, rfl⟩ := apply_frame h'
      exact Or.inl (h.congr rfl rfl)
  | snapshot _ _ index storage _ h' => exact Or.inl (aligned_saveSnapshot h h')
  | restart grow =>
      obtain ⟨_, _, h3, h4, _⟩ := make_saved hs h.ne grow
      exact Or.inl (h.congr h3 h4)

end Raft

/-! ## 5. Runs -/

namespace Cluster

/-- **A broadcast slices `Log` up to its length only.** -/
def argsGuard (s : Cluster n C) : Action n C → Bool
  | .peerArgs k u =>
      match s.casts[k]? with
      | none => true
      | some B =>
          let rf := s.rafts B.owner
          decide (rf.currentTerm = B.term → rf.lastApplied ≤ B.index →
            rf.nextIndex u < B.index + 1 → B.index + 1 ≤ rf.snapshot.index + rf.log.length)
  | _ => true

/-- All logs are aligned, and all requests are such as an aligned log can take. -/
structure AlignInv (s : Cluster n C) : Prop where
  aligned : ∀ v, (s.rafts v).Aligned
  requests : Requests Raft.Request s

/-- **One step keeps all logs aligned**, if the requests on their way can be taken. -/
theorem aligned_step {s s' : Cluster n C} {a : Action n C} (h : s.step a = some s')
    (hS : ∀ v, (s.rafts v).Saved) (hal : ∀ v, (s.rafts v).Aligned)
    (hreq : ∀ B ∈ s.casts, ∀ u args next, B.peer u = .sent args next → Raft.Request args)
    (v : Fin n) : (s'.rafts v).Aligned := by
  obtain ⟨w, evs, hA⟩ := step_acts h
  by_cases hv : v = w
  · subst hv
    rcases hA.change with hc | ⟨t, _, _, e⟩
    · rcases Raft.aligned_change (hal v) (hS v) hc with hal' | ⟨k, grow, rfl⟩
      · exact hal'
      · obtain ⟨B, args, next, reply, spawn, hk, hcall, hr⟩ := handleAppend_raft h
        obtain ⟨rf', _, _, hr', hal'⟩ := Raft.appendEntries_aligned (hal v)
          (hreq B (List.mem_of_getElem? hk) v args next hcall) grow
        rw [hr] at hr'
        cases hr'
        exact hal'
    · rw [e]
      exact (hal v).congr (by simp) (by simp)
  · rw [hA.others v hv]
    exact hal v

theorem alignInv_step {s s' : Cluster n C} {a : Action n C} (h : s.step a = some s')
    (hg : s.argsGuard a = true) (he : s.encodeGuard a) (hS : ∀ v, (s.rafts v).Saved)
    (hI : AlignInv s) : AlignInv s' := by
  refine ⟨aligned_step h hS hI.aligned fun B hB u args next hp => ?_,
    requests_step h hI.requests ?_ ?_⟩
  · exact hI.requests B hB u args (by rw [hp]; rfl)
  · rintro k u B args rfl hk ht hla hargs
    simp only [argsGuard, hk, decide_eq_true_eq] at hg
    exact Raft.request_appendArgs (hI.aligned _) hargs (hg ht hla)
  · intro args entries hreq hsame
    rw [hsame he]
    exact hreq

theorem alignInv_reach {G : Cluster n C → Action n C → Prop}
    (hG : ∀ s a, G s a → s.argsGuard a = true) (hE : ∀ s a, G s a → s.encodeGuard a)
    {s : Cluster n C} (h : Reach step G (init n C) s) : AlignInv s := by
  induction h with
  | start =>
      refine ⟨fun v => ?_, fun B hB => absurd hB List.not_mem_nil⟩
      exact Raft.aligned_make_none (p := ⟨none, []⟩) rfl 0
  | move s s' a hr hg hs ih =>
      exact alignInv_step hs (hG _ _ hg) (hE _ _ hg) (fun v => (saved_reach hr v).1) ih

/-- **Log and snapshot are aligned** in every run whose broadcasts stay within the log and go out
    as they were built, and no handler runs out of range on a request in flight. -/
theorem log_aligned {s : Cluster n C}
    (h : Reach step (fun s a => s.argsGuard a = true ∧ s.encodeGuard a) (init n C) s) :
    (∀ v, (s.rafts v).log ≠ [] ∧ ∀ k e, (s.rafts v).log[k]? = some e →
      e.index = (s.rafts v).snapshot.index + k) ∧
    ∀ B ∈ s.casts, ∀ u args next, B.peer u = .sent args next →
      ∀ grow, (s.rafts u).appendEntries args grow ≠ none := by
  have hI := alignInv_reach (fun _ _ hg => hg.1) (fun _ _ hg => hg.2) h
  refine ⟨fun v => ⟨(hI.aligned v).ne, (hI.aligned v).run⟩, fun B hB u args next hc grow => ?_⟩
  obtain ⟨rf, reply, spawn, hr, _⟩ :=
    Raft.appendEntries_aligned (hI.aligned u) (hI.requests B hB u args (by rw [hc]; rfl)) grow
  rw [hr]
  exact Option.some_ne_none _

/-- Server 0 leads term 1, commits two entries with server 1, saves a snapshot of both and sends it
    to server 2, which has neither. -/
def snapshotSent : List (Action 3 Nat) :=
  oneVote ++ ([.voteReply 0 1, .startState 0 (some 11), .startAppend 0 0, .startState 0 (some 12),
    .startAppend 1 1, .castState 1, .castTerm 1, .peerState 1 1, .peerArgs 1 1, .encode 1 1 9,
    .handleAppend 1 1 0, .peerCheck 1 1, .peerReply 1 1, .apply 0, .saveSnapshot 0 2 [],
    .beatState 0, .beatSend 0, .castState 2, .castTerm 2, .peerState 2 2, .peerArgs 2 2,
    .encode 2 2 9,
    .handleAppend 2 2 0, .peerCheck 2 2, .peerReply 2 2, .peerState 2 2, .peerArgs 2 2,
    .encode 2 2 9] :
    List (Action 3 Nat))

/-- The request begins at entry 2 while server 2 ends at entry 0; its log is the snapshot's then,
    and aligned. -/
theorem log_aligned_installed : ∃ s : Cluster 3 Nat,
    Reach step (fun s a => s.argsGuard a = true ∧ s.encodeGuard a) (init 3 Nat) s ∧
    (s.rafts 2).snapshot.index = 2 ∧ (s.rafts 2).log = [⟨2, 1, some 12⟩] ∧
    ∀ k e, (s.rafts 2).log[k]? = some e → e.index = 2 + k := by
  have run : (exec step (fun s a => s.argsGuard a && decide (s.encodeGuard a)) (init 3 Nat)
      (snapshotSent ++ [.handleAppend 2 2 0])).any (fun s => decide ((s.rafts 2).snapshot.index = 2 ∧
        (s.rafts 2).log = [⟨2, 1, some 12⟩])) = true := by decide +kernel
  obtain ⟨s, hr, run⟩ := exists_of_exec run
  obtain ⟨hi, hl⟩ := of_decide_eq_true run
  have hr' := hr.mono fun s a (hg : _ = true) => by simpa using hg
  have hal := ((log_aligned hr').1 2).2
  rw [hi] at hal
  exact ⟨s, hr', hi, hl, hal⟩

/-- Server 0 leads term 1 with three entries of its own and, by a late vote, term 2; server 1 leads
    term 2 too, has committed two entries with server 2 and saved a snapshot of both. A broadcast
    of server 0 for index 3 is about to build its request for server 2 when the snapshot of server
    1 cuts the log of server 0 to its entry 2: the entries 2 and 3 of term 1 stay in the array
    behind it, one position too early. -/
def cutUnderBroadcast : List (Action 3 Nat) :=
  [.startOneElection 0, .voteArgs 0, .voteArgs 0, .voteArgs 0, .handleVote 0 1, .voteCheck 0 1,
    .voteReply 0 1, .handleVote 0 2, .voteCheck 0 2,
    .startState 0 (some 1), .startAppend 0 0, .startState 0 (some 2), .startAppend 1 1,
    .startState 0 (some 3), .startAppend 2 0,
    .startOneElection 0, .voteReply 0 2, .beatState 0, .beatSend 0,
    .startOneElection 1, .voteArgs 2, .voteArgs 2, .voteArgs 2, .handleVote 2 2, .voteCheck 2 2,
    .voteReply 2 2, .startState 1 (some 11), .startAppend 3 0, .startState 1 (some 12),
    .startAppend 4 1, .castState 5, .castTerm 5, .peerState 5 2, .peerArgs 5 2, .encode 5 2 9,
    .handleAppend 5 2 0, .peerCheck 5 2, .peerReply 5 2, .apply 1, .saveSnapshot 1 2 [],
    .castState 3, .castTerm 3, .peerState 3 2, .peerArgs 3 2, .encode 3 2 9, .handleAppend 3 2 0,
    .peerCheck 3 2,
    .peerReply 3 2, .peerState 3 2,
    .beatState 1, .beatSend 1, .castState 6, .castTerm 6, .peerState 6 0, .peerArgs 6 0,
    .encode 6 0 9,
    .handleAppend 6 0 0, .peerCheck 6 0, .peerReply 6 0, .peerState 6 0, .peerArgs 6 0,
    .encode 6 0 9,
    .handleAppend 6 0 0]

/-- **Without the guard**: the broadcast slices two entries out of a log of one. Server 2 takes
    them, and holds an entry of index 2 at position 1 behind a snapshot of index 2. -/
theorem slice_past_the_end : ∃ s : Cluster 3 Nat, Reach step AnyStep (init 3 Nat) s ∧
    (s.rafts 2).snapshot.index = 2 ∧ (s.rafts 2).log[1]? = some ⟨2, 1, some 2⟩ := by
  have run : (exec step (fun _ _ => true) (init 3 Nat)
      (cutUnderBroadcast ++ [.peerArgs 3 2, .encode 3 2 9, .handleAppend 3 2 0])).any (fun s =>
        decide ((s.rafts 2).snapshot.index = 2 ∧
          (s.rafts 2).log[1]? = some ⟨2, 1, some 2⟩)) = true := by decide +kernel
  obtain ⟨s, hr, run⟩ := exists_of_run run
  exact ⟨s, hr, of_decide_eq_true run⟩

end Cluster

end Mit6824
