/-
  File:      Mit6824/Raft/Entries.lean
  Subject:   WHO CREATES ENTRIES (raft.go lines 686-711, 129-143, 386-404).

  `Start` asks in one section whether the server leads and in which term, and appends in the next
  one whatever term the server is in by then.

  * `startGuard` -- the second section runs while the server leads the term the first one saw;
  * `hearGuard` -- between the two sections the server does not hear of a later term; then it meets
    `startGuard` (`startsLead_reach`);
  * `Raft.Sourced` -- no entry is of a later term than its holder, and those of its own term come
    from a leader of that term: it is the holder itself, or has sent them in that term;
  * `only_leader_creates` -- in every run whose steps meet `termGuard`, `voteGuard`, `encodeGuard`
    and `hearGuard`: entries are created by leaders, and nobody else holds one of its current term
    that the leader has not sent, unless it was the leader itself before a crash;
  * `follower_creates` -- without `hearGuard` a follower creates an entry of a term nobody leads.
-/
import Mit6824.Raft.Tenure

namespace Mit6824

open Lib

variable {n : Nat} {C : Type}

/-! ## 1. Where entries come from -/

/-- Only the second section of `Start` creates an entry, on its own server. -/
theorem Raft.Change.append_by_start {me v : Fin n} {a : Action n C} {rf rf' : Raft n C}
    {st : Role} {e : LogEntry C} {i t : Nat} {evs : List (Event n C)}
    (h : Raft.Change me a rf evs rf') (ha : Event.append v st e i t ∈ evs) :
    v = me ∧ ∃ k grow, a = .startAppend k grow := by
  cases h with
  | start k grow =>
      simp only [List.mem_singleton, Event.append.injEq] at ha
      exact ⟨ha.1, k, grow, rfl⟩
  | vote e _ args => split at ha <;> simp at ha
  | append k grow _ _ args reply spawn h => split at ha <;> simp at ha
  | _ => simp at ha

/-- An entry `v` holds in the term of the entry: `v` has led that term, or a leader of the term has
    sent it. -/
def Source (hist : List (Event n C)) (v : Fin n) (e : LogEntry C) : Prop :=
  ∃ u lg, Event.lead u e.term lg ∈ hist ∧
    (u = v ∨ ∃ w args, Event.send u w args ∈ hist ∧ args.term = e.term ∧ e ∈ args.entries)

theorem Source.mono {hist hist' : List (Event n C)} {v : Fin n} {e : LogEntry C}
    (h : Source hist v e) (hsub : ∀ ev ∈ hist, ev ∈ hist') : Source hist' v e := by
  obtain ⟨u, lg, hl, hs⟩ := h
  refine ⟨u, lg, hsub _ hl, hs.imp_right ?_⟩
  rintro ⟨w, args, hs, ht, he⟩
  exact ⟨w, args, hsub _ hs, ht, he⟩

namespace Raft

/-- What the array behind `Log` holds, but for the first element: that one stands for the
    snapshot. -/
def held (rf : Raft n C) : List (LogEntry C) := rf.log.tail ++ rf.spare

theorem held_subset {rf : Raft n C} {e : LogEntry C} (h : e ∈ rf.held) :
    e ∈ rf.log ++ rf.spare := by
  rcases List.mem_append.mp h with h | h
  · exact List.mem_append_left _ (List.mem_of_mem_tail h)
  · exact List.mem_append_right _ h

/-- **The entries of a server**: none is of a later term than the server, and those of its own term
    have a source. -/
structure Sourced (hist : List (Event n C)) (v : Fin n) (rf : Raft n C) : Prop where
  below : ∀ e ∈ rf.log ++ rf.spare, e.term ≤ rf.currentTerm
  snap : rf.snapshot.term ≤ rf.currentTerm
  active : rf.state ≠ .follower → 0 < rf.currentTerm
  first : rf.currentTerm = 0 → rf.log.tail = []
  source : ∀ e ∈ rf.held, e.term = rf.currentTerm → e.term ≠ 0 → Source hist v e

theorem Sourced.mono {hist hist' : List (Event n C)} {v : Fin n} {rf : Raft n C}
    (h : Sourced hist v rf) (hsub : ∀ ev ∈ hist, ev ∈ hist') : Sourced hist' v rf :=
  ⟨h.below, h.snap, h.active, h.first, fun e he ht h0 => (h.source e he ht h0).mono hsub⟩

/-- A later term, or the same one, with the same log. -/
theorem Sourced.term {hist : List (Event n C)} {v : Fin n} {rf rf' : Raft n C}
    (h : Sourced hist v rf) (hl : rf'.log = rf.log) (hsp : rf'.spare = rf.spare)
    (hsn : rf'.snapshot = rf.snapshot) (ht : rf.currentTerm ≤ rf'.currentTerm)
    (ha : rf'.state ≠ .follower → 0 < rf'.currentTerm) : Sourced hist v rf' := by
  refine ⟨fun e he => ?_, by rw [hsn]; exact le_trans h.snap ht, ha, fun h0 => ?_,
    fun e he hterm h0 => ?_⟩
  · rw [hl, hsp] at he
    exact le_trans (h.below e he) ht
  · rw [hl]
    exact h.first (by omega)
  · have he' : e ∈ rf.held := by
      unfold held at he ⊢
      rwa [hl, hsp] at he
    have hb : e.term ≤ rf.currentTerm := h.below e (held_subset he')
    exact h.source e he' (by omega) h0

/-- Another log in the same term: what is new is not of a later term, and has a source. -/
theorem Sourced.log {hist : List (Event n C)} {v : Fin n} {rf rf' : Raft n C}
    (h : Sourced hist v rf) (ht : rf'.currentTerm = rf.currentTerm)
    (hsn : rf'.snapshot.term ≤ rf.currentTerm) (ha : rf'.state ≠ .follower → 0 < rf.currentTerm)
    (hmem : ∀ e ∈ rf'.log ++ rf'.spare, e ∈ rf.log ++ rf.spare ∨ e.term ≤ rf.currentTerm)
    (hheld : ∀ e ∈ rf'.held, e ∈ rf.held ∨ e.term = 0 ∨
      (e.term = rf.currentTerm → Source hist v e))
    (hfirst : rf.currentTerm = 0 → rf'.log.tail = []) : Sourced hist v rf' := by
  refine ⟨fun e he => ?_, by rw [ht]; exact hsn, by rw [ht]; exact ha, by rw [ht]; exact hfirst,
    fun e he hterm h0 => ?_⟩
  · rw [ht]
    rcases hmem e he with he | he
    · exact h.below e he
    · exact he
  · rw [ht] at hterm
    rcases hheld e he with he | hz | hs
    · exact h.source e he hterm h0
    · exact absurd hz h0
    · exact hs hterm

/-! ### The parts of a slice -/

/-- Behind what was appended the array is as it was, or fresh. -/
theorem mem_spare_appendLog {rf : Raft n C} {l sp entries : List (LogEntry C)} {grow : Nat}
    {e : LogEntry C} (he : e ∈ (rf.appendLog l sp entries grow).spare) :
    e ∈ sp ∨ e = LogEntry.zero := by
  unfold appendLog at he
  split at he
  · exact Or.inl (List.mem_of_mem_drop he)
  · exact Or.inr (List.eq_of_mem_replicate he)

theorem mem_appendLog {rf rf' : Raft n C} {entries l sp : List (LogEntry C)} {grow : Nat}
    {e : LogEntry C} (h : rf' = rf.appendLog l sp entries grow) (he : e ∈ rf'.log ++ rf'.spare) :
    e ∈ l ++ sp ∨ e ∈ entries ∨ e = LogEntry.zero := by
  subst h
  rw [appendLog_log] at he
  rcases List.mem_append.mp he with he | he
  · rcases List.mem_append.mp he with he | he
    · exact Or.inl (List.mem_append_left _ he)
    · exact Or.inr (Or.inl he)
  · exact (mem_spare_appendLog he).imp (List.mem_append_right _) Or.inr

/-- `append` behind a first element. -/
theorem held_appendLog {rf rf' : Raft n C} {entries l sp : List (LogEntry C)} {grow : Nat}
    {e : LogEntry C} (h : rf' = rf.appendLog l sp entries grow) (hne : l ≠ []) (he : e ∈ rf'.held) :
    e ∈ l.tail ++ sp ∨ e ∈ entries ∨ e = LogEntry.zero := by
  subst h
  unfold held at he
  rw [appendLog_log, List.tail_append_of_ne_nil hne] at he
  rcases List.mem_append.mp he with he | he
  · rcases List.mem_append.mp he with he | he
    · exact Or.inl (List.mem_append_left _ he)
    · exact Or.inr (Or.inl he)
  · exact (mem_spare_appendLog he).imp (List.mem_append_right _) Or.inr

theorem mem_tail_drop {α : Type} {l : List α} {k : Nat} {e : α} (he : e ∈ (l.drop k).tail) :
    e ∈ l.tail := by
  rw [List.tail_drop, ← List.drop_tail] at he
  exact List.mem_of_mem_drop he

theorem mem_tail_take {α : Type} {l : List α} {k : Nat} {e : α} (he : e ∈ (l.take k).tail) :
    e ∈ l.tail := by
  cases l with
  | nil => simp at he
  | cons x l =>
      cases k with
      | zero => simp at he
      | succ k => exact List.mem_of_mem_take he

theorem mem_sliceLog {rf : Raft n C} {lo hi : Int} {ls : List (LogEntry C) × List (LogEntry C)}
    (h : rf.sliceLog lo hi = some ls) {e : LogEntry C} (he : e ∈ ls.1 ++ ls.2) :
    e ∈ rf.log ++ rf.spare := by
  unfold sliceLog at h
  split at h
  · cases h
    rcases List.mem_append.mp he with he | he
    · exact List.mem_of_mem_take (List.mem_of_mem_drop he)
    · exact List.mem_of_mem_drop he
  · cases h

/-- A slice that begins at the first element and ends behind it has one. -/
theorem sliceLog_ne {rf : Raft n C} (hne : rf.log ≠ []) {hi : Int}
    {ls : List (LogEntry C) × List (LogEntry C)} (h : rf.sliceLog 0 hi = some ls) (hhi : 1 ≤ hi) :
    ls.1 ≠ [] := by
  unfold sliceLog at h
  split at h
  · cases h
    refine List.ne_nil_of_length_pos ?_
    have := List.length_pos_iff.mpr hne
    simp only [Int.toNat_zero, List.drop_zero, List.length_take, List.length_append]
    omega
  · cases h

/-- A slice that ends behind the first element leaves it where it was, or behind. -/
theorem held_sliceLog {rf : Raft n C} (hne : rf.log ≠ []) {lo hi : Int}
    {ls : List (LogEntry C) × List (LogEntry C)} (h : rf.sliceLog lo hi = some ls) (hhi : 1 ≤ hi)
    {e : LogEntry C} (he : e ∈ ls.1.tail ++ ls.2) : e ∈ rf.held := by
  have harr : rf.held = (rf.log ++ rf.spare).tail := by
    unfold held
    cases hl : rf.log with
    | nil => exact absurd hl hne
    | cons x l => rfl
  unfold sliceLog at h
  split at h
  · cases h
    rw [harr]
    rcases List.mem_append.mp he with he | he
    · exact mem_tail_take (mem_tail_drop he)
    · obtain ⟨k, hk⟩ : ∃ k, hi.toNat = k + 1 := ⟨hi.toNat - 1, by omega⟩
      rw [hk, ← List.drop_tail] at he
      exact List.mem_of_mem_drop he
  · cases h

/-! ## 2. What the sections do to the entries -/

theorem trimArgs_spec (rf : Raft n C) (args : AppendEntriesArgs n C) :
    rf.snapshot.index ≤ (rf.trimArgs args).1 ∧
      ∀ e ∈ (rf.trimArgs args).2.2, e ∈ args.entries := by
  unfold trimArgs
  split
  · exact ⟨le_refl _, fun e he => (List.dropWhile_suffix _).subset he⟩
  · refine ⟨?_, fun e he => he⟩
    show rf.snapshot.index ≤ args.prevLogIndex.toNat
    omega

/-- The snapshot install: the log loses a front part, or is replaced by its placeholder. -/
theorem sourced_updateSnapshotUnLock {hist : List (Event n C)} {v : Fin n} {rf : Raft n C}
    (h : Sourced hist v rf) (sn : Snapshot) (hsn : sn.term ≤ rf.currentTerm) (grow : Nat) :
    Sourced hist v (rf.updateSnapshotUnLock sn grow) := by
  by_cases hlt : rf.snapshot.index < sn.index
  · unfold updateSnapshotUnLock
    rw [if_pos hlt]
    split
    · refine h.log rfl hsn h.active (fun e he => Or.inr ?_) (fun e he => Or.inr (Or.inl ?_))
        (fun _ => rfl)
      · rcases List.mem_append.mp he with he | he
        · rw [List.mem_singleton.mp he]
          exact hsn
        · rw [List.eq_of_mem_replicate he]
          exact Nat.zero_le _
      · rw [List.eq_of_mem_replicate (a := LogEntry.zero) he]
        rfl
    · rename_i x xs hd
      have hsuf : x :: xs <:+ rf.log := hd ▸ List.dropWhile_suffix _
      have hdrop := List.suffix_iff_eq_drop.mp hsuf
      have htail : ∀ e ∈ xs, e ∈ rf.log.tail := by
        intro e he
        refine mem_tail_drop (k := rf.log.length - (x :: xs).length) ?_
        rw [← hdrop]
        exact he
      refine h.log rfl hsn h.active (fun e he => Or.inl ?_) (fun e he => Or.inl ?_) (fun h0 => ?_)
      · rcases List.mem_append.mp he with he | he
        · exact List.mem_append_left _ (hsuf.subset he)
        · exact List.mem_append_right _ he
      · rcases List.mem_append.mp he with he | he
        · exact List.mem_append_left _ (htail e he)
        · exact List.mem_append_right _ he
      · refine List.eq_nil_iff_forall_not_mem.mpr fun e he => ?_
        have := htail e he
        rw [h.first h0] at this
        exact List.not_mem_nil this
  · unfold updateSnapshotUnLock
    rw [if_neg hlt]
    exact h

/-- An accepted request: what it adds was sent by a leader of its term. -/
theorem sourced_acceptEntries {hist : List (Event n C)} {v : Fin n} {rf rf' : Raft n C}
    (h : Sourced hist v rf) (hne : rf.log ≠ []) {args : AppendEntriesArgs n C} {grow : Nat}
    (ha : rf.acceptEntries args (rf.trimArgs args).1 (rf.trimArgs args).2.2 grow = some rf')
    (ht : rf.currentTerm = args.term) (hpos : 0 < args.term)
    (hsn : args.logSnapshot.term ≤ args.term) (hes : ∀ e ∈ args.entries, e.term ≤ args.term)
    (hsrc : ∀ e ∈ args.entries, e.term = args.term → Source hist v e) : Sourced hist v rf' := by
  obtain ⟨hprev, htrim⟩ := trimArgs_spec rf args
  obtain ⟨m, log, spare, rfl, hl⟩ := acceptEntries_cases ha
  -- in each of the three cases: old entries, entries of the request, zero values
  have hparts : (∀ e ∈ log ++ spare, e ∈ rf.log ++ rf.spare ∨ e ∈ args.entries ∨
        e = LogEntry.zero) ∧
      ∀ e ∈ log.tail ++ spare, e ∈ rf.held ∨ e ∈ args.entries ∨ e = LogEntry.zero := by
    rcases hl with ⟨_, e⟩ | ⟨_, _, e⟩ | ⟨_, _, ls, hs, e⟩
    · obtain ⟨rfl, rfl⟩ : log = rf.log ∧ spare = rf.spare :=
        ⟨congrArg Raft.log e, congrArg Raft.spare e⟩
      exact ⟨fun e he => Or.inl he, fun e he => Or.inl he⟩
    · exact ⟨fun x hx => (mem_appendLog e hx).imp_right (Or.imp_left (htrim x)),
        fun x hx => (held_appendLog e hne hx).imp_right (Or.imp_left (htrim x))⟩
    · have hhi : 1 ≤ (((rf.trimArgs args).1 : Int) + 1 - rf.snapshot.index) := by omega
      refine ⟨fun x hx => ?_, fun x hx => ?_⟩
      · exact (mem_appendLog e hx).imp (mem_sliceLog hs) (Or.imp_left (htrim x))
      · exact (held_appendLog e (sliceLog_ne hne hs hhi) hx).imp (held_sliceLog hne hs hhi)
          (Or.imp_left (htrim x))
  have hw : Sourced hist v (rf.written m log spare args.leaderCommit
      ((rf.trimArgs args).1 + (rf.trimArgs args).2.2.length)) := by
    refine h.log (by simp) (by simpa using h.snap) (fun hst => absurd (by simp) hst) ?_ ?_ ?_
    · intro e he
      rw [written_log, written_spare] at he
      refine (hparts.1 e he).imp_right fun he => ?_
      rcases he with he | rfl
      · rw [ht]
        exact hes e he
      · exact Nat.zero_le _
    · intro e he
      unfold held at he
      rw [written_log, written_spare] at he
      rcases hparts.2 e he with he | he | rfl
      · exact Or.inl he
      · exact Or.inr (Or.inr fun hterm => hsrc e he (hterm.trans ht))
      · exact Or.inr (Or.inl rfl)
    · intro h0
      omega
  refine (sourced_updateSnapshotUnLock hw args.logSnapshot ?_ grow).term (by simp) (by simp)
    (by simp) (by simp) (by simp)
  rw [written_currentTerm, ht]
  exact hsn

theorem sourced_saveSnapshot {hist : List (Event n C)} {v : Fin n} {rf rf' : Raft n C}
    (h : Sourced hist v rf) (hne : rf.log ≠ []) {index : Nat} {storage : List UInt8}
    (hs : rf.saveSnapshot index storage = some rf') : Sourced hist v rf' := by
  rcases saveSnapshot_cases hs with ⟨_, rfl⟩ | ⟨hlt, x, ls, hx, hls, rfl⟩
  · exact h
  · have hhi : (1 : Int) ≤ rf.log.length := by
      have := List.length_pos_iff.mpr hne
      omega
    suffices hcut : Sourced hist v { rf with
        snapshot := ⟨index, x.term, storage⟩, log := ls.1, spare := ls.2,
        memory := rf.cutOff (rf.log.take (index - rf.snapshot.index)) } from
      hcut.term (by simp) (by simp) (by simp) (by simp) (by simpa using h.active)
    refine h.log rfl ?_ h.active (fun e he => Or.inl (mem_sliceLog hls he))
      (fun e he => Or.inl (held_sliceLog hne hls hhi he)) (fun h0 => ?_)
    · have hmem : x ∈ rf.log := by
        rw [rf.getLogByIndexUnLock_of_le (Nat.le_of_lt hlt)] at hx
        exact List.mem_of_getElem? hx
      exact h.below x (List.mem_append_left _ hmem)
    · -- in term 0 there is no entry a snapshot could end with
      exfalso
      rw [rf.getLogByIndexUnLock_of_le (Nat.le_of_lt hlt)] at hx
      have hlen := (List.getElem?_eq_some_iff.mp hx).1
      have htail := congrArg List.length (h.first h0)
      rw [List.length_tail, List.length_nil] at htail
      omega

theorem sourced_catchUp {hist : List (Event n C)} {v : Fin n} {rf : Raft n C}
    (h : Sourced hist v rf) (t : Nat) : Sourced hist v (rf.catchUp t) := by
  rcases rf.catchUp_cases t with ⟨hlt, e⟩ | ⟨_, e⟩ <;> rw [e]
  · exact h.term (by simp) (by simp) (by simp) (by simpa using le_of_lt hlt) (by simp)
  · exact h

/-- `Start` on a leader. -/
theorem sourced_startLog {hist : List (Event n C)} {v : Fin n} {rf : Raft n C}
    {lg : List (LogEntry C)} (h : Sourced hist v rf) (hne : rf.log ≠ [])
    (hst : rf.state = .leader) (hl : Event.lead v rf.currentTerm lg ∈ hist) (command : Option C)
    (grow : Nat) : Sourced hist v (rf.startLog command grow) := by
  have hpos := h.active (by rw [hst]; nofun)
  obtain ⟨m, sp, happ⟩ := rf.appendLog_eq rf.log rf.spare [rf.newEntry command] grow
  suffices hS : Sourced hist v { rf with
      memory := m, log := rf.log ++ [rf.newEntry command], spare := sp } by
    unfold startLog
    rw [happ]
    exact hS.term (by simp) (by simp) (by simp) (by simp) (by simp [hpos])
  refine h.log rfl h.snap (fun _ => hpos) (fun e he => ?_) (fun e he => ?_) (fun h0 => ?_)
  · refine (mem_appendLog happ.symm he).imp_right fun he => ?_
    rcases he with he | rfl
    · rw [List.mem_singleton.mp he]
      exact le_refl _
    · exact Nat.zero_le _
  · rcases held_appendLog happ.symm hne he with he | he | rfl
    · exact Or.inl he
    · rw [List.mem_singleton.mp he]
      exact Or.inr (Or.inr fun _ => ⟨v, lg, hl, Or.inl rfl⟩)
    · exact Or.inr (Or.inl rfl)
  · omega

/-- **One section, but for the AppendEntries handler.** -/
theorem sourced_change {hist : List (Event n C)} {v : Fin n} {a : Action n C} {rf rf' : Raft n C}
    {evs : List (Event n C)} (h : Sourced hist v rf) (hs : rf.Saved) (hne : rf.log ≠ [])
    (hstart : ∀ k grow, a = .startAppend k grow → rf.state = .leader ∧
      ∃ lg, Event.lead v rf.currentTerm lg ∈ hist)
    (hc : Change v a rf evs rf') :
    Sourced hist v rf' ∨ ∃ k grow, a = .handleAppend k v grow := by
  cases hc with
  | idle => exact Or.inl h
  | send => exact Or.inl h
  | candidate =>
      exact Or.inl (h.term (by simp [becomeCandidate]) (by simp [becomeCandidate])
        (by simp [becomeCandidate]) (by simp [becomeCandidate]) (by simp [becomeCandidate]))
  | vote e _ args =>
      rcases requestVote_cases rf args with ⟨_, e⟩ | ⟨_, _, e⟩ | ⟨_, _, e⟩ <;> rw [e]
      · exact Or.inl h
      · exact Or.inl ((sourced_catchUp h args.term).term (by simp) (by simp) (by simp) (by simp)
          (by simp))
      · exact Or.inl (sourced_catchUp h _)
  | down e u _ t hlt =>
      exact Or.inl (h.term (by simp) (by simp) (by simp) (by simpa using le_of_lt hlt) (by simp))
  | lead e u _ hcand =>
      have hpos := h.active (by simp [hcand])
      exact Or.inl (h.term (by simp [becomeLeader]) (by simp [becomeLeader])
        (by simp [becomeLeader]) (by simp [becomeLeader]) (by simp [becomeLeader, hpos]))
  | start k grow _ command term =>
      obtain ⟨hst, lg, hl⟩ := hstart k grow rfl
      exact Or.inl (sourced_startLog h hne hst hl command grow)
  | append k grow => exact Or.inr ⟨k, grow, rfl⟩
  | next => exact Or.inl (h.term rfl rfl rfl (le_refl _) h.active)
  | count =>
      exact Or.inl (h.term (by simp) (by simp) (by simp) (by simp) (by simpa using h.active))
  | commit =>
      exact Or.inl (h.term (by simp) (by simp) (by simp) (by simp) (by simpa using h.active))
  | apply _ _ h' =>
      obtain ⟨i, ms, rfl⟩ := apply_frame h'
      exact Or.inl (h.term rfl rfl rfl (le_refl _) h.active)
  | snapshot _ _ index storage _ h' => exact Or.inl (sourced_saveSnapshot h hne h')
  | restart grow =>
      obtain ⟨h1, _, h3, h4, _⟩ := make_saved hs hne grow
      refine Or.inl (h.log h1 (by rw [h4]; exact h.snap) (fun hst => absurd (by simp) hst)
        (fun e he => ?_) (fun e he => ?_) (fun h0 => by rw [h3]; exact h.first h0))
      · rw [h3, make_spare] at he
        rcases List.mem_append.mp he with he | he
        · exact Or.inl (List.mem_append_left _ he)
        · rw [List.eq_of_mem_replicate he]
          exact Or.inr (Nat.zero_le _)
      · unfold held at he
        rw [h3, make_spare] at he
        rcases List.mem_append.mp he with he | he
        · exact Or.inl (List.mem_append_left _ he)
        · rw [List.eq_of_mem_replicate he]
          exact Or.inr (Or.inl rfl)

end Raft

/-! ## 3. Between the two sections of Start -/

/-- The sections that may take a server to another term. -/
theorem Raft.Change.same_term {me : Fin n} {a : Action n C} {rf rf' : Raft n C}
    {evs : List (Event n C)} (h : Raft.Change me a rf evs rf') (hs : rf.Saved) (hne : rf.log ≠ []) :
    rf'.currentTerm = rf.currentTerm ∨ a = .startOneElection me ∨ (∃ e, a = .handleVote e me) ∨
      (∃ k grow, a = .handleAppend k me grow) ∨
      ∃ e u t, a = .voteReply e u ∧ rf.currentTerm < t ∧ rf' = rf.stepDown t := by
  cases h with
  | idle => exact Or.inl rfl
  | send => exact Or.inl rfl
  | candidate => exact Or.inr (Or.inl rfl)
  | vote e => exact Or.inr (Or.inr (Or.inl ⟨e, rfl⟩))
  | down e u _ t hlt => exact Or.inr (Or.inr (Or.inr (Or.inr ⟨e, u, t, rfl, hlt, rfl⟩)))
  | lead => exact Or.inl (by simp [Raft.becomeLeader])
  | start => exact Or.inl (by simp)
  | append k grow => exact Or.inr (Or.inr (Or.inr (Or.inl ⟨k, grow, rfl⟩)))
  | next => exact Or.inl rfl
  | count => exact Or.inl (by simp)
  | commit => exact Or.inl (by simp)
  | apply _ _ h =>
      obtain ⟨i, ms, rfl⟩ := Raft.apply_frame h
      exact Or.inl rfl
  | snapshot _ _ index storage _ h =>
      rcases Raft.saveSnapshot_cases h with ⟨_, rfl⟩ | ⟨_, e, ls, _, _, rfl⟩
      · exact Or.inl rfl
      · exact Or.inl (by simp)
  | restart grow => exact Or.inl (Raft.make_saved hs hne grow).1

namespace Cluster

/-- Has `v` a `Start` between its two sections? -/
def starting (s : Cluster n C) (v : Fin n) : Bool :=
  s.starts.any fun S => S.alive && decide (S.owner = v)

/-- The server that hears of a term in a section, and that term: the term of a request that it
    handles, of a refusal that it reads, or of its own election. -/
def hears (s : Cluster n C) : Action n C → Option (Fin n × Nat)
  | .startOneElection v => some (v, (s.rafts v).currentTerm + 1)
  | .handleVote e u =>
      match s.elections[e]? with
      | none => none
      | some E =>
          match E.call u with
          | .sent args => some (u, args.term)
          | _ => none
  | .voteReply e u =>
      match s.elections[e]? with
      | none => none
      | some E =>
          match E.call u with
          | .checked _ reply => if reply.voteGranted then none else some (E.owner, reply.term)
          | _ => none
  | .handleAppend k u _ =>
      match s.casts[k]? with
      | none => none
      | some B =>
          match B.peer u with
          | .sent args _ => some (u, args.term)
          | _ => none
  | .peerReply k u =>
      match s.casts[k]? with
      | none => none
      | some B =>
          match B.peer u with
          | .checked _ _ reply => if reply.success then none else some (B.owner, reply.term)
          | _ => none
  | _ => none

/-- **While a `Start` is between its two sections its server does not hear of a later term.** -/
def hearGuard (s : Cluster n C) (a : Action n C) : Bool :=
  (s.hears a).all fun x => !s.starting x.1 || decide (x.2 ≤ (s.rafts x.1).currentTerm)

theorem hearGuard_le {s : Cluster n C} {a : Action n C} (hg : s.hearGuard a = true) {v : Fin n}
    (hv : s.starting v = true) {t : Nat} (h : s.hears a = some (v, t)) :
    t ≤ (s.rafts v).currentTerm := by
  simpa [hearGuard, h, hv] using hg

/-- **A server that hears of no later term stays in its term**, if it has voted in it. -/
theorem term_unheard {s s' : Cluster n C} {a : Action n C} (h : s.step a = some s')
    (hg : s.termGuard a = true) (hS : ∀ v, (s.rafts v).Saved ∧ (s.rafts v).log ≠ []) {v : Fin n}
    (hv : (s.rafts v).votedFor ≠ none)
    (hq : ∀ t, s.hears a = some (v, t) → t ≤ (s.rafts v).currentTerm) :
    (s'.rafts v).currentTerm = (s.rafts v).currentTerm := by
  obtain ⟨w, evs, hA⟩ := step_acts h
  by_cases hvw : v = w
  · subst hvw
    rcases hA.change with hc | ⟨t, hf, _, _⟩
    · rcases hc.same_term (hS v).1 (hS v).2 with he | rfl | ⟨e, rfl⟩ | ⟨k, grow, rfl⟩ |
        ⟨e, u, t, rfl, hlt, hdown⟩
      · exact he
      · have := hq _ rfl
        omega
      · obtain ⟨E, args, hE, hcall, hs'⟩ := handleVote_inv h
        have hle := hq args.term (by simp only [hears, hE, hcall])
        have hrf : s'.rafts v = ((s.rafts v).requestVote args).1 := by
          rw [hs']
          split <;> exact Function.update_self _ _ _
        rw [hrf]
        rcases Raft.requestVote_cases (s.rafts v) args with ⟨_, e'⟩ | ⟨hge, _, e'⟩ | ⟨hge, _, e'⟩ <;>
          rw [e']
        · simpa [Raft.catchUp_currentTerm hge] using le_antisymm hle hge
        · simpa [Raft.catchUp_currentTerm hge] using le_antisymm hle hge
      · obtain ⟨B, args, next, reply, spawn, hB, hcall, hr⟩ := handleAppend_raft h
        have hle := hq args.term (by simp only [hears, hB, hcall])
        rcases Raft.appendEntries_cases hr with ⟨_, e', _⟩ | ⟨hge, _, ha, _⟩ | ⟨hge, _, e', _⟩
        · rw [e']
        · rw [(Raft.acceptEntries_vote ha).1, Raft.catchUp_currentTerm hge]
          exact le_antisymm hle hge
        · rw [e', Raft.catchUp_currentTerm hge]
          exact le_antisymm hle hge
      · -- the refusal of a vote that takes the server on is one it hears of
        exfalso
        obtain ⟨E, args, reply, hE, _, hcall, hs'⟩ := voteReply_inv h
        have hterm : (s'.rafts v).currentTerm = t := by rw [hdown, Raft.stepDown_currentTerm]
        by_cases hown : v = E.owner
        · subst hown
          rcases hs' with ⟨_, _, rfl⟩ | ⟨_, _, rfl⟩ | ⟨hno, ht, rfl⟩ | ⟨_, rfl⟩
          · simp [setRaft, setCall, record, Raft.becomeLeader] at hterm
            omega
          · exact absurd hterm (Nat.ne_of_lt hlt)
          · have := hq reply.term (by simp [hears, hE, hcall, hno])
            omega
          · exact absurd hterm (Nat.ne_of_lt hlt)
        · refine absurd (Eq.trans ?_ hterm) (Nat.ne_of_lt hlt)
          rcases hs' with ⟨_, _, rfl⟩ | ⟨_, _, rfl⟩ | ⟨_, _, rfl⟩ | ⟨_, rfl⟩ <;>
            first
              | rfl
              | exact congrArg Raft.currentTerm (Function.update_of_ne hown _ _).symm
    · exfalso
      rcases termGuard_fails hg hf with hlt | ⟨_, hn⟩
      · obtain ⟨k, u, B, args, next, reply, rfl, hB, _, hcall, hno, _, rfl, rfl⟩ := hf
        have := hq reply.term (by simp [hears, hB, hcall, hno])
        omega
      · exact hv hn
  · rw [hA.others v hvw]

/-- Where a `Start` between its sections comes from: it was there, or has just seen its server
    lead. -/
theorem starts_turn {s s' : Cluster n C} {a : Action n C} (h : s.step a = some s') :
    ∀ (k : Nat) (S : StartCall n C), s'.starts[k]? = some S → S.alive = true →
      (s.starts[k]? = some S ∧ (∀ grow, a ≠ .restart S.owner grow) ∧
        ∀ grow, a ≠ .startAppend k grow) ∨
      ((s'.rafts S.owner).state = .leader ∧ (s'.rafts S.owner).currentTerm = S.term) := by
  cases a with
  | startState w command =>
      cases Option.some.inj h
      by_cases hl : (s.rafts w).state = .leader
      · simp only [startState, if_pos hl]
        exact forall_get_concat (fun _ _ hS _ => Or.inl ⟨hS, nofun, nofun⟩)
          fun _ => Or.inr ⟨hl, rfl⟩
      · simp only [startState, if_neg hl]
        exact fun _ _ hS _ => Or.inl ⟨hS, nofun, nofun⟩
  | startAppend k grow =>
      obtain ⟨S, _, _, rfl⟩ := startAppend_inv h
      exact forall_get_set (fun i S' hi hS' _ => Or.inl ⟨hS', nofun, fun _ e => hi (by cases e; rfl)⟩)
        nofun
  | restart w grow =>
      intro k S hS hal
      cases Option.some.inj h
      obtain ⟨S₀, hS₀, rfl⟩ := Option.map_eq_some_iff.mp
        ((List.getElem?_map (l := s.starts) (i := k)).symm.trans hS)
      split at hal
      · cases hal
      · rename_i hne
        rw [if_neg hne]
        exact Or.inl ⟨hS₀, fun _ e => hne (by cases e; rfl), nofun⟩
  | _ =>
      intro k S hS hal
      rw [(step_frame h).starts rfl] at hS
      exact Or.inl ⟨hS, nofun, nofun⟩

/-- A server with a `Start` between its sections leads the term that `Start` saw. -/
def StartsLead (s : Cluster n C) : Prop :=
  ∀ (k : Nat) (S : StartCall n C), s.starts[k]? = some S → S.alive = true →
    (s.rafts S.owner).state = .leader ∧ (s.rafts S.owner).currentTerm = S.term

theorem startsLead_step {s s' : Cluster n C} {a : Action n C} (h : s.step a = some s')
    (hgt : s.termGuard a = true) (hgh : s.hearGuard a = true) (hB : Booked s)
    (hI : StartsLead s) : StartsLead s' := by
  intro k S hS hal
  rcases starts_turn h k S hS hal with ⟨hS₀, hr, _⟩ | hnew
  · obtain ⟨hst, ht⟩ := hI k S hS₀ hal
    obtain ⟨lg, hl⟩ := hB.led _ hst
    have hon : s.starting S.owner = true :=
      List.any_eq_true.mpr ⟨S, List.mem_of_getElem? hS₀, by simp [hal]⟩
    have hterm := term_unheard h hgt hB.saved (by rw [hB.voted hl]; nofun)
      fun t => hearGuard_le hgh hon
    rcases keeps_lead h hgt hB hst hl hterm with hst' | ⟨grow, e⟩
    · exact ⟨hst', hterm.trans ht⟩
    · exact absurd e (hr grow)
  · exact hnew

theorem startsLead_reach {G : Cluster n C → Action n C → Prop}
    (hT : ∀ s a, G s a → s.termGuard a = true) (hV : ∀ s a, G s a → s.voteGuard a = true)
    (hH : ∀ s a, G s a → s.hearGuard a = true) {s : Cluster n C}
    (h : Reach step G (init n C) s) : StartsLead s := by
  induction h with
  | start => exact nofun
  | move s s' a hr hg hs ih =>
      exact startsLead_step hs (hT _ _ hg) (hH _ _ hg) (booked_reach hT hV hr) ih

end Cluster

/-! ## 4. Runs -/

namespace Cluster

/-- **`Start` appends while the server leads the term it saw.** -/
def startGuard (s : Cluster n C) : Action n C → Bool
  | .startAppend k _ =>
      match s.starts[k]? with
      | none => true
      | some S =>
          decide ((s.rafts S.owner).state = .leader ∧ (s.rafts S.owner).currentTerm = S.term)
  | _ => true

/-- Then the second section runs on a leader of that term. -/
theorem StartsLead.startGuard {s s' : Cluster n C} {a : Action n C} (hI : StartsLead s)
    (h : s.step a = some s') : s.startGuard a = true := by
  cases a with
  | startAppend k grow =>
      obtain ⟨S, hS, hal, _⟩ := startAppend_inv h
      simp only [Cluster.startGuard, hS, decide_eq_true_eq]
      exact hI k S hS hal
  | _ => rfl

/-- Nothing in a request is of a later term than the request. -/
def Below (args : AppendEntriesArgs n C) : Prop :=
  args.logSnapshot.term ≤ args.term ∧ ∀ e ∈ args.entries, e.term ≤ args.term

/-- The entries of all servers and of all requests. -/
structure EntryInv (s : Cluster n C) : Prop where
  sourced : ∀ v, (s.rafts v).Sourced s.hist v
  led_pos : ∀ v t lg, Event.lead v t lg ∈ s.hist → 0 < t
  requests : Requests Below s
  appended : ∀ v st e i t, Event.append v st e i t ∈ s.hist →
    st = .leader ∧ e.index = i ∧ e.term = t

theorem startGuard_inv {s s' : Cluster n C} {k grow : Nat}
    (h : s.startAppend k grow = some s') (hg : s.startGuard (.startAppend k grow) = true) :
    ∃ S, s.starts[k]? = some S ∧ (s.rafts S.owner).state = .leader ∧
      (s.rafts S.owner).currentTerm = S.term ∧ s'.hist = .append S.owner .leader
        ((s.rafts S.owner).newEntry S.command) ((s.rafts S.owner).newEntry S.command).index S.term
          :: s.hist := by
  obtain ⟨S, hS, _, rfl⟩ := startAppend_inv h
  simp only [startGuard, hS, decide_eq_true_eq] at hg
  refine ⟨S, hS, hg.1, hg.2, ?_⟩
  rw [← hg.1]
  rfl

/-- The AppendEntries handler: its request was sent by a leader of the term. -/
theorem sourced_handleAppend {s s' : Cluster n C} {v : Fin n} {k grow : Nat}
    (h : s.handleAppend k v grow = some s') (hB : Booked s) (hI : EntryInv s)
    (hsub : ∀ ev ∈ s.hist, ev ∈ s'.hist) : (s'.rafts v).Sourced s'.hist v := by
  obtain ⟨B, args, next, reply, spawn, hk, hcall, hr⟩ := handleAppend_raft h
  have hok := hB.casts B (List.mem_of_getElem? hk)
  have hsent := hok.sent v args (by rw [hcall]; rfl)
  have hterm := hok.term v args (by rw [hcall]; rfl)
  obtain ⟨lg, hl⟩ := (hB.casters B (List.mem_of_getElem? hk)).led
    (hok.called (u := v) (by rw [hcall]; nofun)).2
  obtain ⟨hsn, hes⟩ := hI.requests B (List.mem_of_getElem? hk) v args (by rw [hcall]; rfl)
  rcases Raft.appendEntries_cases hr with ⟨_, e, _⟩ | ⟨hle, _, ha, _⟩ | ⟨hle, _, e, _⟩
  · rw [e]
    exact (hI.sourced v).mono hsub
  · refine Raft.sourced_acceptEntries (Raft.sourced_catchUp ((hI.sourced v).mono hsub) _)
      (by simpa using (hB.saved v).2) ha (Raft.catchUp_currentTerm hle)
      (hterm ▸ hI.led_pos _ _ _ hl) hsn hes fun e he ht => ?_
    refine ⟨B.owner, lg, hsub _ ?_, Or.inr ⟨v, args, hsub _ hsent, ht.symm, he⟩⟩
    rw [ht, hterm]
    exact hl
  · rw [e]
    exact Raft.sourced_catchUp ((hI.sourced v).mono hsub) _

/-- What a leader sends is in its log, or in the array behind it. -/
theorem appendArgs_below {rf : Raft n C} {me : Fin n} {next index term commitIndex : Nat}
    {args : AppendEntriesArgs n C} {hist : List (Event n C)} {v : Fin n}
    (h : rf.appendArgs me next index term commitIndex = some args) (hS : rf.Sourced hist v)
    (ht : rf.currentTerm = term) : Below args := by
  obtain ⟨prevLog, es, _, hes, rfl⟩ := Raft.appendArgs_inv h
  refine ⟨ht ▸ hS.snap, fun e he => ?_⟩
  have hslice : ∀ {lo hi : Int}, (rf.sliceLog lo hi).map (·.1) = some es →
      e ∈ rf.log ++ rf.spare := by
    intro lo hi hs
    obtain ⟨ls, hls, rfl⟩ := Option.map_eq_some_iff.mp hs
    exact Raft.mem_sliceLog hls (List.mem_append_left _ he)
  rw [← ht]
  split at hes
  · split at hes
    · exact hS.below e (hslice hes)
    · exact hS.below e (hslice hes)
  · cases hes
    exact absurd he List.not_mem_nil

theorem sourced_step {s s' : Cluster n C} {a : Action n C} (h : s.step a = some s')
    (hgt : s.termGuard a = true) (hgs : s.startGuard a = true) (hB : Booked s) (hI : EntryInv s)
    {w : Fin n} {evs : List (Event n C)} (hA : Acts s a s' w evs) (v : Fin n) :
    (s'.rafts v).Sourced s'.hist v := by
  have hsub : ∀ ev ∈ s.hist, ev ∈ s'.hist := by
    intro ev hev
    rw [hA.hist]
    exact List.mem_append_right _ hev
  by_cases hv : v = w
  · subst hv
    rcases hA.change with hc | ⟨t, hf, _, e⟩
    · have hstart : ∀ k grow, a = .startAppend k grow → (s.rafts v).state = .leader ∧
          ∃ lg, Event.lead v (s.rafts v).currentTerm lg ∈ s.hist := by
        rintro k grow rfl
        obtain ⟨S, _, hst, _, hh⟩ := startGuard_inv h hgs
        obtain ⟨rfl, _⟩ := hc.append_by_start (hA.evs_one hh ▸ List.mem_cons_self)
        exact ⟨hst, hB.led _ hst⟩
      rcases Raft.sourced_change (hI.sourced v) (hB.saved v).1 (hB.saved v).2 hstart hc with
        hS | ⟨k, grow, rfl⟩
      · exact hS.mono hsub
      · exact sourced_handleAppend h hB hI hsub
    · rw [e]
      refine ((hI.sourced v).mono hsub).term (by simp) (by simp) (by simp) ?_ (by simp)
      rw [Raft.stepDown_currentTerm]
      rcases termGuard_fails hgt hf with ht | ⟨ht, _⟩ <;> omega
  · rw [hA.others v hv]
    exact (hI.sourced v).mono hsub

theorem entryInv_step {s s' : Cluster n C} {a : Action n C} (h : s.step a = some s')
    (hgt : s.termGuard a = true) (hgs : s.startGuard a = true) (hge : s.encodeGuard a)
    (hB : Booked s) (hI : EntryInv s) : EntryInv s' := by
  obtain ⟨w, evs, hA⟩ := step_acts h
  have hS := sourced_step h hgt hgs hB hI hA
  refine ⟨hS, fun v t lg hl => ?_, requests_step h hI.requests ?_ ?_, fun v st e i t ha => ?_⟩
  · rw [hA.hist] at hl
    rcases List.mem_append.mp hl with hl | hl
    · rcases hA.change with hc | ⟨_, _, rfl, _⟩
      · obtain ⟨rfl, rfl, hst⟩ := hc.lead_now hl
        exact (hS v).active (by rw [hst]; nofun)
      · exact absurd hl List.not_mem_nil
    · exact hI.led_pos v t lg hl
  · intro k u B args _ _ ht _ hargs
    exact appendArgs_below hargs (hI.sourced _) ht
  · intro args entries hb hsame
    rw [hsame hge]
    exact hb
  · rw [hA.hist] at ha
    rcases List.mem_append.mp ha with ha | ha
    · rcases hA.change with hc | ⟨_, _, rfl, _⟩
      · obtain ⟨_, k, grow, rfl⟩ := hc.append_by_start ha
        obtain ⟨S, _, _, ht, hh⟩ := startGuard_inv h hgs
        rw [hA.evs_one hh, List.mem_singleton, Event.append.injEq] at ha
        obtain ⟨rfl, rfl, rfl, rfl, rfl⟩ := ha
        exact ⟨rfl, rfl, ht⟩
      · exact absurd ha List.not_mem_nil
    · exact hI.appended v st e i t ha

theorem entryInv_init : EntryInv (init n C) where
  sourced v := by
    have hm : (init n C).rafts v = Raft.fresh ⟨none, []⟩ 0 := Raft.make_none (p := ⟨none, []⟩) rfl 0
    rw [hm]
    refine ⟨fun e he => ?_, le_refl _, fun hst => absurd rfl hst, fun _ => rfl, fun e he => ?_⟩
    · rw [show e = ⟨0, 0, none⟩ from List.mem_singleton.mp he]
      exact le_refl _
    · exact absurd he List.not_mem_nil
  led_pos v t lg hl := absurd hl List.not_mem_nil
  requests B hB := absurd hB List.not_mem_nil
  appended v st e i t ha := absurd ha List.not_mem_nil

theorem entryInv_reach {G : Cluster n C → Action n C → Prop}
    (hT : ∀ s a, G s a → s.termGuard a = true) (hV : ∀ s a, G s a → s.voteGuard a = true)
    (hH : ∀ s a, G s a → s.hearGuard a = true) (hE : ∀ s a, G s a → s.encodeGuard a)
    {s : Cluster n C} (h : Reach step G (init n C) s) : EntryInv s := by
  induction h with
  | start => exact entryInv_init
  | move s s' a hr hg hs ih =>
      exact entryInv_step hs (hT _ _ hg) ((startsLead_reach hT hV hH hr).startGuard hs) (hE _ _ hg)
        (booked_reach hT hV hr) ih

/-- **Only the leader of a term creates entries of that term**: in every run whose steps meet the
    four guards. The first element of `Log` stands for the snapshot and is not counted. -/
theorem only_leader_creates {s : Cluster n C}
    (h : Reach step (fun s a => s.termGuard a = true ∧ s.voteGuard a = true ∧
      s.hearGuard a = true ∧ s.encodeGuard a) (init n C) s) :
    (∀ v st e i t, Event.append v st e i t ∈ s.hist → st = .leader ∧ e.index = i ∧ e.term = t) ∧
    ∀ v k e, (s.rafts v).state ≠ .leader → 1 ≤ k → (s.rafts v).log[k]? = some e →
      e.term = (s.rafts v).currentTerm →
      ∃ u lg, Event.lead u e.term lg ∈ s.hist ∧
        (∀ u' lg', Event.lead u' e.term lg' ∈ s.hist → u' = u) ∧
        ((∃ w args, Event.send u w args ∈ s.hist ∧ args.term = e.term ∧ e ∈ args.entries) ∨
          (u = v ∧ Event.restart v e.term ∈ s.hist)) := by
  have hB := booked_reach (fun _ _ hg => hg.1) (fun _ _ hg => hg.2.1) h
  have hE := entryInv_reach (fun _ _ hg => hg.1) (fun _ _ hg => hg.2.1) (fun _ _ hg => hg.2.2.1)
    (fun _ _ hg => hg.2.2.2) h
  have hT := tenure_reach (fun _ _ hg => hg.1) (fun _ _ hg => hg.2.1) h
  refine ⟨hE.appended, fun v k e hst hk he ht => ?_⟩
  have htail : e ∈ (s.rafts v).log.tail := by
    obtain ⟨k, rfl⟩ : ∃ j, k = j + 1 := ⟨k - 1, by omega⟩
    rw [← List.getElem?_tail] at he
    exact List.mem_of_getElem? he
  have h0 : e.term ≠ 0 := by
    intro h0
    rw [(hE.sourced v).first (ht ▸ h0)] at htail
    exact List.not_mem_nil htail
  obtain ⟨u, lg, hl, hs⟩ := (hE.sourced v).source e (List.mem_append_left _ htail) ht h0
  refine ⟨u, lg, hl, fun u' lg' hl' => lead_unique hB.elect hB.votes hl' hl, ?_⟩
  rcases hs with rfl | hs
  · exact Or.inr ⟨rfl, ((hT u e.term lg hl).2 ht).resolve_left hst⟩
  · exact Or.inl hs

/-- Server 0 leads term 1, starts command 7 and sends it to server 1, which takes it. -/
def oneEntry : List (Action 3 Nat) :=
  oneVote ++ ([.voteReply 0 1, .startState 0 (some 7), .startAppend 0 0, .castState 0, .castTerm 0,
    .peerState 0 1, .peerArgs 0 1, .encode 0 1 9, .handleAppend 0 1 0] : List (Action 3 Nat))

/-- Server 1, a follower in term 1, holds the entry of term 1: server 0 has sent it. -/
theorem only_leader_creates_sent : ∃ s : Cluster 3 Nat,
    Reach step (fun s a => s.termGuard a = true ∧ s.voteGuard a = true ∧
      s.hearGuard a = true ∧ s.encodeGuard a) (init 3 Nat) s ∧ (s.rafts 1).state = .follower ∧
    (s.rafts 1).currentTerm = 1 ∧ (s.rafts 1).log[1]? = some ⟨1, 1, some 7⟩ ∧
    ∃ w args, Event.send 0 w args ∈ s.hist ∧ args.term = 1 ∧ ⟨1, 1, some 7⟩ ∈ args.entries := by
  have run : (exec step (fun s a => s.termGuard a && (s.voteGuard a && (s.hearGuard a &&
      decide (s.encodeGuard a)))) (init 3 Nat) oneEntry).any (fun s =>
        decide ((s.rafts 1).state = .follower ∧
        (s.rafts 1).currentTerm = 1 ∧ (s.rafts 1).log[1]? = some ⟨1, 1, some 7⟩ ∧
        Event.lead 0 1 [⟨0, 0, none⟩] ∈ s.hist)) = true := by decide +kernel
  obtain ⟨s, hr, run⟩ := exists_of_exec run
  obtain ⟨hst, ht, he, hl⟩ := of_decide_eq_true run
  have hr' := hr.mono fun s a (hg : _ = true) => by simpa using hg
  obtain ⟨u, lg, _, huniq, hs⟩ := (only_leader_creates hr').2 1 1 _ (by rw [hst]; nofun)
    (le_refl _) he ht.symm
  obtain rfl := huniq 0 _ hl
  rcases hs with ⟨w, args, hs, hterm, hmem⟩ | ⟨h01, _⟩
  · exact ⟨s, hr', hst, ht, he, w, args, hs, hterm, hmem⟩
  · cases h01

/-- **Without the guard**: between the two sections of `Start` server 0, the leader of term 1, votes
    for server 1 in term 2. It appends as a follower; `Start` returns term 1, the entry is of term
    2, and nobody leads term 2. -/
theorem follower_creates : ∃ s : Cluster 3 Nat, Reach step AnyStep (init 3 Nat) s ∧
    Event.append 0 .follower ⟨1, 2, some 7⟩ 1 1 ∈ s.hist ∧ (s.rafts 0).state = .follower ∧
    (s.rafts 0).currentTerm = 2 ∧ (s.rafts 0).log[1]? = some ⟨1, 2, some 7⟩ ∧
    (∀ u lg, Event.lead u 2 lg ∉ s.hist) ∧ ∀ u w args, Event.send u w args ∉ s.hist := by
  have run : (exec step (fun _ _ => true) (init 3 Nat)
      (oneVote ++ ([.voteReply 0 1, .startState 0 (some 7), .startOneElection 1, .voteArgs 1,
        .handleVote 1 0, .startAppend 0 0] : List (Action 3 Nat)))).any (fun s =>
        decide ((s.rafts 0).state = .follower ∧ (s.rafts 0).currentTerm = 2 ∧
          (s.rafts 0).log[1]? = some ⟨1, 2, some 7⟩ ∧
          s.hist = [.append 0 .follower ⟨1, 2, some 7⟩ 1 1, .vote 0 1 2, .vote 1 1 2,
            .lead 0 1 [⟨0, 0, none⟩], .vote 1 0 1, .vote 0 0 1])) = true := by decide +kernel
  obtain ⟨s, hr, run⟩ := exists_of_run run
  obtain ⟨hst, ht, he, hh⟩ := of_decide_eq_true run
  refine ⟨s, hr, ?_, hst, ht, he, ?_, ?_⟩ <;> rw [hh] <;> simp

end Cluster

end Mit6824
