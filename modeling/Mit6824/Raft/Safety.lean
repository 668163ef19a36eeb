/-
  File:      Mit6824/Raft/Safety.lean
  Subject:   WHAT THE BOARD SAYS ABOUT GUARDED RUNS: deliveries and commits.

  * `state_machine_safety` -- in every run whose steps meet the five guards, two commands that any
    servers ever deliver for one index are the same;
  * `delivered_apart` -- without them two leaders of one term deliver different commands for
    index 1;
  * `Unsnapped` -- in a run without `SaveSnapshot` no snapshot is ever made or sent;
  * `commit_replicated` -- in every such run whose steps meet the first four guards, a commit has
    been acknowledged by a majority, in its term and with the committer's entries;
  * `committed_alone` -- without `commitGuard` a late count of an old broadcast commits an entry
    that only the committer holds.
-/
import Mit6824.Raft.SimLog

namespace Mit6824

open Lib

variable {n : Nat} {C : Type}

namespace Cluster

/-! ## 1. State machine safety -/

/-- The guards of the last files together. -/
structure SafeStep (s : Cluster n C) (a : Action n C) : Prop where
  term : s.termGuard a = true
  vote : s.voteGuard a = true
  start : s.startGuard a = true
  commit : s.commitGuard a = true
  gap : s.gapGuard a = true
  encode : s.encodeGuard a

theorem SafeStep.allowed {s : Cluster n C} {a : Action n C} (h : SafeStep s a) : Allowed s a :=
  ⟨h.term, h.vote, h.start, h.commit, fun _ _ ht => gapGuard_takes h.gap ht, h.encode⟩

theorem onBoard_safe {s : Cluster n C} (h : Reach step SafeStep (init n C) s) :
    ∃ a, OnBoard s a := by
  obtain ⟨a, _, hS⟩ := onBoard_reach (fun _ _ hg => ⟨hg.term, hg.vote⟩)
    (fun _ _ _ _ hg _ => hg.allowed) .start h onBoard_init
  exact ⟨a, hS⟩

/-- Two commands of settled entries with one index are the same. -/
theorem delivered_unique {a : Board (Fin n) (LogEntry C)} (hI : Good a) {c c' : Option C} {i : Nat}
    (h : Delivered a ⟨true, .value c, i⟩) (h' : Delivered a ⟨true, .value c', i⟩) : c = c' := by
  obtain ⟨u, P, e, hP, he, hc⟩ := h rfl
  obtain ⟨u', P', e', hP', he', hc'⟩ := h' rfl
  have heq : e = e' := by
    rcases Nat.le_total P.length P'.length with hle | hle
    · have := get_of_begins (hI.settled_compare hP hP' hle) he
      exact Option.some.inj (this.symm.trans he')
    · have := get_of_begins (hI.settled_compare hP' hP hle) he'
      exact Option.some.inj (he.symm.trans this)
  rw [Payload.value.injEq] at hc hc'
  rw [hc, hc', heq]

/-- What a server has ever sent is settled. -/
theorem delivered_everSent {s : Cluster n C} {a : Board (Fin n) (LogEntry C)} (hS : OnBoard s a)
    {v : Fin n} {m : ApplyMsg C} (hm : m ∈ s.everSent v) : Delivered a m := by
  rcases List.mem_append.mp hm with hm | hm
  · exact hS.past v m hm
  · exact (hS.mirror v).chan m hm

/-- **State machine safety.** -/
theorem state_machine_safety {s : Cluster n C} (h : Reach step SafeStep (init n C) s)
    {v v' : Fin n} {c c' : Option C} {i : Nat} (hm : ⟨true, .value c, i⟩ ∈ s.everSent v)
    (hm' : ⟨true, .value c', i⟩ ∈ s.everSent v') : c = c' := by
  obtain ⟨a, hS⟩ := onBoard_safe h
  exact delivered_unique hS.good (delivered_everSent hS hm) (delivered_everSent hS hm')

/-- The entry of server 0 is committed and delivered there, and then at server 1. -/
def oneDelivery : List (Action 3 Nat) :=
  oneEntry ++ ([.peerCheck 0 1, .peerReply 0 1, .apply 0, .beatState 0, .beatSend 0, .castState 1,
    .castTerm 1, .peerState 1 1, .peerArgs 1 1, .encode 1 1 9, .handleAppend 1 1 0,
    .apply 1] : List (Action 3 Nat))

theorem state_machine_safety_delivered : ∃ s : Cluster 3 Nat,
    Reach step SafeStep (init 3 Nat) s ∧ ⟨true, .value (some 7), 1⟩ ∈ s.everSent 0 ∧
    ⟨true, .value (some 7), 1⟩ ∈ s.everSent 1 ∧
    ∀ v c, ⟨true, .value c, 1⟩ ∈ s.everSent v → some 7 = c := by
  have run : (exec step (fun s a => s.termGuard a && (s.voteGuard a && (s.startGuard a &&
      (s.commitGuard a && (s.gapGuard a && decide (s.encodeGuard a)))))) (init 3 Nat)
      oneDelivery).any (fun s =>
        decide (⟨true, .value (some 7), 1⟩ ∈ s.everSent 0 ∧
          ⟨true, .value (some 7), 1⟩ ∈ s.everSent 1)) = true := by decide +kernel
  obtain ⟨s, hr, run⟩ := exists_of_exec run
  obtain ⟨h0, h1⟩ := of_decide_eq_true run
  have hr' : Reach step SafeStep (init 3 Nat) s := by
    refine hr.mono fun s a hg => ?_
    simp only [Bool.and_eq_true, decide_eq_true_eq] at hg
    obtain ⟨ht, hv, hst, hc, hgap, he⟩ := hg
    exact ⟨ht, hv, hst, hc, hgap, he⟩
  exact ⟨s, hr', h0, h1, fun v c hc => state_machine_safety hr' h0 hc⟩

/-- **Without the guards**: servers 0 and 2 both lead term 2, each starts a command of its own at
    index 1, and server 1 acknowledges the one and then the other. -/
theorem delivered_apart : ∃ s : Cluster 3 Nat, Reach step AnyStep (init 3 Nat) s ∧
    ⟨true, .value (some 7), 1⟩ ∈ s.everSent 0 ∧ ⟨true, .value (some 8), 1⟩ ∈ s.everSent 2 := by
  have run : (exec step (fun _ _ => true) (init 3 Nat)
      (oneVote ++ ([.startOneElection 0, .voteReply 0 1, .startOneElection 2, .startOneElection 2,
        .voteArgs 3, .voteArgs 3, .handleVote 3 1, .voteCheck 3 1, .voteReply 3 1,
        .startState 0 (some 7), .startAppend 0 0, .castState 0, .castTerm 0, .peerState 0 1,
        .peerArgs 0 1, .encode 0 1 9, .handleAppend 0 1 0, .peerCheck 0 1, .peerReply 0 1, .apply 0,
        .startState 2 (some 8), .startAppend 1 0, .castState 1, .castTerm 1, .peerState 1 1,
        .peerArgs 1 1, .encode 1 1 9, .handleAppend 1 1 0, .peerCheck 1 1, .peerReply 1 1,
        .apply 2] :
        List (Action 3 Nat)))).any
        (fun s => decide (⟨true, .value (some 7), 1⟩ ∈ s.everSent 0 ∧
          ⟨true, .value (some 8), 1⟩ ∈ s.everSent 2)) = true := by decide +kernel
  obtain ⟨s, hr, run⟩ := exists_of_run run
  exact ⟨s, hr, of_decide_eq_true run⟩

end Cluster

/-! ## 2. Runs without snapshots -/

def Action.saves : Action n C → Bool
  | .saveSnapshot _ _ _ => true
  | _ => false

/-- Only `SaveSnapshot` and the AppendEntries handler move the snapshot. -/
theorem Raft.Change.snapshot_cases {me : Fin n} {a : Action n C} {rf rf' : Raft n C}
    {evs : List (Event n C)} (h : Raft.Change me a rf evs rf') (hs : rf.Saved) (hne : rf.log ≠ []) :
    rf'.snapshot = rf.snapshot ∨ (∃ k grow, a = .handleAppend k me grow) ∨ a.saves = true := by
  cases h with
  | idle => exact Or.inl rfl
  | send => exact Or.inl rfl
  | candidate => exact Or.inl (by simp [Raft.becomeCandidate])
  | vote e _ args =>
      rcases Raft.requestVote_cases rf args with ⟨_, e⟩ | ⟨_, _, e⟩ | ⟨_, _, e⟩ <;> rw [e] <;>
        exact Or.inl (by simp)
  | down => exact Or.inl (by simp)
  | lead => exact Or.inl (by simp [Raft.becomeLeader])
  | start => exact Or.inl (by simp)
  | append k grow => exact Or.inr (Or.inl ⟨k, grow, rfl⟩)
  | next => exact Or.inl rfl
  | count => exact Or.inl (by simp)
  | commit => exact Or.inl (by simp)
  | apply _ _ h =>
      obtain ⟨i, ms, rfl⟩ := Raft.apply_frame h
      exact Or.inl rfl
  | snapshot => exact Or.inr (Or.inr rfl)
  | restart grow => exact Or.inl (Raft.make_saved hs hne grow).2.2.2.1

/-- A request without a snapshot installs none. -/
theorem Raft.appendEntries_snapshot {rf rf' : Raft n C} {args : AppendEntriesArgs n C} {grow : Nat}
    {reply : AppendEntriesReply} {spawn : Bool}
    (h : rf.appendEntries args grow = some (rf', reply, spawn))
    (h0 : args.logSnapshot.index = 0) : rf'.snapshot = rf.snapshot := by
  rcases Raft.appendEntries_cases h with ⟨_, rfl, _⟩ | ⟨_, _, ha, _⟩ | ⟨_, _, rfl, _⟩
  · rfl
  · obtain ⟨m, log, spare, rfl, _⟩ := Raft.acceptEntries_cases ha
    rw [Raft.persist_snapshot, Raft.updateSnapshotUnLock_snapshot, h0, if_neg (Nat.not_lt_zero _),
      Raft.written_snapshot, Raft.catchUp_snapshot]
  · exact Raft.catchUp_snapshot _ _

/-- The log an entry of the record shows. -/
def Event.shownLog : Event n C → Option (List (LogEntry C))
  | .lead _ _ lg | .ack _ _ lg | .commit _ _ _ lg => some lg
  | _ => none

/-- What a section shows is a log of the server, before or after it. -/
theorem Raft.Change.shown {me : Fin n} {a : Action n C} {rf rf' : Raft n C}
    {evs : List (Event n C)} (h : Raft.Change me a rf evs rf') {ev : Event n C} (hev : ev ∈ evs)
    {lg : List (LogEntry C)} (hl : ev.shownLog = some lg) : lg = rf.log ∨ lg = rf'.log := by
  cases h with
  | idle => cases hev
  | send => rw [List.mem_singleton.mp hev] at hl; cases hl
  | candidate => rw [List.mem_singleton.mp hev] at hl; cases hl
  | vote e _ args =>
      split at hev
      · rw [List.mem_singleton.mp hev] at hl; cases hl
      · cases hev
  | down => cases hev
  | lead => rw [List.mem_singleton.mp hev] at hl; exact Or.inl (Option.some.inj hl).symm
  | start => rw [List.mem_singleton.mp hev] at hl; cases hl
  | append k grow _ _ args reply spawn h =>
      split at hev
      · rw [List.mem_singleton.mp hev] at hl; exact Or.inr (Option.some.inj hl).symm
      · cases hev
  | next => cases hev
  | count => cases hev
  | commit => rw [List.mem_singleton.mp hev] at hl; exact Or.inl (Option.some.inj hl).symm
  | apply => cases hev
  | snapshot => cases hev
  | restart => rw [List.mem_singleton.mp hev] at hl; cases hl

namespace Cluster

/-- **No snapshot anywhere**: not in a server, not in a request. -/
structure Unsnapped (s : Cluster n C) : Prop where
  snap : ∀ v, (s.rafts v).snapshot.index = 0
  sent : Requests (fun args => args.logSnapshot.index = 0) s

theorem unsnapped_step {s s' : Cluster n C} {a : Action n C} (h : s.step a = some s')
    (ha : a.saves = false) (hs : ∀ v, (s.rafts v).Saved ∧ (s.rafts v).log ≠ [])
    (hI : Unsnapped s) : Unsnapped s' := by
  obtain ⟨w, evs, hA⟩ := step_acts h
  refine ⟨fun v => ?_, requests_step h hI.sent ?_ fun args entries h0 _ => h0⟩
  · by_cases hv : v = w
    · subst hv
      rcases hA.change with hc | ⟨t, _, _, e⟩
      · rcases hc.snapshot_cases (hs v).1 (hs v).2 with e | ⟨k, grow, rfl⟩ | hsave
        · rw [e]
          exact hI.snap v
        · obtain ⟨B, args, next, reply, spawn, hk, hcall, hr⟩ := handleAppend_raft h
          have h0 := hI.sent B (List.mem_of_getElem? hk) v args (by rw [hcall]; rfl)
          rw [Raft.appendEntries_snapshot hr h0]
          exact hI.snap v
        · rw [ha] at hsave
          cases hsave
      · rw [e, Raft.stepDown_snapshot]
        exact hI.snap v
    · rw [hA.others v hv]
      exact hI.snap v
  · rintro k u B args rfl _ _ _ hargs
    obtain ⟨_, _, _, _, e⟩ := Raft.appendArgs_inv hargs
    rw [e]
    exact hI.snap B.owner

theorem unsnapped_reach {G : Cluster n C → Action n C → Prop} (hG : ∀ s a, G s a → a.saves = false)
    {s : Cluster n C} (h : Reach step G (init n C) s) : Unsnapped s := by
  induction h with
  | start => exact ⟨fun v => by rw [show (init n C).rafts v = Raft.fresh ⟨none, []⟩ 0 from
      Raft.make_none (p := ⟨none, []⟩) rfl 0]; rfl, fun B hB => absurd hB List.not_mem_nil⟩
  | move s s' a hr hg hs ih => exact unsnapped_step hs (hG _ _ hg) (saved_reach hr) ih

/-- Without snapshots a request never has a gap. -/
theorem Unsnapped.gapOk {s : Cluster n C} (hU : Unsnapped s) {a : Action n C} {u : Fin n}
    {args : AppendEntriesArgs n C} (h : s.Takes a u args) :
    ((s.rafts u).catchUp args.term).gapOk args = true := by
  obtain ⟨k, grow, B, next, _, hk, hp, _, _⟩ := h
  exact Raft.gapOk_of_zero _ (hU.sent B (List.mem_of_getElem? hk) u args (by rw [hp]; rfl))

/-! ## 3. Commits -/

/-- The first four guards, in a run without snapshots. -/
structure PlainStep (s : Cluster n C) (a : Action n C) : Prop where
  plain : a.saves = false
  term : s.termGuard a = true
  vote : s.voteGuard a = true
  start : s.startGuard a = true
  commit : s.commitGuard a = true

/-- ... in which the requests go out as they were built. -/
structure IntactStep (s : Cluster n C) (a : Action n C) : Prop extends PlainStep s a where
  encode : s.encodeGuard a

/-- The same, computed. -/
def intactGuard [DecidableEq C] (s : Cluster n C) (a : Action n C) : Bool :=
  !a.saves && (s.termGuard a && (s.voteGuard a && (s.startGuard a && (s.commitGuard a &&
    decide (s.encodeGuard a)))))

theorem intact_of_guard [DecidableEq C] {s : Cluster n C} {a : Action n C}
    (h : s.intactGuard a = true) : IntactStep s a := by
  simp only [intactGuard, Bool.and_eq_true, Bool.not_eq_true', decide_eq_true_eq] at h
  obtain ⟨hp, ht, hv, hst, hc, he⟩ := h
  exact ⟨⟨hp, ht, hv, hst, hc⟩, he⟩

theorem IntactStep.allowed {s : Cluster n C} {a : Action n C} (h : IntactStep s a)
    (hr : Reach step IntactStep (init n C) s) : Allowed s a :=
  ⟨h.term, h.vote, h.start, h.commit, fun _ _ ht =>
    (unsnapped_reach (fun _ _ hg => hg.plain) hr).gapOk ht, h.encode⟩

theorem onBoard_intact {s₁ s₂ : Cluster n C} (h₁ : Reach step IntactStep (init n C) s₁)
    (h₂ : Reach step IntactStep s₁ s₂) {a : Board (Fin n) (LogEntry C)} (hS : OnBoard s₁ a) :
    ∃ a', a ≤ a' ∧ OnBoard s₂ a' :=
  onBoard_reach (fun _ _ hg => ⟨hg.term, hg.vote⟩) (fun _ _ _ hr hg _ => hg.allowed hr) h₁ h₂ hS

/-- Without snapshots every log on record is a whole one: it starts at index 0. -/
theorem shown_whole {s : Cluster n C} (h : Reach step IntactStep (init n C) s) :
    ∀ ev ∈ s.hist, ∀ lg, ev.shownLog = some lg → ∀ e, lg[0]? = some e → e.index = 0 := by
  -- all logs of the run are aligned, at a snapshot of index 0
  have hhead : ∀ {s : Cluster n C}, Reach step IntactStep (init n C) s → ∀ v e,
      (s.rafts v).log[0]? = some e → e.index = 0 := by
    intro s hr v e he
    obtain ⟨a, _, hS⟩ := onBoard_intact .start hr onBoard_init
    have hi := (hS.mirror v).holds.aligned.run 0 e he
    rwa [(unsnapped_reach (fun _ _ hg => hg.plain) hr).snap v] at hi
  induction h with
  | start => exact fun ev hev => absurd hev List.not_mem_nil
  | move s s' a hr hg hs ih =>
      obtain ⟨w, evs, hA⟩ := step_acts hs
      intro ev hev lg hl e he
      rw [hA.hist] at hev
      rcases List.mem_append.mp hev with hnew | hold
      · rcases hA.change with hc | ⟨_, _, rfl, _⟩
        · rcases hc.shown hnew hl with rfl | rfl
          · exact hhead hr w e he
          · exact hhead (.move _ _ _ hr hg hs) w e he
        · exact absurd hnew List.not_mem_nil
      · exact ih ev hold lg hl e he

/-- A whole log is what it is a cut of. -/
theorem whole_of_cut {j : Nat} {lg G : List (LogEntry C)} (h : CutAt j lg G)
    (h0 : ∀ e, lg[0]? = some e → e.index = 0) : lg = G := by
  obtain ⟨x, y, hy, hst, hl⟩ := h.head
  have hj : j = 0 := by
    have h1 := h0 x (by rw [hl]; rfl)
    have h2 := h.run j y hy
    rw [hst.1] at h1
    omega
  subst hj
  exact h.eq_whole

/-- Both logs hold the same entries at the indices from 1 to `i`. -/
def SameUpTo (i : Nat) (lg lg' : List (LogEntry C)) : Prop :=
  ∀ k, 1 ≤ k → k ≤ i → ∃ e, lg[k]? = some e ∧ lg'[k]? = some e ∧ e.index = k

theorem sameUpTo_of_begins {i : Nat} {lg lg' : List (LogEntry C)} (hrun : From 0 lg)
    (hi : i < lg.length) (h : lg.take (i + 1) <+: lg') : SameUpTo i lg lg' := by
  intro k _ hk
  obtain ⟨e, he⟩ : ∃ e, lg[k]? = some e := ⟨_, List.getElem?_eq_getElem (by omega)⟩
  refine ⟨e, he, get_of_begins h ?_, by rw [hrun k e he]; omega⟩
  rw [List.getElem?_take_of_lt (by omega)]
  exact he

/-- **A commit is replicated**: when `v` sets `commitIndex = i` in term `t`, a majority, `v` among
    them, hold its entries up to `i`; the others have acknowledged in term `t` with such a log. -/
theorem commit_replicated {s : Cluster n C} (h : Reach step IntactStep (init n C) s)
    {later earlier : List (Event n C)} {v : Fin n} {t i : Nat} {lg : List (LogEntry C)}
    (hh : s.hist = later ++ .commit v t i lg :: earlier) :
    ∃ Q : Finset (Fin n), n / 2 + 1 ≤ Q.card ∧ v ∈ Q ∧ SameUpTo i lg lg ∧
      ∀ u ∈ Q, u = v ∨ ∃ lg', Event.ack u t lg' ∈ earlier ∧ SameUpTo i lg lg' := by
  obtain ⟨a, _, hS⟩ := onBoard_intact .start h onBoard_init
  have hshown := shown_whole h
  have hmem : Event.commit v t i lg ∈ s.hist := by
    rw [hh]
    exact List.mem_append_right _ List.mem_cons_self
  obtain ⟨_, _, j, G, hG, _, hi, Q, hQ, hv, hall⟩ := hS.records.commit later earlier v t i lg hh
  obtain rfl := whole_of_cut hG (hshown _ hmem lg rfl)
  have hself : lg.take (i + 1) <+: lg := List.take_prefix _ _
  refine ⟨Q, hQ, hv, sameUpTo_of_begins hG.run hi hself, fun u hu => ?_⟩
  rcases hall u hu with rfl | ⟨lg', j', G', hack, hG', hpre⟩
  · exact Or.inl rfl
  · have hmem' : Event.ack u t lg' ∈ s.hist := by
      rw [hh]
      exact List.mem_append_right _ (List.mem_cons_of_mem _ hack)
    obtain rfl := whole_of_cut hG' (hshown _ hmem' lg' rfl)
    exact Or.inr ⟨lg', hack, sameUpTo_of_begins hG.run hi hpre⟩

/-- The commit of server 0 in term 1: server 1 has acknowledged its entry. -/
theorem commit_replicated_first : ∃ (s : Cluster 3 Nat) (earlier : List (Event 3 Nat)),
    Reach step IntactStep (init 3 Nat) s ∧
    s.hist = .commit 0 1 1 [⟨0, 0, none⟩, ⟨1, 1, some 7⟩] :: earlier ∧
    ∃ Q : Finset (Fin 3), 2 ≤ Q.card ∧ ∀ u ∈ Q, u = 0 ∨
      ∃ lg', Event.ack u 1 lg' ∈ earlier ∧ lg'[1]? = some ⟨1, 1, some 7⟩ := by
  have run : (exec step intactGuard (init 3 Nat)
      (oneEntry ++ [.peerCheck 0 1, .peerReply 0 1])).any (fun s =>
        decide (s.hist = [] ++ .commit 0 1 1 [⟨0, 0, none⟩, ⟨1, 1, some 7⟩] :: s.hist.tail)) =
      true := by decide +kernel
  obtain ⟨s, hr, run⟩ := exists_of_exec run
  have hh := of_decide_eq_true run
  have hr' : Reach step IntactStep (init 3 Nat) s := hr.mono fun _ _ => intact_of_guard
  obtain ⟨Q, hQ, _, _, hall⟩ := commit_replicated hr' hh
  refine ⟨s, s.hist.tail, hr', hh, Q, hQ, fun u hu => ?_⟩
  rcases hall u hu with rfl | ⟨lg', hack, hsame⟩
  · exact Or.inl rfl
  · obtain ⟨e, he, he', _⟩ := hsame 1 (le_refl _) (le_refl _)
    cases he
    exact Or.inr ⟨lg', hack, he'⟩

/-- Server 0 leads term 1 with entries 1 and 2; server 2 leads term 2 with an entry 1 of its own.
    Server 0 leads term 3: its heartbeat for index 2 is acknowledged by server 1, and the reply has
    passed the check. Server 2 leads term 4 and cuts the log of server 0 to its own entry 1. Server
    0 leads term 5 and starts a new entry 2. -/
def lateCount : List (Action 3 Nat) :=
  oneVote ++ ([.voteReply 0 1, .startState 0 (some 1), .startAppend 0 0, .startState 0 (some 2),
    .startAppend 1 0,
    .startOneElection 2, .startOneElection 2, .voteArgs 2, .voteArgs 2, .handleVote 2 1,
    .voteCheck 2 1, .voteReply 2 1, .startState 2 (some 3), .startAppend 2 0,
    .startOneElection 0, .startOneElection 0, .voteArgs 4, .voteArgs 4, .handleVote 4 1,
    .voteCheck 4 1, .voteReply 4 1, .beatState 0, .beatSend 0, .castState 3, .castTerm 3,
    .peerState 3 1, .peerArgs 3 1, .encode 3 1 9, .handleAppend 3 1 0, .peerCheck 3 1,
    .peerReply 3 1,
    .peerState 3 1, .peerArgs 3 1, .encode 3 1 9, .handleAppend 3 1 0, .peerCheck 3 1,
    .startOneElection 2, .startOneElection 2, .voteArgs 6, .voteArgs 6, .handleVote 6 1,
    .voteCheck 6 1, .voteReply 6 1, .beatState 2, .beatSend 1, .castState 4, .castTerm 4,
    .peerState 4 0, .peerArgs 4 0, .encode 4 0 9, .handleAppend 4 0 0, .peerCheck 4 0,
    .peerReply 4 0,
    .peerState 4 0, .peerArgs 4 0, .encode 4 0 9, .handleAppend 4 0 0,
    .startOneElection 0, .voteArgs 7, .voteArgs 7, .handleVote 7 1, .voteCheck 7 1,
    .voteReply 7 1, .startState 0 (some 4), .startAppend 3 0] : List (Action 3 Nat))

/-- **Without `commitGuard`**: the count of the heartbeat of term 3 commits entry 2 of term 5, which
    nobody has acknowledged. -/
theorem committed_alone : ∃ (s : Cluster 3 Nat) (earlier : List (Event 3 Nat)),
    Reach step (fun _ a => a.saves = false) (init 3 Nat) s ∧
    s.hist = .commit 0 5 2 [⟨0, 0, none⟩, ⟨1, 2, some 3⟩, ⟨2, 5, some 4⟩] :: earlier ∧
    ¬ ∃ Q : Finset (Fin 3), 3 / 2 + 1 ≤ Q.card ∧ ∀ u ∈ Q, u = 0 ∨
      ∃ lg', Event.ack u 5 lg' ∈ earlier := by
  have run : (exec step (fun _ a => !a.saves) (init 3 Nat) (lateCount ++ [.peerReply 3 1])).any
      (fun s => decide (s.hist = .commit 0 5 2 [⟨0, 0, none⟩, ⟨1, 2, some 3⟩, ⟨2, 5, some 4⟩] ::
        s.hist.tail ∧ s.hist.tail.all (fun ev => match ev with
          | .ack _ t _ => t != 5
          | _ => true) = true)) = true := by decide +kernel
  obtain ⟨s, hr, run⟩ := exists_of_exec run
  obtain ⟨hh, hacks⟩ := of_decide_eq_true run
  have hr' : Reach step (fun _ a => a.saves = false) (init 3 Nat) s := by
    refine hr.mono fun _ a hg => ?_
    rwa [Bool.not_eq_true'] at hg
  refine ⟨s, s.hist.tail, hr', hh, ?_⟩
  rintro ⟨Q, hQ, hall⟩
  -- no acknowledgement of term 5 is on record, so the majority would be server 0 alone
  have hone : ∀ u ∈ Q, u = 0 := by
    intro u hu
    rcases hall u hu with h0 | ⟨lg', hack⟩
    · exact h0
    · exact absurd (List.all_eq_true.mp hacks _ hack) (by simp)
  have := Finset.card_le_one.mpr fun u hu w hw => (hone u hu).trans (hone w hw).symm
  omega

end Cluster

end Mit6824
