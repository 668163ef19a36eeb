/-
  File:      Mit6824/Raft/Durable.lean
  Subject:   A CRASH FORGETS NOTHING: one server against an arbitrary environment.

  Here a server stands alone: any handler, any reply, any call of the service may come next, with
  any arguments (`Turn`, `Raft.step`), whether or not a cluster could produce them.

  * `Raft.durable` -- term, vote, log and snapshot: what a reply or a request shows of a server;
  * `Raft.Restores` -- `Make` on the present persister gives the same back;
  * `Raft.Stored` -- what the persister holds at some point of a section, not only at its end;
  * `restores_reach`, `crash_forgets_nothing` -- at every release of `rf.mu`, and at any point;
  * `turn_of_step`, `reach_server` -- every server of a cluster runs through such sections, so
    all this holds of it (`restart_forgets_nothing`).
-/
import Mit6824.Raft.Persist

namespace Mit6824

open Lib

variable {n : Nat} {C : Type}

/-! ## 1. The sections of one server -/

/-- Term, vote, log and snapshot. -/
structure Durable (n : Nat) (C : Type) where
  currentTerm : Nat
  votedFor : Option (Fin n)
  log : List (LogEntry C)
  snapshot : Snapshot
  deriving DecidableEq

/-- The sections that may change a server, with what comes from outside. -/
inductive Turn (n : Nat) (C : Type) where
  | requestVote (args : RequestVoteArgs n)
  | appendEntries (args : AppendEntriesArgs n C) (grow : Nat)
  | startOneElection
  /-- Lines 790-798, the reply carries `term`. -/
  | voteRefused (term : Nat)
  /-- Lines 801-816; `enough` says whether `nVotes` has reached the majority. -/
  | voteGranted (enough : Bool)
  | start (command : Option C) (grow : Nat)
  /-- Lines 576-608. -/
  | entriesRefused (u : Fin n) (argsTerm nextIndex : Nat) (reply : AppendEntriesReply)
  /-- Lines 615-632; `agree` says whether `nReplica` has reached the majority for the first
      time. -/
  | entriesAccepted (u : Fin n) (index : Nat) (agree : Bool)
  | apply
  | saveSnapshot (index : Nat) (storage : List UInt8)
  | crash (grow : Nat)

namespace Raft

def durable (rf : Raft n C) : Durable n C := ⟨rf.currentTerm, rf.votedFor, rf.log, rf.snapshot⟩

def entriesRefused (rf : Raft n C) (u : Fin n) (argsTerm nextIndex : Nat)
    (reply : AppendEntriesReply) : Option (Raft n C) :=
  if argsTerm < reply.term then some (rf.stepDown reply.term)
  else
    (rf.getNextIndex reply nextIndex).map fun next =>
      { rf with nextIndex := Function.update rf.nextIndex u next }

def entriesAccepted (rf : Raft n C) (u : Fin n) (index : Nat) (agree : Bool) :
    Option (Raft n C) :=
  let rf := rf.matched u index
  if agree = true ∧ rf.state = .leader ∧ rf.commitIndex < index then
    (rf.getLogByIndexUnLock index).map fun e =>
      if e.term = rf.currentTerm then { rf with commitIndex := index } else rf
  else some rf

/-- **One section of the server `me`.** -/
def step (me : Fin n) (rf : Raft n C) : Turn n C → Option (Raft n C)
  | .requestVote args => some (rf.requestVote args).1
  | .appendEntries args grow => (rf.appendEntries args grow).map (·.1)
  | .startOneElection => some (rf.becomeCandidate me)
  | .voteRefused term => some (if rf.currentTerm < term then rf.stepDown term else rf)
  | .voteGranted enough =>
      some (if rf.state = .candidate ∧ enough = true then rf.becomeLeader me else rf)
  | .start command grow => some (rf.startLog command grow)
  | .entriesRefused u argsTerm nextIndex reply => rf.entriesRefused u argsTerm nextIndex reply
  | .entriesAccepted u index agree => rf.entriesAccepted u index agree
  | .apply => rf.apply
  | .saveSnapshot index storage => rf.saveSnapshot index storage
  | .crash grow => some (make rf.persister grow)

/-- **What the persister holds at some point of a section**: what it held before, what it holds
    at the end, and in between what a handler persists that first goes to a later term. A section
    that panics has no end. -/
inductive Stored (me : Fin n) (rf : Raft n C) : Turn n C → Persister n C → Prop where
  | before (sec : Turn n C) : Stored me rf sec rf.persister
  | vote (args : RequestVoteArgs n) (h : rf.currentTerm < args.term) :
      Stored me rf (.requestVote args) (rf.stepDown args.term).persister
  | entries (args : AppendEntriesArgs n C) (grow : Nat) (h : rf.currentTerm < args.term) :
      Stored me rf (.appendEntries args grow) (rf.stepDown args.term).persister
  | after (sec : Turn n C) (rf' : Raft n C) (h : rf.step me sec = some rf') :
      Stored me rf sec rf'.persister

/-! ## 2. What Make restores -/

/-- **`Make` on the present persister gives back term, vote, log and snapshot**, with
    `lastApplied` at the snapshot. -/
def Restores (rf : Raft n C) : Prop :=
  ∀ grow, (make rf.persister grow).durable = rf.durable ∧
    (make rf.persister grow).lastApplied = rf.snapshot.index

theorem Saved.restores {rf : Raft n C} (h : Saved rf) (hne : rf.log ≠ []) : Restores rf := by
  intro grow
  obtain ⟨h1, h2, h3, h4, h5⟩ := make_saved h hne grow
  unfold durable
  rw [h1, h2, h3, h4]
  exact ⟨rfl, h5⟩

theorem restores_persist {rf : Raft n C} (hne : rf.log ≠ []) : Restores rf.persist :=
  (saved_persist rf).restores (by rwa [persist_log])

theorem restores_stepDown {rf : Raft n C} (hne : rf.log ≠ []) (t : Nat) :
    Restores (rf.stepDown t) :=
  restores_persist hne

theorem Restores.congr {rf rf' : Raft n C} (h : Restores rf) (hp : rf'.persister = rf.persister)
    (hd : rf'.durable = rf.durable) : Restores rf' := by
  have hs : rf'.snapshot = rf.snapshot := congrArg Durable.snapshot hd
  unfold Restores
  rw [hp, hd, hs]
  exact h

/-- What `Make` returns restores itself, whatever the persister holds. -/
theorem restores_make (p : Persister n C) (grow : Nat) : Restores (make p grow) := by
  intro grow'
  rw [make_persister]
  cases h : p.raftstate with
  | none =>
      rw [make_none h, make_none h]
      exact ⟨rfl, rfl⟩
  | some d =>
      obtain ⟨ms, e⟩ := make_some h grow
      obtain ⟨ms', e'⟩ := make_some h grow'
      rw [e, e']
      exact ⟨rfl, rfl⟩

/-! ## 3. Every section keeps it -/

theorem restores_appendEntries {rf rf' : Raft n C} {args : AppendEntriesArgs n C} {grow : Nat}
    {reply : AppendEntriesReply} {spawn : Bool} (hs : Restores rf) (hne : rf.log ≠ [])
    (h : rf.appendEntries args grow = some (rf', reply, spawn)) : Restores rf' := by
  have hne' := appendEntries_log_ne hne h
  rcases appendEntries_cases h with ⟨_, rfl, _⟩ | ⟨_, _, ha, _⟩ | ⟨_, _, rfl, _⟩
  · exact hs
  · obtain ⟨m, log, spare, rfl, _⟩ := acceptEntries_cases ha
    exact restores_persist (by rwa [persist_log] at hne')
  · rcases catchUp_cases rf args.term with ⟨_, e⟩ | ⟨_, e⟩ <;> rw [e]
    · exact restores_stepDown hne _
    · exact hs

theorem entriesRefused_cases {rf rf' : Raft n C} {u : Fin n} {argsTerm nextIndex : Nat}
    {reply : AppendEntriesReply} (h : rf.entriesRefused u argsTerm nextIndex reply = some rf') :
    rf' = rf.stepDown reply.term ∨ ∃ f, rf' = { rf with nextIndex := f } := by
  unfold entriesRefused at h
  split at h
  · exact Or.inl (Option.some.inj h).symm
  · obtain ⟨next, _, h⟩ := Option.map_eq_some_iff.mp h
    exact Or.inr ⟨_, h.symm⟩

theorem entriesAccepted_cases {rf rf' : Raft n C} {u : Fin n} {index : Nat} {agree : Bool}
    (h : rf.entriesAccepted u index agree = some rf') :
    rf' = rf.matched u index ∨ rf' = { rf.matched u index with commitIndex := index } := by
  unfold entriesAccepted at h
  dsimp only at h
  split at h
  · obtain ⟨e, _, h⟩ := Option.map_eq_some_iff.mp h
    split at h
    · exact Or.inr h.symm
    · exact Or.inl h.symm
  · exact Or.inl (Option.some.inj h).symm

theorem durable_matched (rf : Raft n C) (u : Fin n) (i : Nat) :
    (rf.matched u i).durable = rf.durable := by
  unfold durable
  rw [matched_currentTerm, matched_votedFor, matched_log, matched_snapshot]

/-- **The step lemma.** Every path that writes one of the four ends in `persist`. -/
theorem restores_step {me : Fin n} {rf rf' : Raft n C} {sec : Turn n C} (hs : Restores rf)
    (hne : rf.log ≠ []) (h : rf.step me sec = some rf') : Restores rf' ∧ rf'.log ≠ [] := by
  cases sec with
  | requestVote args =>
      cases Option.some.inj h
      rcases requestVote_cases rf args with ⟨_, e⟩ | ⟨_, _, e⟩ | ⟨_, _, e⟩ <;> rw [e]
      · exact ⟨hs, hne⟩
      · have hne' : (rf.catchUp args.term).log ≠ [] := by rwa [catchUp_log]
        exact ⟨restores_persist hne', by rwa [persist_log]⟩
      · refine ⟨?_, by rwa [catchUp_log]⟩
        rcases catchUp_cases rf args.term with ⟨_, e⟩ | ⟨_, e⟩ <;> rw [e]
        · exact restores_stepDown hne _
        · exact hs
  | appendEntries args grow =>
      obtain ⟨⟨rf₁, reply, spawn⟩, ha, rfl⟩ := Option.map_eq_some_iff.mp h
      exact ⟨restores_appendEntries hs hne ha, appendEntries_log_ne hne ha⟩
  | startOneElection =>
      cases Option.some.inj h
      exact ⟨restores_persist hne, by unfold becomeCandidate; rwa [persist_log]⟩
  | voteRefused term =>
      cases Option.some.inj h
      split
      · exact ⟨restores_stepDown hne _, by rwa [stepDown_log]⟩
      · exact ⟨hs, hne⟩
  | voteGranted enough =>
      cases Option.some.inj h
      split
      · exact ⟨restores_persist hne, by unfold becomeLeader; rwa [persist_log]⟩
      · exact ⟨hs, hne⟩
  | start command grow =>
      cases Option.some.inj h
      exact ⟨restores_persist (by simp), by simp⟩
  | entriesRefused u argsTerm nextIndex reply =>
      rcases entriesRefused_cases h with rfl | ⟨f, rfl⟩
      · exact ⟨restores_stepDown hne _, by rwa [stepDown_log]⟩
      · exact ⟨hs.congr rfl rfl, hne⟩
  | entriesAccepted u index agree =>
      have hm : Restores (rf.matched u index) :=
        hs.congr (matched_persister _ _ _) (durable_matched _ _ _)
      have hl : (rf.matched u index).log ≠ [] := by rwa [matched_log]
      rcases entriesAccepted_cases h with rfl | rfl
      · exact ⟨hm, hl⟩
      · exact ⟨hm.congr rfl rfl, hl⟩
  | apply =>
      obtain ⟨i, ms, rfl⟩ := apply_frame h
      exact ⟨hs.congr rfl rfl, hne⟩
  | saveSnapshot index storage =>
      have hne' := saveSnapshot_log_ne hne h
      refine ⟨?_, hne'⟩
      rcases saveSnapshot_cases h with ⟨_, rfl⟩ | ⟨_, e, ls, _, _, rfl⟩
      · exact hs
      · exact restores_persist (by rwa [persist_log] at hne')
  | crash grow =>
      cases Option.some.inj h
      exact ⟨restores_make _ _, make_log_ne _ _⟩

/-- **The run lemma**: from the moment `Make` has returned, on whatever persister. -/
theorem restores_reach {me : Fin n} {p : Persister n C} {grow : Nat} {rf : Raft n C}
    (h : Reach (step me) AnyStep (make p grow) rf) : Restores rf ∧ rf.log ≠ [] := by
  refine Reach.inv (I := fun rf => Restores rf ∧ rf.log ≠ []) ?_ ?_ h
  · exact ⟨restores_make _ _, make_log_ne _ _⟩
  · intro rf sec rf' ih _ hs
    exact restores_step ih.1 ih.2 hs

/-- **A crash forgets nothing.** In every run of a server, at every release of `rf.mu`, `Make` on
    the persister restores exactly its term, vote, log and snapshot, with `lastApplied` at the
    snapshot. And a crash in the middle of a section leaves the server as it was before the
    section, or as it is at its end, or as it was but in a later term it has not voted in: what
    a reply or a request has shown of it before is still there. -/
theorem crash_forgets_nothing {me : Fin n} {p : Persister n C} {grow : Nat} {rf : Raft n C}
    (h : Reach (step me) AnyStep (make p grow) rf) :
    Restores rf ∧
      ∀ sec q grow', Stored me rf sec q →
        (make q grow').durable = rf.durable ∨
        (∃ rf', rf.step me sec = some rf' ∧ (make q grow').durable = rf'.durable) ∨
        (∃ t, rf.currentTerm < t ∧ (make q grow').durable = ⟨t, none, rf.log, rf.snapshot⟩) := by
  obtain ⟨hr, hne⟩ := restores_reach h
  refine ⟨hr, fun sec q grow' hq => ?_⟩
  have later : ∀ t, (make (rf.stepDown t).persister grow').durable =
      ⟨t, none, rf.log, rf.snapshot⟩ := by
    intro t
    rw [(restores_stepDown hne t grow').1]
    simp [durable]
  cases hq with
  | before => exact Or.inl (hr grow').1
  | vote args ht => exact Or.inr (Or.inr ⟨args.term, ht, later _⟩)
  | entries args g ht => exact Or.inr (Or.inr ⟨args.term, ht, later _⟩)
  | after _ rf' hs => exact Or.inr (Or.inl ⟨rf', hs, ((restores_step hr hne hs).1 grow').1⟩)

/-- A server that was elected, appended a command, delivered it, saved a snapshot of it and heard
    of a later term. -/
theorem crash_forgets_nothing_elected :
    ∃ rf : Raft 3 Nat, rf.durable = ⟨4, none, [⟨1, 1, some 7⟩], ⟨1, 1, [42]⟩⟩ ∧ Restores rf := by
  have run : (exec (step (n := 3) (C := Nat) 0) (fun _ _ => true) (make ⟨none, []⟩ 0)
      [.startOneElection, .voteGranted true, .start (some 7) 0, .entriesAccepted 1 1 true, .apply,
        .saveSnapshot 1 [42], .voteRefused 4]).any
      (fun rf => decide (rf.durable = ⟨4, none, [⟨1, 1, some 7⟩], ⟨1, 1, [42]⟩⟩)) = true := by
    decide +kernel
  obtain ⟨rf, hr, hd⟩ := exists_of_run run
  exact ⟨rf, of_decide_eq_true hd, (crash_forgets_nothing hr).1⟩

end Raft

/-! ## 4. The servers of a cluster -/

namespace Cluster

/-- The section after a reply to AppendEntries. -/
theorem turn_of_peerReply {s s' : Cluster n C} {k : Nat} {u : Fin n}
    (h : s.peerReply k u = some s') (v : Fin n) :
    s'.rafts v = s.rafts v ∨ ∃ sec, (s.rafts v).step v sec = some (s'.rafts v) := by
  obtain ⟨B, args, next, reply, _, _, _, h⟩ := peerReply_inv h
  by_cases hv : v = B.owner
  · subst hv
    refine Or.inr ?_
    rcases h with ⟨_, ht, rfl⟩ | ⟨_, ht, next', hn, rfl⟩ | ⟨_, rfl⟩ | ⟨_, hw, hi, ⟨x, hx, hxt⟩, rfl⟩
    · refine ⟨.entriesRefused u args.term next reply, ?_⟩
      simp [Raft.step, Raft.entriesRefused, ht]
    · refine ⟨.entriesRefused u args.term next reply, ?_⟩
      simp [Raft.step, Raft.entriesRefused, ht, hn]
    · refine ⟨.entriesAccepted u B.index false, ?_⟩
      simp [Raft.step, Raft.entriesAccepted]
    · refine ⟨.entriesAccepted u B.index true, ?_⟩
      have hl : (s.rafts B.owner).state = .leader := (of_decide_eq_true hw).2.1
      simp [Raft.step, Raft.entriesAccepted, Raft.matched_getLogByIndexUnLock, hl, hi, hx, hxt]
  · refine Or.inl ?_
    rcases h with ⟨_, _, rfl⟩ | ⟨_, _, _, _, rfl⟩ | ⟨_, rfl⟩ | ⟨_, _, _, _, rfl⟩ <;>
      simp [Function.update_of_ne hv]

/-- **Every step of a cluster is, on each server, one of its sections or nothing.** -/
theorem turn_of_step {s s' : Cluster n C} {a : Action n C} (h : s.step a = some s')
    (v : Fin n) :
    s'.rafts v = s.rafts v ∨ ∃ sec, (s.rafts v).step v sec = some (s'.rafts v) := by
  by_cases hp : ∃ k u, a = .peerReply k u
  · obtain ⟨k, u, rfl⟩ := hp
    exact turn_of_peerReply h v
  obtain ⟨w, evs, hA⟩ := step_acts h
  by_cases hv : v = w
  swap
  · exact Or.inl (hA.others v hv)
  subst hv
  rcases hA.change with hc | ⟨t, ⟨k, u, _, _, _, _, e, _⟩, _⟩
  swap
  · exact absurd ⟨k, u, e⟩ hp
  generalize s'.rafts v = rf' at hc
  generalize s.rafts v = rf at hc
  cases hc with
  | idle => exact Or.inl rfl
  | send => exact Or.inl rfl
  | candidate => exact Or.inr ⟨.startOneElection, rfl⟩
  | vote e _ args => exact Or.inr ⟨.requestVote args, rfl⟩
  | down e u _ t ht => exact Or.inr ⟨.voteRefused t, by rw [Raft.step, if_pos ht]⟩
  | lead e u _ hc => exact Or.inr ⟨.voteGranted true, by rw [Raft.step, if_pos ⟨hc, rfl⟩]⟩
  | start k grow _ command term => exact Or.inr ⟨.start command grow, rfl⟩
  | append k grow _ _ args reply spawn ha =>
      exact Or.inr ⟨.appendEntries args grow, by rw [Raft.step, ha]; rfl⟩
  | next k u _ f => exact absurd ⟨k, u, rfl⟩ hp
  | count k u _ i => exact absurd ⟨k, u, rfl⟩ hp
  | commit k u _ i hl => exact absurd ⟨k, u, rfl⟩ hp
  | apply _ _ ha => exact Or.inr ⟨.apply, ha⟩
  | snapshot _ _ index storage _ hs => exact Or.inr ⟨.saveSnapshot index storage, hs⟩
  | restart grow _ => exact Or.inr ⟨.crash grow, rfl⟩

/-- So a server of a cluster has a run of its own. -/
theorem reach_server {G : Cluster n C → Action n C → Prop} {s : Cluster n C}
    (h : Reach step G (init n C) s) (v : Fin n) :
    Reach (Raft.step v) AnyStep (Raft.make ⟨none, []⟩ 0) (s.rafts v) := by
  induction h with
  | start => exact .start
  | move s s' a _ _ hs ih =>
      rcases turn_of_step hs v with e | ⟨sec, e⟩
      · rw [e]
        exact ih
      · exact .move _ _ sec ih trivial e

/-- **In every run of a cluster a restart leaves every server its term, vote, log and snapshot.** -/
theorem restart_forgets_nothing {G : Cluster n C → Action n C → Prop} {s : Cluster n C}
    (h : Reach step G (init n C) s) (v w : Fin n) (grow : Nat) :
    ((s.restart v grow).rafts w).durable = (s.rafts w).durable := by
  by_cases hw : w = v
  · subst hw
    have e : (s.restart w grow).rafts w = Raft.make (s.rafts w).persister grow :=
      Function.update_self _ _ _
    rw [e]
    exact ((Raft.restores_reach (reach_server h w)).1 grow).1
  · have e : (s.restart v grow).rafts w = s.rafts w := Function.update_of_ne hw _ _
    rw [e]

end Cluster

end Mit6824
