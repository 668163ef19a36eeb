/-
  File:      Mit6824/Labrpc/RaftServer.lean
  Subject:   VOTES OVER A NETWORK WITH CRASHES: Raft servers (raft/raft.go) behind labrpc, under a
             tester that shuts them down and starts them again.

  A server is the `Raft` of `Raft.step`. Its handlers are called by the network, its other sections
  run whenever they like (`work`), with anything for the replies they read. The Persister is copied
  at any moment, also between the two `persist` of a handler that goes to a later term (`midway`).

  A vote that was heard is durable: the voter stays in that term with that vote, or has gone on to a
  later one, and this stands in the tester's `saved`, whatever crashed since. The handler that
  voted may have run on an instance that was already superseded: then nobody heard of it.

  * `Raft.step_voteStep` -- what any section does to term and vote;
  * `raftServer`, `noting_vote` -- a vote is a note in the sense of `Lib.Rpc`;
  * `vote_saved` -- **a vote that was heard stands in `saved`**;
  * `heard_once` -- **no server is heard to vote for two candidates in one term.**
-/
import Mit6824.Labrpc.Refine
import Mit6824.Raft.Durable
import Mit6824.Raft.Terms

namespace Mit6824

open Lib

variable {n : Nat} {C : Type}

/-! ## 1. Term and vote of one server -/

namespace Raft

/-- The section after a failed AppendEntries only moves on, to a later term or within a term in
    which the server has not voted. -/
def onlyOn (rf : Raft n C) : Turn n C → Bool
  | .entriesRefused _ argsTerm _ reply =>
      decide (reply.term ≤ argsTerm) || decide (rf.currentTerm < reply.term) ||
        decide (rf.currentTerm = reply.term ∧ rf.votedFor = none)
  | _ => true

theorem entriesRefused_voteStep {rf rf' : Raft n C} {u : Fin n} {argsTerm nextIndex : Nat}
    {reply : AppendEntriesReply}
    (hg : rf.onlyOn (.entriesRefused u argsTerm nextIndex reply) = true)
    (h : rf.entriesRefused u argsTerm nextIndex reply = some rf') : Cluster.VoteStep rf rf' := by
  unfold entriesRefused at h
  split at h
  · rename_i ht
    cases Option.some.inj h
    simp only [onlyOn, Bool.or_eq_true, decide_eq_true_eq] at hg
    rcases hg with (hg | hg) | ⟨hg, hv⟩
    · omega
    · exact Or.inl (by simpa using hg)
    · exact Or.inr ⟨by simpa using hg.symm, Or.inr hv⟩
  · obtain ⟨next, _, rfl⟩ := Option.map_eq_some_iff.mp h
    exact .same rfl rfl

/-- **The term rises, or stays with its vote**, in every section that only moves on. -/
theorem step_voteStep {me : Fin n} {rf rf' : Raft n C} {sec : Turn n C} (hr : Restores rf)
    (hg : rf.onlyOn sec = true) (h : rf.step me sec = some rf') : Cluster.VoteStep rf rf' := by
  cases sec with
  | requestVote args =>
      cases Option.some.inj h
      rcases requestVote_cases rf args with ⟨_, e⟩ | ⟨_, hm, e⟩ | ⟨_, _, e⟩ <;> rw [e]
      · exact .same rfl rfl
      · exact Cluster.voteStep_grant hm
      · exact Cluster.voteStep_catchUp _ _
  | appendEntries args grow =>
      obtain ⟨⟨rf₁, reply, spawn⟩, ha, rfl⟩ := Option.map_eq_some_iff.mp h
      rcases appendEntries_cases ha with ⟨_, rfl, _⟩ | ⟨_, _, ha, _⟩ | ⟨_, _, rfl, _⟩
      · exact .same rfl rfl
      · obtain ⟨ht, hv, _⟩ := acceptEntries_vote ha
        have hc := Cluster.voteStep_catchUp rf args.term
        unfold Cluster.VoteStep at hc ⊢
        rwa [ht, hv]
      · exact Cluster.voteStep_catchUp _ _
  | startOneElection =>
      cases Option.some.inj h
      exact Or.inl (by simp [becomeCandidate])
  | voteRefused term =>
      cases Option.some.inj h
      split
      · rename_i ht
        exact Or.inl (by simpa using ht)
      · exact .same rfl rfl
  | voteGranted enough =>
      cases Option.some.inj h
      split
      · exact .same (by simp [becomeLeader]) (by simp [becomeLeader])
      · exact .same rfl rfl
  | start command grow =>
      cases Option.some.inj h
      exact .same (by simp) (by simp)
  | entriesRefused u argsTerm nextIndex reply => exact entriesRefused_voteStep hg h
  | entriesAccepted u index agree =>
      rcases entriesAccepted_cases h with rfl | rfl
      · exact .same (by simp) (by simp)
      · exact .same (by simp) (by simp)
  | apply =>
      obtain ⟨i, ms, rfl⟩ := apply_frame h
      exact .same rfl rfl
  | saveSnapshot index storage =>
      rcases saveSnapshot_cases h with ⟨_, rfl⟩ | ⟨_, e, ls, _, _, rfl⟩
      · exact .same rfl rfl
      · exact .same (by simp) (by simp)
  | crash grow =>
      cases Option.some.inj h
      have hd := (hr grow).1
      exact .same (congrArg Durable.currentTerm hd) (congrArg Durable.votedFor hd)

/-- The server is past `term`, or in it with its vote for `c`. -/
def VotedAt (rf : Raft n C) (term : Nat) (c : Fin n) : Prop :=
  term < rf.currentTerm ∨ (rf.currentTerm = term ∧ rf.votedFor = some c)

theorem VotedAt.step {rf rf' : Raft n C} {term : Nat} {c : Fin n} (h : VotedAt rf term c)
    (hs : Cluster.VoteStep rf rf') : VotedAt rf' term c := by
  rcases h with h | ⟨ht, hv⟩
  · exact Or.inl (Nat.lt_of_lt_of_le h hs.le)
  · rcases hs with hs | ⟨ht', hv' | hv'⟩
    · exact Or.inl (by omega)
    · exact Or.inr ⟨ht'.trans ht, hv'.trans hv⟩
    · rw [hv] at hv'
      cases hv'

theorem VotedAt.congr {rf rf' : Raft n C} {term : Nat} {c : Fin n} (h : VotedAt rf term c)
    (hd : rf'.durable = rf.durable) : VotedAt rf' term c := by
  have ht : rf'.currentTerm = rf.currentTerm := congrArg Durable.currentTerm hd
  have hv : rf'.votedFor = rf.votedFor := congrArg Durable.votedFor hd
  unfold VotedAt
  rw [ht, hv]
  exact h

/-- A granted vote is for the term of the request. -/
theorem requestVote_granted {rf rf' : Raft n C} {args : RequestVoteArgs n} {t : Nat}
    (h : rf.requestVote args = (rf', ⟨t, true⟩)) :
    VotedAt rf' args.term args.candidateId ∧ rf.currentTerm ≤ args.term ∧
      (rf.currentTerm = args.term → rf.votedFor = none ∨ rf.votedFor = some args.candidateId) := by
  rcases requestVote_cases rf args with ⟨_, e⟩ | ⟨hle, hm, e⟩ | ⟨_, _, e⟩ <;> rw [e] at h
  · cases h
  · obtain ⟨rfl, _⟩ := Prod.mk.inj h
    refine ⟨Or.inr ⟨by simp [catchUp_currentTerm hle], by simp⟩, hle, fun ht => ?_⟩
    simp only [mayVote, decide_eq_true_eq] at hm
    have e : rf.catchUp args.term = rf := by
      unfold catchUp
      rw [if_neg (by omega)]
    rw [e] at hm
    exact hm.1
  · cases h

/-- So a server that has voted in a term grants no other vote in it. -/
theorem VotedAt.exclusive {rf rf' : Raft n C} {term : Nat} {c : Fin n} (h : VotedAt rf term c)
    {args : RequestVoteArgs n} (hterm : args.term = term) (hc : args.candidateId ≠ c) {t : Nat}
    (hv : rf.requestVote args = (rf', ⟨t, true⟩)) : False := by
  obtain ⟨_, hle, hvote⟩ := requestVote_granted hv
  rcases h with h | ⟨ht, hfor⟩
  · omega
  · rcases hvote (by omega) with e | e
    · rw [e] at hfor
      cases hfor
    · rw [e] at hfor
      exact hc (Option.some.inj hfor)

end Raft

/-! ## 2. The server behind the network -/

namespace Labrpc

/-- What a request to a Raft server carries. -/
inductive RaftArgs (n : Nat) (C : Type) where
  | vote (args : RequestVoteArgs n)
  | entries (args : AppendEntriesArgs n C)
  deriving DecidableEq

inductive RaftReply where
  | vote (reply : RequestVoteReply)
  | entries (reply : AppendEntriesReply)
  deriving DecidableEq

/-- A section, with what it reads from outside, and the room that an allocation leaves. -/
structure Choice (n : Nat) (C : Type) where
  turn : Turn n C
  grow : Nat

/-- Between the two `persist` of a handler. -/
def raftMidway (rf : Raft n C) : Turn n C → Option (Persister n C)
  | .requestVote args =>
      if rf.currentTerm < args.term then some (rf.stepDown args.term).persister else none
  | .appendEntries args _ =>
      if rf.currentTerm < args.term then some (rf.stepDown args.term).persister else none
  | _ => none

/-- The sections that are neither a handler nor a crash. -/
def raftWork (allowed : Raft n C → Turn n C → Bool) (me : Fin n) (rf : Raft n C) (sec : Turn n C) :
    Option (Raft n C) :=
  match sec with
  | .requestVote _ | .appendEntries _ _ | .crash _ => none
  | sec => if allowed rf sec then rf.step me sec else none

/-- The exported methods of `Raft` with an argument and a pointer to a reply. -/
def raftMethods : String → Option (Raft n C → RaftArgs n C → Choice n C →
    Option (Raft n C × RaftReply))
  | "RequestVote" => some fun rf args _ =>
      match args with
      | .vote args => some ((rf.requestVote args).1, .vote (rf.requestVote args).2)
      | .entries _ => none
  | "AppendEntries" => some fun rf args c =>
      match args with
      | .entries args => (rf.appendEntries args c.grow).map fun x => (x.1, .entries x.2.1)
      | .vote _ => none
  | _ => none

/-- **A Raft server.** `allowed` says which sections its environment lets happen; `shutdown` is
    what the tester keeps of a Persister. -/
def raftServer (allowed : Raft n C → Turn n C → Bool) (shutdown : Persister n C → Persister n C)
    (me : Fin n) : Server (Raft n C) (Persister n C) (RaftArgs n C) RaftReply (Choice n C) where
  makePersister := ⟨none, []⟩
  persister rf := rf.persister
  midway rf c := raftMidway rf c.turn
  shutdown := shutdown
  start p c := Raft.make p c.grow
  work rf c := raftWork allowed me rf c.turn
  services name := if name = "Raft" then some raftMethods else none

/-- The end of `crash1`: the Raft state goes on, without a snapshot. -/
def crash1 (p : Persister n C) : Persister n C := ⟨p.raftstate, []⟩

theorem crash1_raftstate (p : Persister n C) : (crash1 p).raftstate = p.raftstate := rfl

/-! ## 3. A vote is a note -/

section Vote

variable {allowed : Raft n C → Turn n C → Bool} {shutdown : Persister n C → Persister n C}
  {me : Fin n} {rf rf' : Raft n C}

/-- What a handler that was found by its name does. -/
theorem raftServer_handle {m : String} {args : RaftArgs n C} {c : Choice n C} {reply : RaftReply}
    (h : (raftServer allowed shutdown me).program.handle m rf args c = some (rf', reply)) :
    (∃ a r, args = .vote a ∧ reply = .vote r ∧ rf.requestVote a = (rf', r)) ∨
    ∃ a r spawn, args = .entries a ∧ reply = .entries r ∧
      rf.appendEntries a c.grow = some (rf', r, spawn) := by
  obtain ⟨f, hf, h⟩ := Option.bind_eq_some_iff.mp
    (show ((raftServer allowed shutdown me).method m).bind (fun f => f rf args c) =
      some (rf', reply) from h)
  obtain ⟨x, _, hf⟩ := Option.bind_eq_some_iff.mp hf
  obtain ⟨methods, hs, hf⟩ := Option.bind_eq_some_iff.mp hf
  simp only [raftServer] at hs
  split at hs
  · cases hs
    unfold raftMethods at hf
    split at hf
    · cases hf
      cases args with
      | vote a =>
          cases h
          exact Or.inl ⟨a, _, rfl, rfl, rfl⟩
      | entries a => cases h
    · cases hf
      cases args with
      | vote a => cases h
      | entries a =>
          obtain ⟨⟨rf₁, r, spawn⟩, ha, e⟩ := Option.map_eq_some_iff.mp h
          cases e
          exact Or.inr ⟨a, r, spawn, rfl, rfl, ha⟩
    · cases hf
  · cases hs

/-- A handler is a section. -/
theorem handle_turn {m : String} {args : RaftArgs n C} {c : Choice n C} {reply : RaftReply}
    (h : (raftServer allowed shutdown me).program.handle m rf args c = some (rf', reply)) :
    ∃ sec, rf.onlyOn sec = true ∧ rf.step me sec = some rf' := by
  rcases raftServer_handle h with ⟨a, r, _, _, hv⟩ | ⟨a, r, spawn, _, _, ha⟩
  · exact ⟨.requestVote a, rfl, by rw [Raft.step, hv]⟩
  · exact ⟨.appendEntries a c.grow, rfl, by rw [Raft.step, ha]; rfl⟩

theorem work_turn (hallowed : ∀ rf sec, allowed rf sec = true → rf.onlyOn sec = true)
    {c : Choice n C} (h : (raftServer allowed shutdown me).program.work rf c = some rf') :
    ∃ sec, rf.onlyOn sec = true ∧ rf.step me sec = some rf' := by
  have h : raftWork allowed me rf c.turn = some rf' := h
  unfold raftWork at h
  split at h
  · cases h
  · cases h
  · cases h
  · split at h
    · rename_i hg
      exact ⟨c.turn, hallowed _ _ hg, h⟩
    · cases h

/-- Term and vote are read back from the Raft state alone. -/
theorem make_votedAt {p q : Persister n C} (h : q.raftstate = p.raftstate) {grow grow' term : Nat}
    {c : Fin n} (hv : (Raft.make p grow).VotedAt term c) : (Raft.make q grow').VotedAt term c := by
  unfold Raft.VotedAt at hv ⊢
  cases hp : p.raftstate with
  | none =>
      rw [Raft.make_none hp] at hv
      rw [Raft.make_none (h.trans hp)]
      exact hv
  | some d =>
      obtain ⟨ms, e⟩ := Raft.make_some hp grow
      obtain ⟨ms', e'⟩ := Raft.make_some (h.trans hp) grow'
      rw [e] at hv
      rw [e']
      exact hv

/-- What the disk holds in the middle of a handler is a server that has gone to the later term. -/
theorem diskAt_voteStep {under : Option (Choice n C)} {p : Persister n C}
    (h : Rpc.diskAt (raftServer allowed shutdown me).program rf under = some p)
    (hr : rf.Restores) (hne : rf.log ≠ []) :
    ∃ rf₁ : Raft n C, rf₁.persister = p ∧ rf₁.Restores ∧ Cluster.VoteStep rf rf₁ := by
  have down : ∀ term, rf.currentTerm < term → some (rf.stepDown term).persister = some p →
      ∃ rf₁ : Raft n C, rf₁.persister = p ∧ rf₁.Restores ∧ Cluster.VoteStep rf rf₁ :=
    fun term ht e => ⟨rf.stepDown term, Option.some.inj e, Raft.restores_stepDown hne term,
      Or.inl (by simpa using ht)⟩
  cases under with
  | none => exact ⟨rf, Option.some.inj h, hr, .same rfl rfl⟩
  | some c =>
      have h : raftMidway rf c.turn = some p := h
      unfold raftMidway at h
      split at h
      · split at h
        · exact down _ ‹_› h
        · cases h
      · split at h
        · exact down _ ‹_› h
        · cases h
      · cases h

/-- What `Make` would read back of the vote. -/
def VoteKept (term : Nat) (c : Fin n) (p : Persister n C) : Prop := (Raft.make p 0).VotedAt term c

theorem voteKept_iff (hr : rf.Restores) (term : Nat) (c : Fin n) :
    VoteKept term c rf.persister ↔ rf.VotedAt term c :=
  ⟨fun h => h.congr (hr 0).1.symm, fun h => h.congr (hr 0).1⟩

/-- **A granted vote is a note**: it is persisted before the reply, and no section, crash or
    shutdown that keeps the Raft state takes it away. -/
theorem noting_vote (hallowed : ∀ rf sec, allowed rf sec = true → rf.onlyOn sec = true)
    (hshut : ∀ p, (shutdown p).raftstate = p.raftstate) (me : Fin n) (m : String)
    (args : RequestVoteArgs n) (t : Nat) :
    Rpc.Noting (raftServer allowed shutdown me).program (fun rf => rf.Restores ∧ rf.log ≠ []) m
      (.vote args) (.vote ⟨t, true⟩) (VoteKept args.term args.candidateId) where
  starts _ := ⟨Raft.restores_make _ _, Raft.make_log_ne _ _⟩
  crashes _ _ _ _ _ _ := ⟨Raft.restores_make _ _, Raft.make_log_ne _ _⟩
  works rf rf' c hI h := by
    obtain ⟨sec, _, hs⟩ := work_turn hallowed h
    exact Raft.restores_step hI.1 hI.2 hs
  handles rf rf' m' a' c r' hI h := by
    obtain ⟨sec, _, hs⟩ := handle_turn h
    exact Raft.restores_step hI.1 hI.2 hs
  noted rf rf' c hI h := by
    obtain ⟨sec, _, hs⟩ := handle_turn h
    refine (voteKept_iff (Raft.restores_step hI.1 hI.2 hs).1 _ _).mpr ?_
    rcases raftServer_handle h with ⟨a, r, ha, hr, hv⟩ | ⟨a, r, spawn, ha, _⟩
    · cases ha
      cases hr
      exact (Raft.requestVote_granted hv).1
    · cases ha
  workKeeps rf rf' c hI hP h := by
    obtain ⟨sec, hg, hs⟩ := work_turn hallowed h
    exact (voteKept_iff (Raft.restores_step hI.1 hI.2 hs).1 _ _).mpr
      (((voteKept_iff hI.1 _ _).mp hP).step (Raft.step_voteStep hI.1 hg hs))
  handleKeeps rf rf' m' a' c r' hI hP h := by
    obtain ⟨sec, hg, hs⟩ := handle_turn h
    exact (voteKept_iff (Raft.restores_step hI.1 hI.2 hs).1 _ _).mpr
      (((voteKept_iff hI.1 _ _).mp hP).step (Raft.step_voteStep hI.1 hg hs))
  crashKeeps rf under p hI hP h := by
    obtain ⟨rf₁, rfl, hr₁, hv⟩ := diskAt_voteStep h hI.1 hI.2
    have hkept : VoteKept args.term args.candidateId rf₁.persister :=
      (voteKept_iff hr₁ _ _).mpr (((voteKept_iff hI.1 _ _).mp hP).step hv)
    refine ⟨make_votedAt (hshut _) hkept, fun c => ?_⟩
    show VoteKept _ _ (Raft.make (shutdown rf₁.persister) c.grow).persister
    rw [Raft.make_persister]
    exact make_votedAt (hshut _) hkept

end Vote

/-! ## 4. Votes that were heard -/

/-- The call `r` asked for a vote, and its caller was told that it has it. -/
def Net.HeardVote {E : Type} (s : Net (Fin n) E (Raft n C) (Persister n C) (RaftArgs n C) RaftReply)
    (v : Fin n) (args : RequestVoteArgs n) : Prop :=
  ∃ (r : Nat) (q : Request (Fin n) E (RaftArgs n C) RaftReply) (t : Nat),
    s.requests[r]? = some q ∧ q.req.svcMeth = "Raft.RequestVote" ∧ q.req.args = .vote args ∧
    q.stage = .returned (some (.vote ⟨t, true⟩)) ∧ s.network.connections q.req.endname = some v

/-- Two servers under the tester of raft/config.go. -/
abbrev VoteNet : Type := Net (Fin 2) Nat (Raft 2 Nat) (Persister 2 Nat) (RaftArgs 2 Nat) RaftReply

/-- Server 0 grants its vote of term 1 to server 1, which hears of it. It is shut down in the middle
    of a handler for term 2, when the Persister has the term but no vote of it, and comes back. The
    instance that was shut down goes on to vote for server 0 in term 2: nobody is told. -/
def votedBefore : List (Action (Fin 2) Nat (RaftArgs 2 Nat) (Choice 2 Nat)) :=
  [.start 0 ⟨.apply, 0⟩, .addServer 0, .makeEnd 0, .connect 0 0, .enable 0 true,
    .call 0 "Raft.RequestVote" (.vote ⟨1, 1, 0, 0⟩), .accept 0, .route 0, .spawn 0, .dispatch 0,
    .execute 0 ⟨.apply, 0⟩, .receive 0, .check 0, .reply 0,
    .call 0 "Raft.RequestVote" (.vote ⟨2, 0, 0, 0⟩), .accept 1, .route 1, .spawn 1, .dispatch 1,
    .deleteServer 0, .copy 0 (some ⟨.requestVote ⟨2, 0, 0, 0⟩, 0⟩), .execute 1 ⟨.apply, 0⟩,
    .start 0 ⟨.apply, 0⟩, .addServer 0, .receive 1, .check 1]

theorem votedBefore_run : ∃ s : VoteNet,
    Reach (Net.step (raftServer Raft.onlyOn crash1) (fun _ => 0) fun _ => 0)
      (fun s a => s.connectOnce a = true) Net.init s ∧
    (s.power 0).current = some 1 ∧ s.HeardVote 0 ⟨1, 1, 0, 0⟩ := by
  have run : (exec (Net.step (raftServer Raft.onlyOn crash1) (fun _ => 0) fun _ => 0)
      Net.connectOnce Net.init votedBefore).any (fun s : VoteNet =>
        decide ((s.power 0).current = some 1 ∧ s.network.connections 0 = some 0 ∧
          (s.requests.map fun q => (q.req.endname, q.req.svcMeth, q.req.args, q.stage.outcome)) =
            [(0, "Raft.RequestVote", .vote ⟨1, 1, 0, 0⟩, some (some (.vote ⟨1, true⟩))),
              (0, "Raft.RequestVote", .vote ⟨2, 0, 0, 0⟩, some none)])) = true := by
    decide +kernel
  obtain ⟨s, hr, hs⟩ := exists_of_exec run
  obtain ⟨hcur, hconn, hreq⟩ := of_decide_eq_true hs
  obtain ⟨q, qs, hq, e, _⟩ := List.map_eq_cons_iff.mp hreq
  simp only [Prod.mk.injEq] at e
  obtain ⟨hend, hm, ha, ho⟩ := e
  refine ⟨s, hr, hcur, 0, q, 1, by rw [hq]; rfl, hm, ha, ?_, by rw [hend]; exact hconn⟩
  cases hst : q.stage <;> rw [hst] at ho <;> cases ho
  rfl

section Heard

variable {E : Type} [DecidableEq E] {allowed : Raft n C → Turn n C → Bool}
  {shutdown : Persister n C → Persister n C} {argsSize : RaftArgs n C → Nat}
  {replySize : RaftReply → Nat}
  {s : Net (Fin n) E (Raft n C) (Persister n C) (RaftArgs n C) RaftReply}

/-- **A vote that was heard stands in `saved`**: `Make` would read back this vote, or a later
    term. -/
theorem vote_saved (hallowed : ∀ rf sec, allowed rf sec = true → rf.onlyOn sec = true)
    (hshut : ∀ p, (shutdown p).raftstate = p.raftstate)
    (h : Reach (Net.step (raftServer allowed shutdown) argsSize replySize)
      (fun s a => s.connectOnce a = true) Net.init s) {v : Fin n} {args : RequestVoteArgs n}
    (hv : s.HeardVote v args) :
    ∃ p, s.saved (raftServer allowed shutdown) v = some p ∧
      ∀ grow, (Raft.make p grow).VotedAt args.term args.candidateId := by
  obtain ⟨r, q, t, hq, hm, ha, hst, hconn⟩ := hv
  obtain ⟨w, p, hw, hp, hkept⟩ := Net.acknowledged_saved
    (fun v => noting_vote hallowed hshut v "Raft.RequestVote" args t) h hq hm ha hst
  rw [hconn] at hw
  cases hw
  exact ⟨p, hp, fun grow => make_votedAt rfl hkept⟩

end Heard

/-- Server 0 runs as its second instance then, and `saved` still has its vote. -/
theorem vote_saved_restarted : ∃ (s : VoteNet) (p : Persister 2 Nat),
    (s.power 0).current = some 1 ∧ s.saved (raftServer Raft.onlyOn crash1) 0 = some p ∧
    (Raft.make p 0).VotedAt 1 1 := by
  obtain ⟨s, hr, hcur, hv⟩ := votedBefore_run
  obtain ⟨p, hp, hkept⟩ := vote_saved (fun _ _ h => h) crash1_raftstate hr hv
  exact ⟨s, p, hcur, hp, hkept 0⟩

section Heard

variable {E : Type} [DecidableEq E] {allowed : Raft n C → Turn n C → Bool}
  {shutdown : Persister n C → Persister n C} {argsSize : RaftArgs n C → Nat}
  {replySize : RaftReply → Nat}
  {s : Net (Fin n) E (Raft n C) (Persister n C) (RaftArgs n C) RaftReply}

/-- A vote that was heard was handled by a server that counts. -/
theorem Net.HeardVote.handled {t : Rpc.State (Fin n) E (Raft n C) String (RaftArgs n C) RaftReply}
    (ht : Refines (raftServer allowed shutdown) s t)
    (hrun : Reach (Rpc.step fun v => (raftServer allowed shutdown v).program) AnyStep Rpc.init t)
    {v : Fin n} {args : RequestVoteArgs n} (hv : s.HeardVote v args) :
    ∃ (k : Nat) (x : Rpc.Call E String (RaftArgs n C) RaftReply) (t₀ : Nat), t.calls[k]? = some x ∧
      x.method = "Raft.RequestVote" ∧ x.args = .vote args ∧ x.reply = some (.vote ⟨t₀, true⟩) ∧
      t.wiring x.endname = some v := by
  obtain ⟨r, q, t₀, hq, hm, ha, hst, hconn⟩ := hv
  obtain ⟨x, hx, hok⟩ := ht.requests r q hq
  refine ⟨r, x, t₀, hx, hok.method.trans hm, hok.args.trans ha, ?_, ?_⟩
  · exact Rpc.answered_handled hrun r x _ hx (by rw [hok.outcome, hst]; rfl)
  · rw [ht.wiring, hok.endname]
    exact hconn

/-- **No server is heard to vote for two candidates in one term**, however often it crashes and
    whichever of its instances answer. -/
theorem heard_once (hallowed : ∀ rf sec, allowed rf sec = true → rf.onlyOn sec = true)
    (hshut : ∀ p, (shutdown p).raftstate = p.raftstate)
    (h : Reach (Net.step (raftServer allowed shutdown) argsSize replySize)
      (fun s a => s.connectOnce a = true) Net.init s) {v : Fin n} {args args' : RequestVoteArgs n}
    (hv : s.HeardVote v args) (hv' : s.HeardVote v args') (hterm : args'.term = args.term) :
    args'.candidateId = args.candidateId := by
  by_contra hne
  obtain ⟨t, hrun, ht⟩ := Net.refines_reach h
  obtain ⟨k, x, t₀, hx, hm, ha, hr, hw⟩ := hv.handled ht hrun
  obtain ⟨k', x', t₁, hx', hm', ha', hr', hw'⟩ := hv'.handled ht hrun
  -- a server that holds one of the two votes does not grant the other
  have apart : ∀ (a b : RequestVoteArgs n) (tb : Nat), b.term = a.term →
      b.candidateId ≠ a.candidateId → ∀ (v : Fin n) (rf rf' : Raft n C) (c : Choice n C),
      rf.Restores ∧ rf.log ≠ [] → VoteKept a.term a.candidateId rf.persister →
      (raftServer allowed shutdown v).program.handle "Raft.RequestVote" rf (.vote b) c ≠
        some (rf', .vote ⟨tb, true⟩) := by
    intro a b tb hb hc v rf rf' c hI hkept hh
    rcases raftServer_handle hh with ⟨b', r, hb', hr, hv⟩ | ⟨_, _, _, hb', _⟩
    · cases hb'
      cases hr
      exact ((voteKept_iff hI.1 _ _).mp hkept).exclusive hb hc hv
    · cases hb'
  refine Rpc.handled_apart
    (fun v => noting_vote hallowed hshut v "Raft.RequestVote" args t₀)
    (fun v => noting_vote hallowed hshut v "Raft.RequestVote" args' t₁)
    (apart args args' t₁ hterm hne) (apart args' args t₀ hterm.symm (Ne.symm hne)) ?_ hrun
    k k' x x' v hx hx' hm ha hr hm' ha' hr' hw hw'
  intro e
  cases e
  exact hne rfl

end Heard

theorem heard_once_restarted : ∃ s : VoteNet, (s.power 0).current = some 1 ∧
    s.HeardVote 0 ⟨1, 1, 0, 0⟩ ∧
    ∀ args, s.HeardVote 0 args → args.term = 1 → args.candidateId = 1 := by
  obtain ⟨s, hr, hcur, hv⟩ := votedBefore_run
  exact ⟨s, hcur, hv, fun args hv' ht => heard_once (fun _ _ h => h) crash1_raftstate hr hv hv' ht⟩

end Labrpc

end Mit6824
