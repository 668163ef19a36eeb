/-
  File:      Mit6824/Raft/Terms.lean
  Subject:   TERMS AND VOTES OF ONE SERVER (raft.go lines 256-289, 354-367, 561-608, 748-799).

  Five paths write `CurrentTerm` and `VotedFor`. Four of them compare with `rf.CurrentTerm` in
  the section that writes. The fifth, the failure branch of an AppendEntries reply (lines
  593-599), compares `args.Term` with `reply.Term`: the comparison with `rf.CurrentTerm` was made
  in the section before (line 569), and the lock was free in between.

  * `termGuard` -- that branch does not move the term back, nor drop a vote of the same term;
  * `term_mono_single_vote` -- in every run whose steps meet `termGuard`, no server's term falls
    and no server votes for two candidates in one term;
  * `term_falls_and_votes_twice` -- without it a server goes from term 3 back to term 2 and votes
    a second time in term 3.
-/
import Mit6824.Raft.Persist

namespace Mit6824.Cluster

open Lib

variable {n : Nat} {C : Type}

/-! ## 1. What a guarded step does to term and vote -/

/-- **The failure branch of an AppendEntries reply only moves on**: to a later term, or within a
    term in which the server has not voted. -/
def termGuard (s : Cluster n C) : Action n C → Bool
  | .peerReply k u =>
      match s.casts[k]? with
      | none => true
      | some B =>
          match B.peer u with
          | .checked args _ reply =>
              reply.success || decide (reply.term ≤ args.term) ||
                decide ((s.rafts B.owner).currentTerm < reply.term) ||
                decide ((s.rafts B.owner).currentTerm = reply.term ∧
                  (s.rafts B.owner).votedFor = none)
          | _ => true
  | _ => true

theorem termGuard_fails {s : Cluster n C} {a : Action n C} {v : Fin n} {t : Nat}
    (hg : s.termGuard a = true) (h : s.FailsTo a v t) :
    (s.rafts v).currentTerm < t ∨
      ((s.rafts v).currentTerm = t ∧ (s.rafts v).votedFor = none) := by
  obtain ⟨k, u, B, args, next, reply, rfl, hB, _, hp, hf, ht, rfl, rfl⟩ := h
  simp only [termGuard, hB, hp, hf, Bool.false_or, Bool.or_eq_true, decide_eq_true_eq] at hg
  rcases hg with (hg | hg) | hg
  · omega
  · exact Or.inl hg
  · exact Or.inr hg

/-- From `rf` to `rf'` the term rises, or stays with a vote that is not taken back. -/
def VoteStep (rf rf' : Raft n C) : Prop :=
  rf.currentTerm < rf'.currentTerm ∨
    (rf'.currentTerm = rf.currentTerm ∧ (rf'.votedFor = rf.votedFor ∨ rf.votedFor = none))

theorem VoteStep.same {rf rf' : Raft n C} (ht : rf'.currentTerm = rf.currentTerm)
    (hv : rf'.votedFor = rf.votedFor) : VoteStep rf rf' := Or.inr ⟨ht, Or.inl hv⟩

theorem VoteStep.le {rf rf' : Raft n C} (h : VoteStep rf rf') :
    rf.currentTerm ≤ rf'.currentTerm := by
  rcases h with h | ⟨h, _⟩ <;> omega

theorem voteStep_catchUp (rf : Raft n C) (t : Nat) : VoteStep rf (rf.catchUp t) := by
  rcases rf.catchUp_cases t with ⟨h, e⟩ | ⟨_, e⟩ <;> rw [e]
  · exact Or.inl (by simpa using h)
  · exact .same rfl rfl

/-- The voter's test is about the vote of the term it is made in. -/
theorem voteStep_grant {rf : Raft n C} {args : RequestVoteArgs n}
    (hm : (rf.catchUp args.term).mayVote args = true) :
    VoteStep rf (Raft.persist { rf.catchUp args.term with
      votedFor := some args.candidateId, state := .follower }) := by
  have hv : (rf.catchUp args.term).votedFor = none ∨
      (rf.catchUp args.term).votedFor = some args.candidateId := by
    simp only [Raft.mayVote, decide_eq_true_eq] at hm
    exact hm.1
  rcases rf.catchUp_cases args.term with ⟨h, e⟩ | ⟨_, e⟩ <;> rw [e] at hv ⊢
  · exact Or.inl (by simpa using h)
  · refine Or.inr ⟨by simp, ?_⟩
    rcases hv with hv | hv
    · exact Or.inr hv
    · exact Or.inl (by simp [hv])

theorem voteStep_change {me : Fin n} {a : Action n C} {rf rf' : Raft n C}
    {evs : List (Event n C)} (hs : rf.Saved) (hne : rf.log ≠ [])
    (h : Raft.Change me a rf evs rf') : VoteStep rf rf' := by
  cases h with
  | idle => exact .same rfl rfl
  | send => exact .same rfl rfl
  | candidate => exact Or.inl (by simp [Raft.becomeCandidate])
  | vote e _ args =>
      rcases Raft.requestVote_cases rf args with ⟨_, e⟩ | ⟨_, hm, e⟩ | ⟨_, _, e⟩ <;> rw [e]
      · exact .same rfl rfl
      · exact voteStep_grant hm
      · exact voteStep_catchUp _ _
  | down e u _ t ht => exact Or.inl (by simpa using ht)
  | lead e u _ _ => exact .same (by simp [Raft.becomeLeader]) (by simp [Raft.becomeLeader])
  | start k grow _ command term => exact .same (by simp) (by simp)
  | append k grow _ _ args reply spawn h =>
      rcases Raft.appendEntries_cases h with ⟨_, rfl, _⟩ | ⟨_, _, ha, _⟩ | ⟨_, _, rfl, _⟩
      · exact .same rfl rfl
      · obtain ⟨ht, hv, _⟩ := Raft.acceptEntries_vote ha
        have := voteStep_catchUp rf args.term
        unfold VoteStep at this ⊢
        rwa [ht, hv]
      · exact voteStep_catchUp _ _
  | next k u _ f => exact .same rfl rfl
  | count k u _ i => exact .same (by simp) (by simp)
  | commit k u _ i _ => exact .same (by simp) (by simp)
  | apply _ _ h => obtain ⟨i, ms, rfl⟩ := Raft.apply_frame h; exact .same rfl rfl
  | snapshot _ _ index storage _ h =>
      rcases Raft.saveSnapshot_cases h with ⟨_, rfl⟩ | ⟨_, e, ls, _, _, rfl⟩
      · exact .same rfl rfl
      · exact .same (by simp) (by simp)
  | restart grow _ =>
      obtain ⟨h1, h2, _⟩ := Raft.make_saved hs hne grow
      exact .same h1 h2

/-- **One guarded step**, for every server. -/
theorem voteStep_step {s s' : Cluster n C} {a : Action n C} (hg : s.termGuard a = true)
    (h : s.step a = some s') (hs : ∀ v, (s.rafts v).Saved ∧ (s.rafts v).log ≠ []) (v : Fin n) :
    VoteStep (s.rafts v) (s'.rafts v) := by
  obtain ⟨w, evs, hA⟩ := step_acts h
  by_cases hv : v = w
  · subst hv
    rcases hA.change with hc | ⟨t, hf, _, e⟩
    · exact voteStep_change (hs v).1 (hs v).2 hc
    · rw [e]
      rcases termGuard_fails hg hf with ht | ⟨ht, hn⟩
      · exact Or.inl (by simpa using ht)
      · exact Or.inr ⟨by simpa using ht.symm, Or.inr hn⟩
  · rw [hA.others v hv]
    exact .same rfl rfl

/-- A vote that a change records is the vote its server holds afterwards, in its term. -/
theorem change_vote {me v c : Fin n} {t : Nat} {a : Action n C} {rf rf' : Raft n C}
    {evs : List (Event n C)} (h : Raft.Change me a rf evs rf') (hv : Event.vote v c t ∈ evs) :
    v = me ∧ t = rf'.currentTerm ∧ rf'.votedFor = some c := by
  cases h with
  | candidate =>
      simp only [List.mem_singleton, Event.vote.injEq] at hv
      obtain ⟨rfl, rfl, rfl⟩ := hv
      exact ⟨rfl, rfl, by simp [Raft.becomeCandidate]⟩
  | vote e _ args =>
      rcases Raft.requestVote_cases rf args with ⟨_, e⟩ | ⟨hle, _, e⟩ | ⟨_, _, e⟩ <;>
        simp only [e, Bool.false_eq_true, if_false, if_true, List.not_mem_nil, List.mem_singleton,
          Event.vote.injEq] at hv ⊢
      obtain ⟨rfl, rfl, rfl⟩ := hv
      exact ⟨rfl, by simp [Raft.catchUp_currentTerm hle], by simp⟩
  | append k grow _ _ args reply spawn h => split at hv <;> simp at hv
  | _ => simp at hv

theorem vote_recorded {s s' : Cluster n C} {a : Action n C} (h : s.step a = some s')
    {v c : Fin n} {t : Nat} (hv : Event.vote v c t ∈ s'.hist) :
    Event.vote v c t ∈ s.hist ∨
      (t = (s'.rafts v).currentTerm ∧ (s'.rafts v).votedFor = some c) := by
  obtain ⟨w, evs, hA⟩ := step_acts h
  rw [hA.hist, List.mem_append] at hv
  rcases hv with hv | hv
  · rcases hA.change with hc | ⟨_, _, rfl, _⟩
    · obtain ⟨rfl, ht, hvf⟩ := change_vote hc hv
      exact Or.inr ⟨ht, hvf⟩
    · exact absurd hv List.not_mem_nil
  · exact Or.inl hv

/-! ## 2. Runs -/

/-- **The votes on record**: none is from a later term, the one of the present term is the one
    the server holds, and a term has one. -/
structure VoteInv (s : Cluster n C) : Prop where
  past : ∀ v c t, Event.vote v c t ∈ s.hist → t ≤ (s.rafts v).currentTerm
  held : ∀ v c t, Event.vote v c t ∈ s.hist → t = (s.rafts v).currentTerm →
    (s.rafts v).votedFor = some c
  single : ∀ v c c' t, Event.vote v c t ∈ s.hist → Event.vote v c' t ∈ s.hist → c = c'

theorem voteInv_step {s s' : Cluster n C} (hI : VoteInv s)
    (hstep : ∀ v, VoteStep (s.rafts v) (s'.rafts v))
    (hrec : ∀ v c t, Event.vote v c t ∈ s'.hist → Event.vote v c t ∈ s.hist ∨
      (t = (s'.rafts v).currentTerm ∧ (s'.rafts v).votedFor = some c)) : VoteInv s' := by
  have held : ∀ v c t, Event.vote v c t ∈ s'.hist → t = (s'.rafts v).currentTerm →
      (s'.rafts v).votedFor = some c := by
    intro v c t hv ht
    rcases hrec v c t hv with hold | ⟨_, hnew⟩
    · have hp := hI.past v c t hold
      rcases hstep v with hlt | ⟨heq, hvote⟩
      · omega
      · have hh := hI.held v c t hold (by omega)
        rcases hvote with e | e
        · rw [e]; exact hh
        · rw [e] at hh; cases hh
    · exact hnew
  have past : ∀ v c t, Event.vote v c t ∈ s'.hist → t ≤ (s'.rafts v).currentTerm := by
    intro v c t hv
    rcases hrec v c t hv with hold | ⟨hnew, _⟩
    · exact le_trans (hI.past v c t hold) (hstep v).le
    · omega
  refine ⟨past, held, fun v c c' t hc hc' => ?_⟩
  -- two old votes by induction; a new one is of the present term, where the server holds one vote
  rcases hrec v c t hc with hold | ⟨ht, _⟩
  · rcases hrec v c' t hc' with hold' | ⟨ht, _⟩
    · exact hI.single v c c' t hold hold'
    · exact Option.some.inj ((held v c t hc ht).symm.trans (held v c' t hc' ht))
  · exact Option.some.inj ((held v c t hc ht).symm.trans (held v c' t hc' ht))

theorem voteInv_reach {G : Cluster n C → Action n C → Prop}
    (hG : ∀ s a, G s a → s.termGuard a = true) {s : Cluster n C}
    (h : Reach step G (init n C) s) : VoteInv s := by
  induction h with
  | start =>
      refine ⟨fun v c t hv => ?_, fun v c t hv => ?_, fun v c c' t hv => ?_⟩ <;>
        exact absurd hv List.not_mem_nil
  | move s s' a hr hg hs ih =>
      exact voteInv_step ih (voteStep_step (hG _ _ hg) hs (saved_reach hr))
        fun v c t hv => vote_recorded hs hv

theorem term_mono {G : Cluster n C → Action n C → Prop}
    (hG : ∀ s a, G s a → s.termGuard a = true) {s₁ s₂ : Cluster n C}
    (h₁ : Reach step G (init n C) s₁) (h₂ : Reach step G s₁ s₂) (v : Fin n) :
    (s₁.rafts v).currentTerm ≤ (s₂.rafts v).currentTerm := by
  induction h₂ with
  | start => exact le_refl _
  | move s s' a hr hg hs ih =>
      exact le_trans ih (voteStep_step (hG _ _ hg) hs (saved_reach (h₁.trans hr)) v).le

/-- **Term monotonicity and single vote**: in every run whose failure branches only move on, from
    every state on, for every server. -/
theorem term_mono_single_vote {s₁ s₂ : Cluster n C}
    (h₁ : Reach step (fun s a => s.termGuard a = true) (init n C) s₁)
    (h₂ : Reach step (fun s a => s.termGuard a = true) s₁ s₂) (v : Fin n) :
    (s₁.rafts v).currentTerm ≤ (s₂.rafts v).currentTerm ∧
      ∀ c c' t, Event.vote v c t ∈ s₂.hist → Event.vote v c' t ∈ s₂.hist → c = c' :=
  ⟨term_mono (fun _ _ h => h) h₁ h₂ v, (voteInv_reach (fun _ _ h => h) (h₁.trans h₂)).single v⟩

/-- Server 0 leads term 1 and sends a heartbeat to server 2, which is in term 2 by then and
    refuses it; the check of the reply passes. -/
def refusedBeat : List (Action 3 Nat) :=
  [.startOneElection 0, .voteArgs 0, .voteArgs 0, .handleVote 0 1, .voteCheck 0 1, .voteReply 0 1,
    .beatState 0, .beatSend 0, .castState 0, .castTerm 0, .peerState 0 2, .peerArgs 0 2,
    .encode 0 2 9,
    .startOneElection 2, .startOneElection 2, .handleAppend 0 2 0, .peerCheck 0 2]

/-- A leader of term 1 that is refused goes to term 2 as it should, with its vote of term 1. -/
theorem term_mono_single_vote_refused : ∃ s₁ s₂ : Cluster 3 Nat,
    Reach step (fun s a => s.termGuard a = true) (init 3 Nat) s₁ ∧
    Reach step (fun s a => s.termGuard a = true) s₁ s₂ ∧
    (s₁.rafts 0).currentTerm = 1 ∧ (s₂.rafts 0).currentTerm = 2 ∧
    Event.vote 0 0 1 ∈ s₂.hist ∧ ∀ c, Event.vote 0 c 1 ∈ s₂.hist → c = 0 := by
  have run : (exec step termGuard (init 3 Nat) refusedBeat).any (fun s₁ =>
      (exec step termGuard s₁ [.peerReply 0 2]).any fun s₂ =>
        decide ((s₁.rafts 0).currentTerm = 1 ∧ (s₂.rafts 0).currentTerm = 2 ∧
          Event.vote 0 0 1 ∈ s₂.hist)) = true := by decide +kernel
  obtain ⟨s₁, h₁, run⟩ := exists_of_exec run
  obtain ⟨s₂, h₂, run⟩ := exists_of_exec run
  obtain ⟨ht₁, ht₂, hv⟩ := of_decide_eq_true run
  exact ⟨s₁, s₂, h₁, h₂, ht₁, ht₂, hv,
    fun c hc => (term_mono_single_vote h₁ h₂ 0).2 c 0 1 hc hv⟩

/-- **Without the guard**: between the check of the refusal and the section that acts on it server
    0 has stood for election in the terms 2 and 3. It goes from term 3 back to term 2, and grants
    its vote of term 3 to server 1. -/
theorem term_falls_and_votes_twice : ∃ s₁ s₂ s₃ : Cluster 3 Nat,
    Reach step AnyStep (init 3 Nat) s₁ ∧ Reach step AnyStep s₁ s₂ ∧
    (s₂.rafts 0).currentTerm < (s₁.rafts 0).currentTerm ∧ Reach step AnyStep s₂ s₃ ∧
    Event.vote 0 0 3 ∈ s₃.hist ∧ Event.vote 0 1 3 ∈ s₃.hist := by
  have run : (exec step (fun _ _ => true) (init 3 Nat)
      (refusedBeat ++ [.startOneElection 0, .startOneElection 0])).any (fun s₁ =>
      (exec step (fun _ _ => true) s₁ [.peerReply 0 2]).any fun s₂ =>
        (exec step (fun _ _ => true) s₂
          [.startOneElection 1, .startOneElection 1, .voteArgs 6, .handleVote 6 0]).any fun s₃ =>
        decide ((s₂.rafts 0).currentTerm < (s₁.rafts 0).currentTerm ∧
          Event.vote 0 0 3 ∈ s₃.hist ∧ Event.vote 0 1 3 ∈ s₃.hist)) = true := by decide +kernel
  obtain ⟨s₁, h₁, run⟩ := exists_of_run run
  obtain ⟨s₂, h₂, run⟩ := exists_of_run run
  obtain ⟨s₃, h₃, run⟩ := exists_of_run run
  obtain ⟨ht, hv⟩ := of_decide_eq_true run
  exact ⟨s₁, s₂, s₃, h₁, h₂, ht, h₃, hv⟩

end Mit6824.Cluster
