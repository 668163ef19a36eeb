/-
  File:      Mit6824/Raft/Granular.lean
  Subject:   RUNS IN WHICH A SERVER FINISHES WHAT IT HAS BEGUN: every `Start`, every
             `startOneElection` with its requests, every processing of one reply runs without
             another section of the same server in between.

  A `Pause` is a place where such a goroutine has left `rf.mu`; `rpcGuard` lets a server with a
  pause do nothing but go on there, or crash. Then nothing a goroutine has looked at changes under
  it (`Unmoved`), and the guards of the earlier files are met by themselves (`intact_reach`), but
  for `encodeGuard`: the encoding of a request is no part of the section that builds it.

  * `leader_completeness` -- what is committed in a term is in the log of every server that becomes
    leader in a later one;
  * `log_matching` -- logs that share an entry share everything before it, at any two moments;
  * `logs_part`, `committed_entry_lost` -- neither holds when a request is overwritten before it is
    encoded.
-/
import Mit6824.Raft.Safety

namespace Mit6824

open Lib

variable {n : Nat} {C : Type}

/-! ## 1. Pauses -/

/-- Where a goroutine waits for `rf.mu` in the middle of its work. -/
inductive Pause (n : Nat) where
  /-- A `Start` after `GetState`. -/
  | start (k : Nat)
  /-- A `startOneElection` in its loop over the peers. -/
  | asks (e : Nat)
  /-- A reply to RequestVote after its check. -/
  | vote (e : Nat) (u : Fin n)
  /-- A reply to AppendEntries after its check. -/
  | reply (k : Nat) (u : Fin n)
  deriving DecidableEq

/-- The pause after which a section goes on. -/
def Action.continues : Action n C → Option (Pause n)
  | .voteArgs e => some (.asks e)
  | .voteReply e u => some (.vote e u)
  | .startAppend k _ => some (.start k)
  | .peerReply k u => some (.reply k u)
  | _ => none

theorem Action.startAppend_of_continues {a : Action n C} {k : Nat}
    (h : a.continues = some (.start k)) : ∃ grow, a = .startAppend k grow := by
  cases a <;> cases h
  exact ⟨_, rfl⟩

theorem Action.voteArgs_of_continues {a : Action n C} {e : Nat} (h : a.continues = some (.asks e)) :
    a = .voteArgs e := by
  cases a <;> cases h
  rfl

theorem Action.voteReply_of_continues {a : Action n C} {e : Nat} {u : Fin n}
    (h : a.continues = some (.vote e u)) : a = .voteReply e u := by
  cases a <;> cases h
  rfl

theorem Action.peerReply_of_continues {a : Action n C} {k : Nat} {u : Fin n}
    (h : a.continues = some (.reply k u)) : a = .peerReply k u := by
  cases a <;> cases h
  rfl

def Action.restarts : Action n C → Bool
  | .restart _ _ => true
  | _ => false

def VoteCall.isChecked : VoteCall n → Bool
  | .checked _ _ => true
  | _ => false

def PeerCall.isChecked : PeerCall n C → Bool
  | .checked _ _ _ => true
  | _ => false

namespace Cluster

/-- The server whose section it is. -/
def actor (s : Cluster n C) : Action n C → Option (Fin n)
  | .startOneElection v | .startState v _ | .beatState v | .apply v | .saveSnapshot v _ _
  | .restart v _ | .handleVote _ v | .handleAppend _ v _ => some v
  | .voteArgs e | .voteCheck e _ | .voteReply e _ => (s.elections[e]?).map (·.owner)
  | .startAppend k _ => (s.starts[k]?).map (·.owner)
  | .beatSend k => (s.beats[k]?).map (·.owner)
  | .castState k | .castTerm k | .peerState k _ | .peerArgs k _ | .encode k _ _ | .peerCheck k _
  | .peerReply k _ => (s.casts[k]?).map (·.owner)

/-- Does `v` have a goroutine in this pause? -/
def isPaused (s : Cluster n C) (v : Fin n) : Pause n → Bool
  | .start k => (s.starts[k]?).any fun S => S.alive && decide (S.owner = v)
  | .asks e => (s.elections[e]?).any fun E => E.alive && decide (E.owner = v ∧ E.next < n)
  | .vote e u => (s.elections[e]?).any fun E =>
      E.alive && decide (E.owner = v) && (E.call u).isChecked
  | .reply k u => (s.casts[k]?).any fun B =>
      B.alive && decide (B.owner = v) && (B.peer u).isChecked

/-- All pauses there can be. -/
def pauses (s : Cluster n C) : List (Pause n) :=
  (List.range s.starts.length).map .start ++ (List.range s.elections.length).map .asks ++
    (List.range s.elections.length).flatMap (fun e => (List.finRange n).map (.vote e)) ++
    (List.range s.casts.length).flatMap fun k => (List.finRange n).map (.reply k)

/-- **A server with a pause goes on there or crashes.** -/
def rpcGuard (s : Cluster n C) (a : Action n C) : Bool :=
  !a.saves && (a.restarts || s.pauses.all fun p =>
    decide (a.continues = some p) || (s.actor a).all fun v => !s.isPaused v p)

/-- The steps of the runs of this file. -/
def RpcStep (s : Cluster n C) (a : Action n C) : Prop := s.rpcGuard a = true

theorem mem_pauses {s : Cluster n C} {v : Fin n} {p : Pause n} (h : s.isPaused v p = true) :
    p ∈ s.pauses := by
  have hlt : ∀ {α : Type} {l : List α} {k : Nat} {q : α → Bool}, (l[k]?).any q = true →
      k ∈ List.range l.length := by
    intro α l k q hq
    cases hx : l[k]? with
    | none =>
        rw [hx] at hq
        cases hq
    | some x => exact List.mem_range.mpr (List.getElem?_eq_some_iff.mp hx).1
  unfold pauses
  cases p with
  | start k => simpa using List.mem_range.mp (hlt h)
  | asks e => simpa using List.mem_range.mp (hlt h)
  | vote e u => simpa using List.mem_range.mp (hlt h)
  | reply k u => simpa using List.mem_range.mp (hlt h)

/-- A section changes no other server than its own. -/
theorem unmoved_of_actor {s s' : Cluster n C} {a : Action n C} (h : s.step a = some s') {v : Fin n}
    (hv : s.actor a ≠ some v) : s'.rafts v = s.rafts v := by
  have one : ∀ {w : Fin n} {rf : Raft n C}, some w ≠ some v →
      Function.update s.rafts w rf v = s.rafts v :=
    fun hne => Function.update_of_ne (fun e => hne (congrArg some e.symm)) _ _
  cases a with
  | startOneElection w =>
      cases Option.some.inj h
      exact one hv
  | voteArgs e =>
      obtain ⟨E, _, _, _, rfl⟩ := voteArgs_inv h
      rfl
  | handleVote e u =>
      obtain ⟨E, args, _, _, rfl⟩ := handleVote_inv h
      split <;> exact one hv
  | voteCheck e u =>
      obtain ⟨E, args, reply, _, _, _, rfl⟩ := voteCheck_inv h
      rfl
  | voteReply e u =>
      obtain ⟨E, args, reply, hE, _, _, h⟩ := voteReply_inv h
      simp only [actor, hE, Option.map_some] at hv
      rcases h with ⟨_, _, rfl⟩ | ⟨_, _, rfl⟩ | ⟨_, _, rfl⟩ | ⟨_, rfl⟩ <;> first | rfl | exact one hv
  | startState w command =>
      cases Option.some.inj h
      unfold startState
      split <;> rfl
  | startAppend k grow =>
      obtain ⟨S, hS, _, rfl⟩ := startAppend_inv h
      simp only [actor, hS, Option.map_some] at hv
      exact one hv
  | beatState w =>
      cases Option.some.inj h
      unfold beatState
      split <;> rfl
  | beatSend k =>
      obtain ⟨b, _, _, rfl⟩ := beatSend_inv h
      rfl
  | castState k =>
      obtain ⟨B, _, _, _, rfl⟩ := castState_inv h
      rfl
  | castTerm k =>
      obtain ⟨B, _, _, _, rfl⟩ := castTerm_inv h
      rfl
  | peerState k u =>
      obtain ⟨B, _, _, _, rfl⟩ := peerState_inv h
      rfl
  | peerArgs k u =>
      obtain ⟨B, _, _, _, h⟩ := peerArgs_inv h
      rcases h with rfl | ⟨args, _, _, _, rfl⟩ <;> rfl
  | encode k u m =>
      obtain ⟨B, args, next, slice, encoded, _, _, _, h⟩ := encode_inv h
      rcases h with ⟨_, rfl⟩ | ⟨_, rfl⟩ <;> rfl
  | handleAppend k u grow =>
      obtain ⟨B, args, next, rf, reply, spawn, _, _, _, rfl⟩ := handleAppend_inv h
      split <;> split <;> exact one hv
  | peerCheck k u =>
      obtain ⟨B, args, next, reply, _, _, _, rfl⟩ := peerCheck_inv h
      rfl
  | peerReply k u =>
      obtain ⟨B, args, next, reply, hB, _, _, h⟩ := peerReply_inv h
      simp only [actor, hB, Option.map_some] at hv
      rcases h with ⟨_, _, rfl⟩ | ⟨_, _, next', _, rfl⟩ | ⟨_, rfl⟩ | ⟨_, _, _, _, rfl⟩
      · exact one hv
      · exact one hv
      · exact one hv
      · show Function.update (Function.update s.rafts B.owner _) B.owner _ v = _
        rw [Function.update_idem]
        exact one hv
  | apply w =>
      obtain ⟨rf, _, rfl⟩ := apply_inv h
      exact one hv
  | saveSnapshot w index storage =>
      obtain ⟨rf, _, _, rfl⟩ := saveSnapshot_inv h
      exact one hv
  | restart w grow =>
      cases Option.some.inj h
      exact one hv

/-- **Nothing happens to a server during a pause**, unless the step ends it or is a crash. -/
theorem RpcStep.unmoved {s s' : Cluster n C} {a : Action n C} (hg : RpcStep s a)
    (h : s.step a = some s') {v : Fin n} {p : Pause n} (hp : s.isPaused v p = true) :
    (∃ grow, a = .restart v grow) ∨ a.continues = some p ∨ s'.rafts v = s.rafts v := by
  by_cases hv : s.actor a = some v
  · simp only [RpcStep, rpcGuard, Bool.and_eq_true, Bool.or_eq_true] at hg
    rcases hg.2 with hr | hall
    · cases a with
      | restart w grow =>
          cases hv
          exact Or.inl ⟨grow, rfl⟩
      | _ => cases hr
    · have := List.all_eq_true.mp hall p (mem_pauses hp)
      rw [hv] at this
      simp only [Bool.or_eq_true, decide_eq_true_eq, Option.all_some, hp, Bool.not_true,
        Bool.false_eq_true, or_false] at this
      exact Or.inr (Or.inl this)
  · exact Or.inr (Or.inr (unmoved_of_actor h hv))

theorem RpcStep.saves {s : Cluster n C} {a : Action n C} (h : RpcStep s a) : a.saves = false := by
  simp only [RpcStep, rpcGuard, Bool.and_eq_true, Bool.not_eq_true'] at h
  exact h.1

/-! ## 2. What a paused goroutine has seen still holds -/

/-- The requests of an election are all of one term, the present one as long as it builds them; a
    vote that has passed its check is of the present term. -/
structure SameTerm (now : Nat) (E : Election n) : Prop where
  asks : ∃ t, (∀ u args, (E.call u).request = some args → args.term = t) ∧
    (E.alive = true → E.next < n → now = t)
  vote : E.alive = true → ∀ u args reply, E.call u = .checked args reply → now = args.term

/-- A reply to AppendEntries that has passed its check is of the present term. -/
def StillTerm (now : Nat) (B : Cast n C) : Prop :=
  B.alive = true → ∀ u args next reply, B.peer u = .checked args next reply → now = args.term

structure Unmoved (s : Cluster n C) : Prop where
  start : StartsLead s
  election : ∀ (e : Nat) (E : Election n), s.elections[e]? = some E →
    SameTerm (s.rafts E.owner).currentTerm E
  cast : ∀ (k : Nat) (B : Cast n C), s.casts[k]? = some B →
    StillTerm (s.rafts B.owner).currentTerm B

section Step

variable {s s' : Cluster n C} {a : Action n C}

/-- A `Start` that waits through a step still leads its term. -/
theorem unmoved_starts (hI : Unmoved s) (hg : RpcStep s a) (h : s.step a = some s') :
    StartsLead s' := by
  intro k S hS hal
  rcases starts_turn h k S hS hal with ⟨hS₀, hr, hc⟩ | hnew
  · have hp : s.isPaused S.owner (.start k) = true := by simp [isPaused, hS₀, hal]
    rcases hg.unmoved h hp with ⟨grow, e⟩ | e | e
    · exact absurd e (hr grow)
    · obtain ⟨grow, e⟩ := Action.startAppend_of_continues e
      exact absurd e (hc grow)
    · rw [e]
      exact hI.start k S hS₀ hal
  · exact hnew

/-- An election that waits through a step, or whose request is handled by another server. -/
theorem SameTerm.moves {now : Nat} {E : Election n} (h : SameTerm now E) {u : Fin n}
    {c : VoteCall n} {args : RequestVoteArgs n} (hreq : (E.call u).request = some args)
    (hc : c.request = none ∨ c.request = some args)
    (hchk : ∀ args' reply, c = .checked args' reply → now = args'.term) {nVotes : Nat} :
    SameTerm now { E with nVotes := nVotes, call := Function.update E.call u c } := by
  obtain ⟨⟨t, ht, hnow⟩, hvote⟩ := h
  refine ⟨⟨t, fun w args' hw => ?_, hnow⟩, fun hal w args' reply hw => ?_⟩
  · by_cases hwu : w = u
    · subst hwu
      simp only [Function.update_self] at hw
      rcases hc with hc | hc <;> rw [hc] at hw <;> cases hw
      exact ht w args hreq
    · simp only [Function.update_of_ne hwu] at hw
      exact ht w args' hw
  · by_cases hwu : w = u
    · subst hwu
      simp only [Function.update_self] at hw
      exact hchk args' reply hw
    · simp only [Function.update_of_ne hwu] at hw
      exact hvote hal w args' reply hw

/-- The present term matters only in a pause. -/
theorem SameTerm.transfer {now now' : Nat} {E : Election n} (h : SameTerm now E)
    (hasks : E.alive = true → E.next < n → now' = now)
    (hvote : E.alive = true → ∀ u, (E.call u).isChecked = true → now' = now) : SameTerm now' E := by
  obtain ⟨t, ht, hnow⟩ := h.asks
  refine ⟨⟨t, ht, fun hal hlt => ?_⟩, fun hal u args reply hu => ?_⟩
  · rw [hasks hal hlt]
    exact hnow hal hlt
  · rw [hvote hal u (by rw [hu]; rfl)]
    exact h.vote hal u args reply hu

/-- The term of a server in a pause that the step does not end. -/
theorem RpcStep.term_keeps (hg : RpcStep s a) (h : s.step a = some s') {v : Fin n} {p : Pause n}
    (hp : s.isPaused v p = true) (hr : ∀ grow, a ≠ .restart v grow) (hc : a.continues ≠ some p) :
    (s'.rafts v).currentTerm = (s.rafts v).currentTerm := by
  rcases hg.unmoved h hp with ⟨grow, e⟩ | e | e
  · exact absurd e (hr grow)
  · exact absurd e hc
  · rw [e]

/-- An election keeps its terms through a step that does not end one of its pauses. -/
theorem Unmoved.election_keeps (hI : Unmoved s) (hg : RpcStep s a) (h : s.step a = some s')
    {e : Nat} {E : Election n} (hE : s.elections[e]? = some E)
    (hr : ∀ grow, a ≠ .restart E.owner grow) (hc : a.continues ≠ some (.asks e))
    (hv : ∀ u, a.continues ≠ some (.vote e u)) : SameTerm (s'.rafts E.owner).currentTerm E := by
  refine (hI.election e E hE).transfer (fun hal hlt => ?_) fun hal u hu => ?_
  · exact hg.term_keeps h (p := .asks e) (by simp [isPaused, hE, hal, hlt]) hr hc
  · exact hg.term_keeps h (p := .vote e u) (by simp [isPaused, hE, hal, hu]) hr (hv u)

/-- And one whose vote is counted or refused: nothing else of it is in a pause. -/
theorem Unmoved.election_counts {e : Nat} {u : Fin n} (hI : Unmoved s)
    (hg : RpcStep s (.voteReply e u)) (h : s.step (.voteReply e u) = some s') {E : Election n}
    (hE : s.elections[e]? = some E) {args : RequestVoteArgs n} {reply : RequestVoteReply}
    (hu : E.call u = .checked args reply) {c : VoteCall n}
    (hc : c.request = none ∨ c.request = some args) (hno : c.isChecked = false) {nVotes : Nat} :
    SameTerm (s'.rafts E.owner).currentTerm
      { E with nVotes := nVotes, call := Function.update E.call u c } := by
  refine ((hI.election e E hE).moves (by rw [hu]; rfl) hc ?_).transfer (fun hal hlt => ?_)
    fun hal w hw => ?_
  · rintro args' reply' rfl
    cases hno
  · have hp : s.isPaused E.owner (.asks e) = true := by
      have hal' : E.alive = true := hal
      have hlt' : E.next < n := hlt
      simp [isPaused, hE, hal', hlt']
    exact hg.term_keeps h hp nofun nofun
  · by_cases hwu : w = u
    · subst hwu
      simp only [Function.update_self] at hw
      rw [hno] at hw
      cases hw
    · simp only [Function.update_of_ne hwu] at hw
      have hp : s.isPaused E.owner (.vote e w) = true := by
        have hal' : E.alive = true := hal
        simp [isPaused, hE, hal', hw]
      exact hg.term_keeps h hp nofun fun e => hwu (by cases e; rfl)

/-- The request section sends what the term of the election is. -/
theorem SameTerm.asks_next {rf : Raft n C} {E : Election n} (h : SameTerm rf.currentTerm E)
    (hal : E.alive = true) (hn : E.next < n) :
    SameTerm rf.currentTerm { E with
      next := E.next + 1
      call := if (⟨E.next, hn⟩ : Fin n) = E.owner then E.call
        else Function.update E.call ⟨E.next, hn⟩ (.sent (rf.voteArgs E.owner)) } := by
  obtain ⟨⟨t, ht, hnow⟩, hvote⟩ := h
  refine ⟨⟨t, fun u args hu => ?_, fun _ _ => hnow hal hn⟩, fun hal u args reply hu => ?_⟩
  · dsimp only at hu
    split at hu
    · exact ht u args hu
    · by_cases hun : u = ⟨E.next, hn⟩
      · rw [hun, Function.update_self] at hu
        cases hu
        exact hnow hal hn
      · rw [Function.update_of_ne hun] at hu
        exact ht u args hu
  · dsimp only at hu
    split at hu
    · exact hvote hal u args reply hu
    · by_cases hun : u = ⟨E.next, hn⟩
      · rw [hun, Function.update_self] at hu
        cases hu
      · rw [Function.update_of_ne hun] at hu
        exact hvote hal u args reply hu

/-- An election one of whose calls goes on. -/
theorem Unmoved.election_calls (hI : Unmoved s) (hg : RpcStep s a) (h : s.step a = some s')
    {e : Nat} {E : Election n} (hE : s.elections[e]? = some E) {u : Fin n} {c : VoteCall n}
    (hc : VoteTurn s' e E u a c) {nVotes : Nat} : SameTerm (s'.rafts E.owner).currentTerm
      { E with nVotes := nVotes, call := Function.update E.call u c } := by
  obtain ⟨_, args, hreq, hkeep⟩ := hc.active
  cases hc with
  | handled _ _ hold _ =>
      exact (hI.election_keeps hg h hE nofun nofun nofun).moves hreq hkeep fun _ _ e => by cases e
  | passes args' reply hold ht =>
      refine (hI.election_keeps hg h hE nofun nofun nofun).moves hreq hkeep fun _ _ e => ?_
      cases e
      exact ht
  | drops _ _ hold =>
      exact (hI.election_keeps hg h hE nofun nofun nofun).moves hreq hkeep fun _ _ e => by cases e
  | refused _ _ hold => exact hI.election_counts hg h hE hold (Or.inl rfl) rfl
  | counts _ _ hold _ => exact hI.election_counts hg h hE hold (Or.inr rfl) rfl

theorem unmoved_elections (hI : Unmoved s) (hg : RpcStep s a) (h : s.step a = some s') :
    ∀ (e : Nat) (E : Election n), s'.elections[e]? = some E →
      SameTerm (s'.rafts E.owner).currentTerm E := by
  intro e E' hE'
  cases elections_turn h e E' hE' with
  | kept _ _ _ hE hr ha hc =>
      exact hI.election_keeps hg h hE hr (fun e => ha (Action.voteArgs_of_continues e))
        fun u e => hc u (Action.voteReply_of_continues e)
  | crashed grow _ E hE =>
      obtain ⟨t, ht, _⟩ := (hI.election e E hE).asks
      exact ⟨⟨t, ht, nofun⟩, nofun⟩
  | begins v _ => exact ⟨⟨_, nofun, fun _ _ => rfl⟩, nofun⟩
  | asks _ E hE hal hn hs =>
      rw [hs]
      exact (hI.election e E hE).asks_next hal hn
  | calls _ _ E u c _ hE hc _ => exact hI.election_calls hg h hE hc

/-- A call of a broadcast moves on. -/
theorem StillTerm.moves {now : Nat} {B : Cast n C} (h : StillTerm now B) {u : Fin n}
    {c : PeerCall n C}
    (hc : ∀ args next reply, c = .checked args next reply → now = args.term) {nReplica : Nat}
    {isAgree : Bool} :
    StillTerm now { B with nReplica := nReplica, isAgree := isAgree,
                           peer := Function.update B.peer u c } := by
  intro hal w args next reply hw
  by_cases hwu : w = u
  · subst hwu
    simp only [Function.update_self] at hw
    exact hc args next reply hw
  · simp only [Function.update_of_ne hwu] at hw
    exact h hal w args next reply hw

theorem StillTerm.transfer {now now' : Nat} {B : Cast n C} (h : StillTerm now B)
    (hk : B.alive = true → ∀ u, (B.peer u).isChecked = true → now' = now) : StillTerm now' B := by
  intro hal u args next reply hu
  rw [hk hal u (by rw [hu]; rfl)]
  exact h hal u args next reply hu

/-- A broadcast none of whose calls has been answered. -/
theorem stillTerm_of_quiet {now : Nat} {B : Cast n C} (h : ∀ u, (B.peer u).isChecked = false) :
    StillTerm now B := by
  intro _ u args next reply hu
  have := h u
  rw [hu] at this
  cases this

theorem Unmoved.cast_keeps (hI : Unmoved s) (hg : RpcStep s a) (h : s.step a = some s') {k : Nat}
    {B : Cast n C} (hB : s.casts[k]? = some B) (hr : ∀ grow, a ≠ .restart B.owner grow)
    (hc : ∀ u, a.continues ≠ some (.reply k u)) :
    StillTerm (s'.rafts B.owner).currentTerm B := by
  refine (hI.cast k B hB).transfer fun hal u hu => ?_
  exact hg.term_keeps h (p := .reply k u) (by simp [isPaused, hB, hal, hu]) hr (hc u)

/-- The broadcast whose reply is worked off: no other call of it is in a pause. -/
theorem Unmoved.cast_counts {k : Nat} {u : Fin n} (hI : Unmoved s)
    (hg : RpcStep s (.peerReply k u)) (h : s.step (.peerReply k u) = some s') {B : Cast n C}
    (hB : s.casts[k]? = some B) {c : PeerCall n C} (hno : c.isChecked = false) {nReplica : Nat}
    {isAgree : Bool} :
    StillTerm (s'.rafts B.owner).currentTerm
      { B with nReplica := nReplica, isAgree := isAgree, peer := Function.update B.peer u c } := by
  refine ((hI.cast k B hB).moves ?_).transfer fun hal w hw => ?_
  · rintro args next reply rfl
    cases hno
  · by_cases hwu : w = u
    · subst hwu
      simp only [Function.update_self] at hw
      rw [hno] at hw
      cases hw
    · simp only [Function.update_of_ne hwu] at hw
      have hp : s.isPaused B.owner (.reply k w) = true := by
        have hal' : B.alive = true := hal
        simp [isPaused, hB, hal', hw]
      exact hg.term_keeps h hp nofun fun e => hwu (by cases e; rfl)

/-- A broadcast one of whose calls goes on. -/
theorem Unmoved.cast_calls (hI : Unmoved s) (hg : RpcStep s a) (h : s.step a = some s') {k : Nat}
    {B : Cast n C} (hB : s.casts[k]? = some B) {u : Fin n} {c : PeerCall n C}
    (hc : CallTurn s s' k B u a c) {nReplica : Nat} {isAgree : Bool} :
    StillTerm (s'.rafts B.owner).currentTerm
      { B with nReplica := nReplica, isAgree := isAgree, peer := Function.update B.peer u c } := by
  cases hc with
  | passes args next reply hold ht =>
      refine (hI.cast_keeps hg h hB nofun nofun).moves fun _ _ _ e => ?_
      cases e
      exact ht
  | refused args next reply _ hold hc =>
      rcases hc with rfl | rfl <;> exact hI.cast_counts hg h hB rfl
  | counts args next reply hold hs => exact hI.cast_counts hg h hB rfl
  | looks _ hold hc =>
      refine (hI.cast_keeps hg h hB nofun nofun).moves fun _ _ _ e => ?_
      rcases hc with rfl | rfl <;> cases e
  | givesUp hold => exact (hI.cast_keeps hg h hB nofun nofun).moves fun _ _ _ e => by cases e
  | builds args hold ht hi ha =>
      exact (hI.cast_keeps hg h hB nofun nofun).moves fun _ _ _ e => by cases e
  | reads args next slice encoded m hold =>
      exact (hI.cast_keeps hg h hB nofun nofun).moves fun _ _ _ e => by cases e
  | sends args next slice encoded entries m hold he hg' hs _ =>
      exact (hI.cast_keeps hg h hB nofun nofun).moves fun _ _ _ e => by cases e
  | handled args next reply grow hold hs =>
      exact (hI.cast_keeps hg h hB nofun nofun).moves fun _ _ _ e => by cases e
  | drops args next reply hold =>
      exact (hI.cast_keeps hg h hB nofun nofun).moves fun _ _ _ e => by cases e

theorem unmoved_casts (hI : Unmoved s) (hg : RpcStep s a) (h : s.step a = some s') :
    ∀ (k : Nat) (B : Cast n C), s'.casts[k]? = some B →
      StillTerm (s'.rafts B.owner).currentTerm B := by
  intro k B' hB'
  cases casts_turn h k B' hB' with
  | kept _ _ _ hB hr hc =>
      exact hI.cast_keeps hg h hB hr fun u e => hc u (Action.peerReply_of_continues e)
  | crashed grow _ B hB => exact nofun
  | spawned _ _ _ _ _ hp _ _ => exact stillTerm_of_quiet fun u => by rw [hp u]; rfl
  | looks _ B hB _ =>
      have hk := hI.cast_keeps hg h hB nofun nofun
      exact hk
  | runs _ B hB _ _ =>
      refine stillTerm_of_quiet fun u => ?_
      dsimp only
      split <;> rfl
  | ends _ B hB _ =>
      have hk := hI.cast_keeps hg h hB nofun nofun
      exact hk
  | calls _ _ B u c _ _ hB hc _ => exact hI.cast_calls hg h hB hc

theorem unmoved_step (hI : Unmoved s) (hg : RpcStep s a) (h : s.step a = some s') : Unmoved s' :=
  ⟨unmoved_starts hI hg h, unmoved_elections hI hg h, unmoved_casts hI hg h⟩

theorem unmoved_init : Unmoved (init n C) := ⟨nofun, nofun, nofun⟩

/-! ## 3. The guards are met -/

/-- The reply that is worked off is of the present term. -/
theorem Unmoved.reply_term {k : Nat} {u : Fin n} (hI : Unmoved s)
    (h : s.step (.peerReply k u) = some s') : ∃ B args next reply, s.casts[k]? = some B ∧
      B.peer u = .checked args next reply ∧ (s.rafts B.owner).currentTerm = args.term := by
  obtain ⟨B, args, next, reply, hB, hal, hc, _⟩ := peerReply_inv h
  exact ⟨B, args, next, reply, hB, hc, hI.cast k B hB hal u args next reply hc⟩

theorem Unmoved.termGuard (hI : Unmoved s) (h : s.step a = some s') : s.termGuard a = true := by
  cases a with
  | peerReply k u =>
      obtain ⟨B, args, next, reply, hB, hc, ht⟩ := hI.reply_term h
      simp only [Cluster.termGuard, hB, hc, Bool.or_eq_true, decide_eq_true_eq, ht]
      rcases Nat.lt_or_ge args.term reply.term with hlt | hge
      · exact Or.inl (Or.inr hlt)
      · exact Or.inl (Or.inl (Or.inr hge))
  | _ => rfl

theorem Unmoved.voteGuard (hI : Unmoved s) (h : s.step a = some s') : s.voteGuard a = true := by
  cases a with
  | voteReply e u =>
      obtain ⟨E, args, reply, hE, hal, hc, _⟩ := voteReply_inv h
      obtain ⟨⟨t, ht, _⟩, hvote⟩ := hI.election e E hE
      have hnow := hvote hal u args reply hc
      simp only [Cluster.voteGuard, hE, hc, Bool.or_eq_true, Bool.and_eq_true, decide_eq_true_eq]
      refine Or.inr ⟨hnow.symm, fun w args' hw hcnt => ?_⟩
      -- both requests are of the one term of the election
      have hreq : (E.call w).request = some args' := by
        cases hcall : E.call w with
        | counted args'' =>
            rw [hcall] at hw
            exact hw
        | _ =>
            rw [hcall] at hcnt
            cases hcnt
      rw [hnow, ht w args' hreq, ht u args (by rw [hc]; rfl)]
  | _ => rfl

theorem Unmoved.commitGuard (hI : Unmoved s) (hB : CastsOk s) (h : s.step a = some s') :
    s.commitGuard a = true := by
  cases a with
  | peerReply k u =>
      obtain ⟨B, args, next, reply, hk, hc, ht⟩ := hI.reply_term h
      simp only [Cluster.commitGuard, hk, hc, decide_eq_true_eq]
      intro _ _ _ _
      rw [ht]
      exact (hB B (List.mem_of_getElem? hk)).term u args (by rw [hc]; rfl)
  | _ => rfl

end Step

/-- **At this granularity the other guards are met by themselves**, also along the rest of a
    run. -/
theorem intact_reach {s₁ s₂ : Cluster n C}
    (h₁ : Reach step (fun s a => RpcStep s a ∧ s.encodeGuard a) (init n C) s₁)
    (h₂ : Reach step (fun s a => RpcStep s a ∧ s.encodeGuard a) s₁ s₂) :
    Reach step IntactStep (init n C) s₁ ∧ Reach step IntactStep s₁ s₂ := by
  have hstep : ∀ (s : Cluster n C) (a : Action n C) (s' : Cluster n C), Unmoved s ∧ CastsOk s →
      RpcStep s a ∧ s.encodeGuard a → s.step a = some s' → Unmoved s' ∧ CastsOk s' :=
    fun s a s' hI hg hs => ⟨unmoved_step hI.1 hg.1 hs, castsOk_step hs hI.2⟩
  have hintact : ∀ (s : Cluster n C) (a : Action n C) (s' : Cluster n C), Unmoved s ∧ CastsOk s →
      RpcStep s a ∧ s.encodeGuard a → s.step a = some s' → IntactStep s a :=
    fun s a s' hI hg hs => ⟨⟨hg.1.saves, hI.1.termGuard hs, hI.1.voteGuard hs,
      hI.1.start.startGuard hs, hI.1.commitGuard hI.2 hs⟩, hg.2⟩
  obtain ⟨hI, hr₁⟩ := h₁.strengthen ⟨unmoved_init, fun _ h => absurd h List.not_mem_nil⟩ hstep hintact
  exact ⟨hr₁, (Reach.strengthen (I := fun s => Unmoved s ∧ CastsOk s) hI hstep hintact h₂).2⟩

/-! ## 4. Leader completeness and log matching -/

/-- **Leader completeness**: who becomes leader in a later term than that of a commit holds then,
    up to the committed index, what the committer held. -/
theorem leader_completeness {s : Cluster n C}
    (h : Reach step (fun s a => RpcStep s a ∧ s.encodeGuard a) (init n C) s) {v u : Fin n}
    {t t' i : Nat} {lg lg' : List (LogEntry C)} (hc : Event.commit v t i lg ∈ s.hist)
    (hl : Event.lead u t' lg' ∈ s.hist) (ht : t < t') : SameUpTo i lg lg' := by
  have hr := (intact_reach h .start).1
  obtain ⟨a, _, hS⟩ := onBoard_intact .start hr onBoard_init
  have hshown := shown_whole hr
  obtain ⟨later, earlier, hh⟩ := List.append_of_mem hc
  obtain ⟨_, hfix, j, G, hG, hpre, hi, _⟩ := hS.records.commit later earlier v t i lg hh
  obtain rfl := whole_of_cut hG (hshown _ hc lg rfl)
  obtain ⟨j', hG'⟩ := hS.records.start u t' lg' hl
  have hwhole := whole_of_cut hG' (hshown _ hl lg' rfl)
  have hlead : a.lead t' ≠ none := by
    rw [(hS.records.lead t' u).mpr ⟨lg', hl⟩]
    nofun
  have hcar := hS.good.fixed_carried hfix t' ht hlead
  rw [← take_of_begins hpre (by omega)] at hcar
  rw [hwhole]
  exact sameUpTo_of_begins hG.run hi hcar

/-- Server 0 wins term 1 with the vote of server 1 and appends an entry. -/
def firstTerm : List (Action 3 Nat) :=
  [.startOneElection 0, .voteArgs 0, .voteArgs 0, .voteArgs 0, .handleVote 0 1, .voteCheck 0 1,
    .voteReply 0 1, .startState 0 (some 7), .startAppend 0 0]

/-- It commits the entry with the acknowledgement of server 1, which then wins term 2 with the vote
    of server 2. -/
def secondTerm : List (Action 3 Nat) :=
  [.castState 0, .castTerm 0, .peerState 0 1, .peerArgs 0 1, .encode 0 1 9, .handleAppend 0 1 0,
    .peerCheck 0 1, .peerReply 0 1, .startOneElection 1, .voteArgs 1, .voteArgs 1, .voteArgs 1,
    .handleVote 1 2, .voteCheck 1 2, .voteReply 1 2]

theorem rpc_of_checked (s : Cluster n Nat) (a : Action n Nat)
    (h : (s.rpcGuard a && decide (s.encodeGuard a)) = true) : RpcStep s a ∧ s.encodeGuard a := by
  simpa only [RpcStep, Bool.and_eq_true, decide_eq_true_eq] using h

theorem leader_completeness_second : ∃ (s : Cluster 3 Nat) (lg : List (LogEntry Nat)),
    Reach step (fun s a => RpcStep s a ∧ s.encodeGuard a) (init 3 Nat) s ∧
    Event.lead 1 2 lg ∈ s.hist ∧
    Event.commit 0 1 1 [⟨0, 0, none⟩, ⟨1, 1, some 7⟩] ∈ s.hist ∧
    lg[1]? = some ⟨1, 1, some 7⟩ := by
  have run : (exec step (fun s a => s.rpcGuard a && decide (s.encodeGuard a)) (init 3 Nat)
      (firstTerm ++ secondTerm)).any (fun s => decide (Event.lead 1 2 (s.rafts 1).log ∈ s.hist ∧
        Event.commit 0 1 1 [⟨0, 0, none⟩, ⟨1, 1, some 7⟩] ∈ s.hist)) = true := by decide +kernel
  obtain ⟨s, hr, run⟩ := exists_of_exec run
  obtain ⟨hl, hc⟩ := of_decide_eq_true run
  replace hr := hr.mono rpc_of_checked
  obtain ⟨e, he, he', _⟩ := leader_completeness hr hc hl (by decide) 1 (le_refl _) (le_refl _)
  cases he
  exact ⟨s, _, hr, hl, hc, he'⟩

/-- Server 0 wins term 1 with the votes of servers 2 and 3, starts 10 and 20 and gives 10 to server
    1. The request for 20 is built, as a slice of its array. Server 2 wins term 2 with the votes of
    servers 3 and 4, starts 30 and 40 and gives both to server 0, which writes them over 10 and 20
    in its array. Now the request of term 1 is encoded, and server 1 takes 40 behind 10. -/
def overwritten : List (Action 5 Nat) :=
  [.startOneElection 0, .voteArgs 0, .voteArgs 0, .voteArgs 0, .voteArgs 0, .voteArgs 0,
    .handleVote 0 2, .voteCheck 0 2, .voteReply 0 2, .handleVote 0 3, .voteCheck 0 3,
    .voteReply 0 3, .startState 0 (some 10), .startAppend 0 0, .startState 0 (some 20),
    .startAppend 1 1,
    .castState 0, .castTerm 0, .peerState 0 1, .peerArgs 0 1, .encode 0 1 1, .handleAppend 0 1 0,
    .peerCheck 0 1, .peerReply 0 1, .castState 1, .castTerm 1, .peerState 1 1, .peerArgs 1 1,
    .startOneElection 2, .voteArgs 1, .voteArgs 1, .voteArgs 1, .voteArgs 1, .voteArgs 1,
    .handleVote 1 3, .voteCheck 1 3, .voteReply 1 3, .handleVote 1 4, .voteCheck 1 4,
    .voteReply 1 4, .startState 2 (some 30), .startAppend 2 0, .startState 2 (some 40),
    .startAppend 3 1,
    .castState 3, .castTerm 3, .peerState 3 0, .peerArgs 3 0, .encode 3 0 2, .handleAppend 3 0 0,
    .encode 1 1 1, .handleAppend 1 1 0]

/-- Server 2 commits 30 and 40 with the acknowledgements of servers 0 and 3. Server 1 hears of term
    2 and wins term 3 with the votes of the same two. -/
def overruled : List (Action 5 Nat) :=
  [.peerCheck 3 0, .peerReply 3 0, .peerState 3 3, .peerArgs 3 3, .encode 3 3 2,
    .handleAppend 3 3 0, .peerCheck 3 3, .peerReply 3 3, .handleVote 1 1,
    .startOneElection 1, .voteArgs 2, .voteArgs 2, .voteArgs 2, .voteArgs 2, .voteArgs 2,
    .handleVote 2 0, .voteCheck 2 0, .voteReply 2 0, .handleVote 2 3, .voteCheck 2 3,
    .voteReply 2 3]

/-- **Without `encodeGuard`**: server 1 leads term 3 without the entry 1 that was committed in
    term 2. -/
theorem committed_entry_lost : ∃ s : Cluster 5 Nat, Reach step RpcStep (init 5 Nat) s ∧
    Event.commit 2 2 2 [⟨0, 0, none⟩, ⟨1, 2, some 30⟩, ⟨2, 2, some 40⟩] ∈ s.hist ∧
    Event.lead 1 3 [⟨0, 0, none⟩, ⟨1, 1, some 10⟩, ⟨2, 2, some 40⟩] ∈ s.hist := by
  have run : (exec step rpcGuard (init 5 Nat) (overwritten ++ overruled)).any (fun s => decide
      (Event.commit 2 2 2 [⟨0, 0, none⟩, ⟨1, 2, some 30⟩, ⟨2, 2, some 40⟩] ∈ s.hist ∧
        Event.lead 1 3 [⟨0, 0, none⟩, ⟨1, 1, some 10⟩, ⟨2, 2, some 40⟩] ∈ s.hist)) = true := by
    decide +kernel
  obtain ⟨s, hr, run⟩ := exists_of_exec run
  exact ⟨s, hr, of_decide_eq_true run⟩

/-- Without snapshots the log of a server is the one the board shows. -/
theorem log_eq_board {s : Cluster n C} (hr : Reach step IntactStep (init n C) s)
    {a : Board (Fin n) (LogEntry C)} (hS : OnBoard s a) (v : Fin n) :
    (s.rafts v).log = a.log v ∧ From 0 (s.rafts v).log := by
  have hcut := (hS.mirror v).holds.cut
  rw [(unsnapped_reach (fun _ _ hg => hg.plain) hr).snap v] at hcut
  exact ⟨hcut.eq_whole, hcut.from_cut⟩

/-- **Log matching**: two logs of one run, at any two moments, that share index and term of an entry
    are the same up to there. -/
theorem log_matching {s₁ s₂ : Cluster n C}
    (h₁ : Reach step (fun s a => RpcStep s a ∧ s.encodeGuard a) (init n C) s₁)
    (h₂ : Reach step (fun s a => RpcStep s a ∧ s.encodeGuard a) s₁ s₂) {v w : Fin n}
    {e f : LogEntry C} (he : e ∈ (s₁.rafts v).log) (hf : f ∈ (s₂.rafts w).log) (hi : e.index = f.index)
    (ht : e.term = f.term) :
    e = f ∧ ∀ k ≤ e.index, ∃ x, (s₁.rafts v).log[k]? = some x ∧ (s₂.rafts w).log[k]? = some x ∧
      x.index = k := by
  obtain ⟨hr₁, hr₂⟩ := intact_reach h₁ h₂
  obtain ⟨a, _, hS⟩ := onBoard_intact .start hr₁ onBoard_init
  obtain ⟨a', hle, hS'⟩ := onBoard_intact hr₁ hr₂ hS
  obtain ⟨e1, f1⟩ := log_eq_board hr₁ hS v
  obtain ⟨e2, f2⟩ := log_eq_board (hr₁.trans hr₂) hS' w
  -- an entry stands at its index
  have place : ∀ {lg : List (LogEntry C)} {x : LogEntry C}, From 0 lg → x ∈ lg →
      lg[x.index]? = some x := by
    intro lg x hfrom hx
    obtain ⟨j, hj⟩ := List.mem_iff_getElem?.mp hx
    rw [hfrom j x hj, Nat.zero_add]
    exact hj
  have he' := place f1 he
  have hf' := place f2 hf
  rw [← hi] at hf'
  have hag : Agree LogEntry.term a'.line (s₁.rafts v).log := by
    rw [e1]
    exact (hS.good.agree_log v).grow hle.line
  have hag' : Agree LogEntry.term a'.line (s₂.rafts w).log := by
    rw [e2]
    exact hS'.good.agree_log w
  have hsame := hag.matching hag' he' hf' ht
  have hget : ∀ k ≤ e.index, (s₁.rafts v).log[k]? = (s₂.rafts w).log[k]? := by
    intro k hk
    rw [← List.getElem?_take_of_lt (Nat.lt_succ_of_le hk), hsame,
      List.getElem?_take_of_lt (Nat.lt_succ_of_le hk)]
  refine ⟨?_, fun k hk => ?_⟩
  · have := hget e.index (le_refl _)
    rw [he', hf'] at this
    exact Option.some.inj this
  · have hlt := (List.getElem?_eq_some_iff.mp he').1
    obtain ⟨x, hx⟩ : ∃ x, (s₁.rafts v).log[k]? = some x :=
      ⟨_, List.getElem?_eq_getElem (by omega)⟩
    exact ⟨x, hx, (hget k hk) ▸ hx, by rw [f1 k x hx]; omega⟩

/-- The entry of server 0 in the first term and the one server 1 leads with in the second. -/
theorem log_matching_terms : ∃ s₁ s₂ : Cluster 3 Nat,
    Reach step (fun s a => RpcStep s a ∧ s.encodeGuard a) (init 3 Nat) s₁ ∧
    Reach step (fun s a => RpcStep s a ∧ s.encodeGuard a) s₁ s₂ ∧
    (⟨1, 1, some 7⟩ : LogEntry Nat) ∈ (s₁.rafts 0).log ∧
    ∀ f ∈ (s₂.rafts 1).log, f.index = 1 → f.term = 1 → f.log = some 7 := by
  have run : (exec step (fun s a => s.rpcGuard a && decide (s.encodeGuard a)) (init 3 Nat)
      firstTerm).any (fun s => decide ((⟨1, 1, some 7⟩ : LogEntry Nat) ∈ (s.rafts 0).log) &&
        (exec step (fun s a => s.rpcGuard a && decide (s.encodeGuard a)) s secondTerm).any
          fun _ => true) = true := by decide +kernel
  obtain ⟨s₁, hr₁, run⟩ := exists_of_exec run
  rw [Bool.and_eq_true] at run
  obtain ⟨s₂, hr₂, _⟩ := exists_of_exec run.2
  replace hr₁ := hr₁.mono rpc_of_checked
  replace hr₂ := hr₂.mono rpc_of_checked
  have he := of_decide_eq_true run.1
  refine ⟨s₁, s₂, hr₁, hr₂, he, fun f hf hi ht => ?_⟩
  rw [← (log_matching hr₁ hr₂ he hf hi.symm ht.symm).1]

/-- **Without `encodeGuard`**: the logs of servers 1 and 2 share entry 2 and differ at 1. -/
theorem logs_part : ∃ s : Cluster 5 Nat, Reach step RpcStep (init 5 Nat) s ∧
    (s.rafts 1).log = [⟨0, 0, none⟩, ⟨1, 1, some 10⟩, ⟨2, 2, some 40⟩] ∧
    (s.rafts 2).log = [⟨0, 0, none⟩, ⟨1, 2, some 30⟩, ⟨2, 2, some 40⟩] := by
  have run : (exec step rpcGuard (init 5 Nat) overwritten).any (fun s => decide
      ((s.rafts 1).log = [⟨0, 0, none⟩, ⟨1, 1, some 10⟩, ⟨2, 2, some 40⟩] ∧
        (s.rafts 2).log = [⟨0, 0, none⟩, ⟨1, 2, some 30⟩, ⟨2, 2, some 40⟩])) = true := by
    decide +kernel
  obtain ⟨s, hr, run⟩ := exists_of_exec run
  exact ⟨s, hr, of_decide_eq_true run⟩

end Cluster

end Mit6824
