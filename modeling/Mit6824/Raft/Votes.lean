/-
  File:      Mit6824/Raft/Votes.lean
  Subject:   ELECTIONS (raft.go lines 748-823, 256-289): who counts as elected.

  `startOneElection` shares one counter `nVotes` between the goroutines of its peers. A goroutine
  builds its request from the term of THAT moment (lines 767-776), and a reply is checked against
  the current term in one section (783-788) and counted in another (801-816). A counter can so
  hold votes of several terms, and win an election in a term in which nobody was asked.

  * `Election.Ok` -- a counter counts distinct peers, each of which has voted for the owner in the
    term of its request; kept by whatever a step can make of an election (`elections_turn`);
  * `voteGuard` -- a vote wins only if all votes counted are of the current term;
  * `election_safety` -- in every run whose steps meet `termGuard` and `voteGuard`, whoever becomes
    leader in `t` holds votes of `t` by a majority, and a term has one leader at most;
  * `two_leaders` -- without `voteGuard` two servers lead the same term.
-/
import Mathlib.Data.Fintype.Card
import Mit6824.Raft.Terms

namespace Mit6824

open Lib

variable {n : Nat} {C : Type}

/-! ## 1. Roles -/

/-- A server takes the role of a candidate or a leader by an entry on record, and keeps it for its
    term. -/
theorem Raft.Change.role {me : Fin n} {a : Action n C} {rf rf' : Raft n C}
    {evs : List (Event n C)} (h : Raft.Change me a rf evs rf') :
    rf'.state = .follower ∨ (rf'.state = rf.state ∧ rf'.currentTerm = rf.currentTerm) ∨
      (rf'.state = .candidate ∧ rf.currentTerm < rf'.currentTerm ∧
        Event.vote me me rf'.currentTerm ∈ evs) ∨
      (rf'.state = .leader ∧ rf'.currentTerm = rf.currentTerm ∧
        Event.lead me rf.currentTerm rf.log ∈ evs) := by
  have hcatch : ∀ t, (rf.catchUp t).state = .follower ∨
      ((rf.catchUp t).state = rf.state ∧ (rf.catchUp t).currentTerm = rf.currentTerm) := by
    intro t
    rcases rf.catchUp_cases t with ⟨_, e⟩ | ⟨_, e⟩ <;> rw [e]
    · exact Or.inl (Raft.stepDown_state _ _)
    · exact Or.inr ⟨rfl, rfl⟩
  cases h with
  | idle => exact Or.inr (Or.inl ⟨rfl, rfl⟩)
  | send => exact Or.inr (Or.inl ⟨rfl, rfl⟩)
  | candidate =>
      exact Or.inr (Or.inr (Or.inl ⟨by simp [Raft.becomeCandidate], by simp [Raft.becomeCandidate],
        by simp⟩))
  | vote e _ args =>
      rcases Raft.requestVote_cases rf args with ⟨_, e⟩ | ⟨_, _, e⟩ | ⟨_, _, e⟩ <;> rw [e]
      · exact Or.inr (Or.inl ⟨rfl, rfl⟩)
      · exact Or.inl (by simp)
      · exact (hcatch _).imp_right Or.inl
  | down => exact Or.inl (Raft.stepDown_state _ _)
  | lead =>
      exact Or.inr (Or.inr (Or.inr ⟨by simp [Raft.becomeLeader], by simp [Raft.becomeLeader],
        by simp⟩))
  | start => exact Or.inr (Or.inl ⟨by simp, by simp⟩)
  | append k grow _ _ args reply spawn h =>
      rcases Raft.appendEntries_cases h with ⟨_, rfl, _⟩ | ⟨_, _, ha, _⟩ | ⟨_, _, rfl, _⟩
      · exact Or.inr (Or.inl ⟨rfl, rfl⟩)
      · exact Or.inl (Raft.acceptEntries_vote ha).2.2.1
      · exact (hcatch _).imp_right Or.inl
  | next => exact Or.inr (Or.inl ⟨rfl, rfl⟩)
  | count => exact Or.inr (Or.inl ⟨by simp, by simp⟩)
  | commit => exact Or.inr (Or.inl ⟨by simp, by simp⟩)
  | apply _ _ h =>
      obtain ⟨i, ms, rfl⟩ := Raft.apply_frame h
      exact Or.inr (Or.inl ⟨rfl, rfl⟩)
  | snapshot _ _ index storage _ h =>
      rcases Raft.saveSnapshot_cases h with ⟨_, rfl⟩ | ⟨_, e, ls, _, _, rfl⟩
      · exact Or.inr (Or.inl ⟨rfl, rfl⟩)
      · exact Or.inr (Or.inl ⟨by simp, by simp⟩)
  | restart => exact Or.inl (Raft.make_state _ _)

/-- Only a counted vote makes a leader. -/
theorem Raft.Change.lead_by_vote {me v : Fin n} {a : Action n C} {rf rf' : Raft n C} {t : Nat}
    {lg : List (LogEntry C)} {evs : List (Event n C)} (h : Raft.Change me a rf evs rf')
    (hl : Event.lead v t lg ∈ evs) : ∃ e u, a = .voteReply e u := by
  cases h with
  | lead e u => exact ⟨e, u, rfl⟩
  | vote e _ args => split at hl <;> simp at hl
  | append k grow _ _ args reply spawn h => split at hl <;> simp at hl
  | _ => simp at hl

/-- A leader on record leads the term on record. -/
theorem Raft.Change.lead_now {me v : Fin n} {a : Action n C} {rf rf' : Raft n C} {t : Nat}
    {lg : List (LogEntry C)} {evs : List (Event n C)} (h : Raft.Change me a rf evs rf')
    (hl : Event.lead v t lg ∈ evs) : v = me ∧ rf'.currentTerm = t ∧ rf'.state = .leader := by
  cases h with
  | lead e u =>
      simp only [List.mem_singleton, Event.lead.injEq] at hl
      obtain ⟨rfl, rfl, rfl⟩ := hl
      exact ⟨rfl, by simp [Raft.becomeLeader], by simp [Raft.becomeLeader]⟩
  | vote e _ args => split at hl <;> simp at hl
  | append k grow _ _ args reply spawn h => split at hl <;> simp at hl
  | _ => simp at hl

/-! ## 2. The counter of an election -/

/-- The request of a call. -/
def VoteCall.request : VoteCall n → Option (RequestVoteArgs n)
  | .sent args | .replied args _ | .checked args _ | .counted args => some args
  | _ => none

/-- The request of a call that was answered with a vote. -/
def VoteCall.granted : VoteCall n → Option (RequestVoteArgs n)
  | .replied args reply | .checked args reply => if reply.voteGranted then some args else none
  | .counted args => some args
  | _ => none

def VoteCall.isCounted : VoteCall n → Bool
  | .counted _ => true
  | _ => false

theorem VoteCall.granted_of_isCounted {c : VoteCall n} (h : c.isCounted = true) :
    ∃ args, c.granted = some args := by
  cases c with
  | counted args => exact ⟨args, rfl⟩
  | _ => cases h

namespace Election

def counted (E : Election n) : Finset (Fin n) :=
  Finset.univ.filter fun u => (E.call u).isCounted = true

theorem mem_counted {E : Election n} {u : Fin n} :
    u ∈ E.counted ↔ (E.call u).isCounted = true := by simp [counted]

/-- **The books of one election**: it does not ask its owner, nor a peer before its turn; it asks in
    the owner's name, a vote it holds was given in the term of its request, and `nVotes` counts
    peers. -/
structure Ok (hist : List (Event n C)) (E : Election n) : Prop where
  own : E.call E.owner = .idle
  fresh : ∀ u : Fin n, E.next ≤ u → E.call u = .idle
  asks : ∀ u args, (E.call u).request = some args → args.candidateId = E.owner
  granted : ∀ u args, (E.call u).granted = some args → Event.vote u E.owner args.term ∈ hist
  count : E.nVotes = E.counted.card + 1

theorem Ok.mono {hist hist' : List (Event n C)} {E : Election n} (h : E.Ok hist)
    (hsub : ∀ ev ∈ hist, ev ∈ hist') : E.Ok hist' :=
  ⟨h.own, h.fresh, h.asks, fun u args hg => hsub _ (h.granted u args hg), h.count⟩

theorem Ok.alive {hist : List (Event n C)} {E : Election n} (h : E.Ok hist) (b : Bool) :
    { E with alive := b }.Ok hist := ⟨h.own, h.fresh, h.asks, h.granted, h.count⟩

theorem counted_update {E : Election n} {u : Fin n} {c : VoteCall n}
    (hold : (E.call u).isCounted = false) :
    ({ E with call := Function.update E.call u c }).counted =
      if c.isCounted = true then insert u E.counted else E.counted := by
  ext w
  unfold counted
  by_cases hw : w = u
  · subst hw
    by_cases hc : c.isCounted = true <;> simp [hc, hold]
  · by_cases hc : c.isCounted = true <;> simp [hc, hw]

/-- A call moves on, to a counted vote or to another stage. -/
theorem Ok.update {hist : List (Event n C)} {E : Election n} (h : E.Ok hist) {u : Fin n}
    {c : VoteCall n} {next nVotes : Nat} (hu : u ≠ E.owner) (hnext : E.next ≤ next)
    (hlt : u < next) (hold : (E.call u).isCounted = false)
    (hask : ∀ args, c.request = some args → args.candidateId = E.owner)
    (hgr : ∀ args, c.granted = some args → Event.vote u E.owner args.term ∈ hist)
    (hn : nVotes = E.nVotes + (if c.isCounted = true then 1 else 0)) :
    ({ E with next := next, nVotes := nVotes, call := Function.update E.call u c }).Ok hist := by
  refine ⟨?_, fun w hw => ?_, fun w args hw => ?_, fun w args hw => ?_, ?_⟩
  · show Function.update E.call u c E.owner = .idle
    rw [Function.update_of_ne hu.symm]
    exact h.own
  · show Function.update E.call u c w = .idle
    have hwu : w ≠ u := by
      rintro rfl
      exact absurd hw (by simpa using hlt)
    rw [Function.update_of_ne hwu]
    exact h.fresh w (le_trans hnext hw)
  · by_cases hwu : w = u
    · subst hwu
      simp only [Function.update_self] at hw
      exact hask args hw
    · simp only [Function.update_of_ne hwu] at hw
      exact h.asks w args hw
  · by_cases hwu : w = u
    · subst hwu
      simp only [Function.update_self] at hw
      exact hgr args hw
    · simp only [Function.update_of_ne hwu] at hw
      exact h.granted w args hw
  · show nVotes = ({ E with call := Function.update E.call u c }).counted.card + 1
    rw [counted_update hold, hn, h.count]
    split
    · rw [Finset.card_insert_of_notMem (by simp [counted, hold])]
    · rfl

theorem ok_new (hist : List (Event n C)) (v : Fin n) :
    ({ owner := v, alive := true, next := 0, nVotes := 1, call := fun _ => .idle } :
      Election n).Ok hist :=
  ⟨rfl, fun _ _ => rfl, fun _ _ h => by simp [VoteCall.request] at h,
    fun _ _ h => by simp [VoteCall.granted] at h,
    by simp [counted, VoteCall.isCounted]⟩

/-- A call under way is a call of a peer whose turn has come. -/
theorem Ok.asked {hist : List (Event n C)} {E : Election n} (h : E.Ok hist) {u : Fin n}
    (hc : E.call u ≠ .idle) : u ≠ E.owner ∧ u < E.next := by
  refine ⟨?_, ?_⟩
  · rintro rfl
    exact hc h.own
  · by_contra hlt
    exact hc (h.fresh u (not_lt.mp hlt))

/-- A call under way moves on. -/
theorem Ok.moves {hist : List (Event n C)} {E : Election n} (h : E.Ok hist) {u : Fin n}
    {c : VoteCall n} {args : RequestVoteArgs n} (hreq : (E.call u).request = some args)
    (hold : (E.call u).isCounted = false) (hc : c.request = none ∨ c.request = some args)
    (hgr : ∀ args, c.granted = some args → Event.vote u E.owner args.term ∈ hist)
    {nVotes : Nat} (hn : nVotes = E.nVotes + (if c.isCounted = true then 1 else 0)) :
    ({ E with nVotes := nVotes, call := Function.update E.call u c }).Ok hist := by
  obtain ⟨hu, hlt⟩ := h.asked (u := u) (by rintro e; simp [e, VoteCall.request] at hreq)
  refine h.update hu (le_refl _) hlt hold (fun args' hargs => ?_) hgr hn
  rcases hc with hc | hc <;> rw [hc] at hargs
  · cases hargs
  · cases hargs
    exact h.asks u args hreq

end Election

namespace Cluster

/-- The request section: every peer but the owner is asked. -/
theorem ok_voteArgs {hist : List (Event n C)} (s : Cluster n C) {E : Election n}
    (h : E.Ok hist) (hn : E.next < n) :
    ({ E with
      next := E.next + 1
      call := if (⟨E.next, hn⟩ : Fin n) = E.owner then E.call
        else Function.update E.call ⟨E.next, hn⟩
          (.sent ((s.rafts E.owner).voteArgs E.owner)) }).Ok hist := by
  have hidle := h.fresh ⟨E.next, hn⟩ (le_refl _)
  by_cases hu : (⟨E.next, hn⟩ : Fin n) = E.owner
  · rw [if_pos hu]
    exact ⟨h.own, fun u hlt => h.fresh u (Nat.le_of_succ_le hlt), h.asks, h.granted, h.count⟩
  · rw [if_neg hu]
    refine h.update hu (by omega) (by simp) (by rw [hidle]; rfl) ?_ ?_ rfl
    · rintro args ⟨⟩
      rfl
    · rintro args ⟨⟩

/-- The handler puts a granted vote on record. -/
theorem requestVote_granted {rf : Raft n C} {args : RequestVoteArgs n}
    (h : (rf.requestVote args).2.voteGranted = true) : (rf.requestVote args).2.term = args.term := by
  rcases Raft.requestVote_cases rf args with ⟨_, e⟩ | ⟨_, _, e⟩ | ⟨_, _, e⟩ <;> rw [e] at h ⊢
  · cases h

/-- **The next section of one call**, that of `u` in the election `E` at place `e`. -/
inductive VoteTurn (s' : Cluster n C) (e : Nat) (E : Election n) (u : Fin n) :
    Action n C → VoteCall n → Prop
  | handled (args : RequestVoteArgs n) (reply : RequestVoteReply) (hold : E.call u = .sent args)
      (hg : reply.voteGranted = true → Event.vote u args.candidateId args.term ∈ s'.hist) :
      VoteTurn s' e E u (.handleVote e u) (.replied args reply)
  | passes (args : RequestVoteArgs n) (reply : RequestVoteReply)
      (hold : E.call u = .replied args reply) (ht : (s'.rafts E.owner).currentTerm = args.term) :
      VoteTurn s' e E u (.voteCheck e u) (.checked args reply)
  | drops (args : RequestVoteArgs n) (reply : RequestVoteReply)
      (hold : E.call u = .replied args reply) : VoteTurn s' e E u (.voteCheck e u) .done
  | refused (args : RequestVoteArgs n) (reply : RequestVoteReply)
      (hold : E.call u = .checked args reply) : VoteTurn s' e E u (.voteReply e u) .done
  | counts (args : RequestVoteArgs n) (reply : RequestVoteReply)
      (hold : E.call u = .checked args reply) (hg : reply.voteGranted = true) :
      VoteTurn s' e E u (.voteReply e u) (.counted args)

/-- A call that has a next section has a request, which it keeps or drops, and is not counted. -/
theorem VoteTurn.active {s' : Cluster n C} {e : Nat} {E : Election n} {u : Fin n} {a : Action n C}
    {c : VoteCall n} (h : VoteTurn s' e E u a c) : (E.call u).isCounted = false ∧
      ∃ args, (E.call u).request = some args ∧ (c.request = none ∨ c.request = some args) := by
  cases h with
  | handled args _ hold _ => rw [hold]; exact ⟨rfl, args, rfl, Or.inr rfl⟩
  | passes args _ hold _ => rw [hold]; exact ⟨rfl, args, rfl, Or.inr rfl⟩
  | drops args _ hold => rw [hold]; exact ⟨rfl, args, rfl, Or.inl rfl⟩
  | refused args _ hold => rw [hold]; exact ⟨rfl, args, rfl, Or.inl rfl⟩
  | counts args _ hold _ => rw [hold]; exact ⟨rfl, args, rfl, Or.inr rfl⟩

/-- **Where the election at place `e` comes from**: every invariant of elections is read off this. -/
inductive ElectionTurn (s s' : Cluster n C) : Action n C → Nat → Election n → Prop
  | kept (a : Action n C) (e : Nat) (E : Election n) (hE : s.elections[e]? = some E)
      (hr : ∀ grow, a ≠ .restart E.owner grow) (ha : a ≠ .voteArgs e)
      (hc : ∀ u, a ≠ .voteReply e u) : ElectionTurn s s' a e E
  | crashed (grow e : Nat) (E : Election n) (hE : s.elections[e]? = some E) :
      ElectionTurn s s' (.restart E.owner grow) e { E with alive := false }
  | begins (v : Fin n) (e : Nat) : ElectionTurn s s' (.startOneElection v) e
      { owner := v, alive := true, next := 0, nVotes := 1, call := fun _ => .idle }
  | asks (e : Nat) (E : Election n) (hE : s.elections[e]? = some E) (hal : E.alive = true)
      (hn : E.next < n) (hs : s'.rafts = s.rafts) : ElectionTurn s s' (.voteArgs e) e
      { E with
        next := E.next + 1
        call := if (⟨E.next, hn⟩ : Fin n) = E.owner then E.call
          else Function.update E.call ⟨E.next, hn⟩
            (.sent ((s.rafts E.owner).voteArgs E.owner)) }
  | calls (a : Action n C) (e : Nat) (E : Election n) (u : Fin n) (c : VoteCall n) (nVotes : Nat)
      (hE : s.elections[e]? = some E) (hc : VoteTurn s' e E u a c)
      (hn : nVotes = E.nVotes + if c.isCounted = true then 1 else 0) :
      ElectionTurn s s' a e { E with nVotes := nVotes, call := Function.update E.call u c }

theorem elections_turn {s s' : Cluster n C} {a : Action n C} (h : s.step a = some s') :
    ∀ (e : Nat) (E : Election n), s'.elections[e]? = some E → ElectionTurn s s' a e E := by
  cases a with
  | startOneElection w =>
      cases Option.some.inj h
      exact forall_get_concat (fun i E hE => .kept _ i E hE nofun nofun nofun) (.begins w _)
  | voteArgs e =>
      obtain ⟨E, hn, hE, hal, rfl⟩ := voteArgs_inv h
      exact forall_get_set
        (fun i E' hi hE' => .kept _ i E' hE' nofun (fun e => hi (by cases e; rfl)) nofun)
        (.asks e E hE hal hn rfl)
  | handleVote e u =>
      obtain ⟨E, args, hE, hc, hs'⟩ := handleVote_inv h
      have hel : s'.elections = s.elections.set e { E with
          call := Function.update E.call u
            (.replied args ((s.rafts u).requestVote args).2) } := by
        rw [hs']; split <;> rfl
      rw [hel]
      refine forall_get_set (fun i E' _ hE' => .kept _ i E' hE' nofun nofun nofun)
        (.calls _ e E u _ _ hE (.handled args _ hc fun hg => ?_) rfl)
      rw [hs', if_pos hg, requestVote_granted hg]
      exact List.mem_cons_self
  | voteCheck e u =>
      obtain ⟨E, args, reply, hE, _, hc, rfl⟩ := voteCheck_inv h
      by_cases ht : (s.rafts E.owner).currentTerm = args.term
      · rw [if_pos ht]
        exact forall_get_set (fun i E' _ hE' => .kept _ i E' hE' nofun nofun nofun)
          (.calls _ e E u _ _ hE (.passes args reply hc ht) rfl)
      · rw [if_neg ht]
        exact forall_get_set (fun i E' _ hE' => .kept _ i E' hE' nofun nofun nofun)
          (.calls _ e E u _ _ hE (.drops args reply hc) rfl)
  | voteReply e u =>
      obtain ⟨E, args, reply, hE, _, hc, hs'⟩ := voteReply_inv h
      have hk : ∀ (i : Nat) (E' : Election n), i ≠ e → s.elections[i]? = some E' →
          ElectionTurn s s' (.voteReply e u) i E' := fun i E' hi hE' =>
        .kept _ i E' hE' nofun nofun fun _ e => hi (by cases e; rfl)
      rcases hs' with ⟨hg, _, eq⟩ | ⟨hg, _, eq⟩ | ⟨_, _, eq⟩ | ⟨_, eq⟩ <;>
        rw [show s'.elections = _ from congrArg Cluster.elections eq]
      · exact forall_get_set hk (.calls _ e E u _ _ hE (.counts args reply hc hg) rfl)
      · exact forall_get_set hk (.calls _ e E u _ _ hE (.counts args reply hc hg) rfl)
      · exact forall_get_set hk (.calls _ e E u _ _ hE (.refused args reply hc) rfl)
      · exact forall_get_set hk (.calls _ e E u _ _ hE (.refused args reply hc) rfl)
  | restart w grow =>
      cases Option.some.inj h
      intro e E' hE'
      obtain ⟨E, hE, rfl⟩ := Option.map_eq_some_iff.mp
        ((List.getElem?_map (l := s.elections) (i := e)).symm.trans hE')
      split
      · rename_i hw
        subst hw
        exact .crashed grow e E hE
      · rename_i hw
        exact .kept _ e E hE (fun grow e => hw (by cases e; rfl)) nofun nofun
  | _ =>
      intro e E hE
      rw [(step_frame h).elections rfl] at hE
      exact .kept _ e E hE nofun nofun nofun

/-- The books after the next section of a call. -/
theorem ok_calls {s' : Cluster n C} {e : Nat} {E : Election n} {u : Fin n} {a : Action n C}
    {c : VoteCall n} (h : E.Ok s'.hist) (hc : VoteTurn s' e E u a c) {nVotes : Nat}
    (hn : nVotes = E.nVotes + if c.isCounted = true then 1 else 0) :
    ({ E with nVotes := nVotes, call := Function.update E.call u c }).Ok s'.hist := by
  obtain ⟨hcnt, asked, hreq, hkeep⟩ := hc.active
  refine h.moves hreq hcnt hkeep (fun args' hgr => ?_) hn
  cases hc with
  | handled args reply hold hg =>
      simp only [VoteCall.granted] at hgr
      split at hgr
      · rename_i hyes
        cases hgr
        rw [← h.asks u args' (by rw [hold]; rfl)]
        exact hg hyes
      · cases hgr
  | passes args reply hold _ => exact h.granted u args' (by rw [hold]; exact hgr)
  | drops args reply hold => cases hgr
  | refused args reply hold => cases hgr
  | counts args reply hold hg =>
      cases hgr
      exact h.granted u args' (by rw [hold]; simp [VoteCall.granted, hg])

/-- **The books of all elections are in order, step by step.** -/
theorem elections_ok_step {s s' : Cluster n C} {a : Action n C} (h : s.step a = some s')
    (hI : ∀ E ∈ s.elections, E.Ok s.hist) : ∀ E ∈ s'.elections, E.Ok s'.hist := by
  obtain ⟨evs, hh⟩ := hist_step h
  have hof : ∀ {e : Nat} {E : Election n}, s.elections[e]? = some E → E.Ok s'.hist := by
    intro e E hE
    refine (hI E (List.mem_of_getElem? hE)).mono fun ev hev => ?_
    rw [hh]
    exact List.mem_append_right _ hev
  intro E' hE'
  obtain ⟨e, he⟩ := List.mem_iff_getElem?.mp hE'
  cases elections_turn h e E' he with
  | kept _ _ _ hE _ _ _ => exact hof hE
  | crashed grow _ E hE => exact (hof hE).alive false
  | begins v _ => exact Election.ok_new _ _
  | asks _ E hE hal hn _ => exact ok_voteArgs s (hof hE) hn
  | calls _ _ E u c _ hE hc hn => exact ok_calls (hof hE) hc hn

/-! ## 3. Who is elected -/

/-- **A vote wins only if every vote counted is of the current term.** -/
def voteGuard (s : Cluster n C) : Action n C → Bool
  | .voteReply e u =>
      match s.elections[e]? with
      | none => true
      | some E =>
          match E.call u with
          | .checked args reply =>
              !(reply.voteGranted && s.winsVote E) ||
                (decide (args.term = (s.rafts E.owner).currentTerm) &&
                  decide (∀ w, ∀ args' ∈ (E.call w).granted, (E.call w).isCounted = true →
                    args'.term = (s.rafts E.owner).currentTerm))
          | _ => true
  | _ => true

/-- `v` has the votes of a majority in term `t`, its own among them. -/
def Elected (hist : List (Event n C)) (v : Fin n) (t : Nat) : Prop :=
  ∃ Q : Finset (Fin n), majority n ≤ Q.card ∧ v ∈ Q ∧ ∀ u ∈ Q, Event.vote u v t ∈ hist

/-- Two majorities have a server in common. -/
theorem majority_meet {Q Q' : Finset (Fin n)} (h : majority n ≤ Q.card)
    (h' : majority n ≤ Q'.card) : ∃ u, u ∈ Q ∧ u ∈ Q' := by
  by_contra hno
  have hdisj : Disjoint Q Q' := by
    rw [Finset.disjoint_left]
    exact fun u hu hu' => hno ⟨u, hu, hu'⟩
  have hle := Finset.card_le_univ (Q ∪ Q')
  rw [Finset.card_union_of_disjoint hdisj, Fintype.card_fin] at hle
  unfold majority at h h'
  omega

/-- A guarded vote that wins completes a majority of votes of the current term. -/
theorem elected_of_win {s : Cluster n C} {E : Election n} {u : Fin n} {args : RequestVoteArgs n}
    {reply : RequestVoteReply} {e : Nat} (hg : s.voteGuard (.voteReply e u) = true)
    (hE : s.elections[e]? = some E) (hc : E.call u = .checked args reply)
    (hgr : reply.voteGranted = true) (hw : s.winsVote E = true) (hok : E.Ok s.hist)
    (hown : Event.vote E.owner E.owner (s.rafts E.owner).currentTerm ∈ s.hist) :
    Elected s.hist E.owner (s.rafts E.owner).currentTerm := by
  simp only [voteGuard, hE, hc, hgr, hw, Bool.and_self, Bool.not_true, Bool.false_or,
    Bool.and_eq_true, decide_eq_true_eq] at hg
  obtain ⟨hterm, hall⟩ := hg
  have hmaj : majority n ≤ E.nVotes + 1 := (of_decide_eq_true hw).2
  have hu : u ∉ E.counted := by
    rw [Election.mem_counted, hc]
    exact Bool.false_ne_true
  have huo : u ≠ E.owner := (hok.asked (by rw [hc]; nofun)).1
  have ho : E.owner ∉ insert u E.counted := by
    rw [Finset.mem_insert, Election.mem_counted, hok.own]
    rintro (ho | ho)
    · exact huo ho.symm
    · cases ho
  refine ⟨insert E.owner (insert u E.counted), ?_, Finset.mem_insert_self _ _, ?_⟩
  · rw [Finset.card_insert_of_notMem ho, Finset.card_insert_of_notMem hu, ← hok.count]
    exact hmaj
  · intro w hmem
    rcases Finset.mem_insert.mp hmem with rfl | hmem
    · exact hown
    rcases Finset.mem_insert.mp hmem with rfl | hmem
    · rw [← hterm]
      exact hok.granted w args (by rw [hc]; simp [VoteCall.granted, hgr])
    · have hcw := Election.mem_counted.mp hmem
      obtain ⟨args', hgw⟩ := VoteCall.granted_of_isCounted hcw
      rw [← hall w args' hgw hcw]
      exact hok.granted w args' hgw

/-! ## 4. Runs -/

/-- **Elections on record**: the books are in order, a candidate has voted for itself, and whoever
    became leader had been elected. -/
structure ElectInv (s : Cluster n C) : Prop where
  books : ∀ E ∈ s.elections, E.Ok s.hist
  self : ∀ v, (s.rafts v).state = .candidate →
    Event.vote v v (s.rafts v).currentTerm ∈ s.hist
  elected : ∀ later earlier v t lg, s.hist = later ++ .lead v t lg :: earlier →
    Elected earlier v t

theorem self_step {s s' : Cluster n C} {a : Action n C} (h : s.step a = some s')
    (hI : ∀ v, (s.rafts v).state = .candidate →
      Event.vote v v (s.rafts v).currentTerm ∈ s.hist) (v : Fin n)
    (hv : (s'.rafts v).state = .candidate) :
    Event.vote v v (s'.rafts v).currentTerm ∈ s'.hist := by
  obtain ⟨w, evs, hA⟩ := step_acts h
  rw [hA.hist]
  by_cases hvw : v = w
  · subst hvw
    rcases hA.change with hc | ⟨t, _, _, e⟩
    · rcases hc.role with hr | ⟨hr, ht⟩ | ⟨_, _, hev⟩ | ⟨hr, _⟩
      · rw [hr] at hv
        cases hv
      · rw [ht]
        exact List.mem_append_right _ (hI v (hr ▸ hv))
      · exact List.mem_append_left _ hev
      · rw [hr] at hv
        cases hv
    · rw [e, Raft.stepDown_state] at hv
      cases hv
  · rw [hA.others v hvw] at hv ⊢
    exact List.mem_append_right _ (hI v hv)

/-- The entry for a new leader is made when it has been elected. -/
theorem lead_elected {s s' : Cluster n C} {a : Action n C} (h : s.step a = some s')
    (hg : s.voteGuard a = true) (hI : ElectInv s) {w v : Fin n} {evs : List (Event n C)} {t : Nat}
    {lg : List (LogEntry C)} (hA : Acts s a s' w evs) (hl : Event.lead v t lg ∈ evs) :
    evs = [.lead v t lg] ∧ Elected s.hist v t := by
  rcases hA.change with hc | ⟨_, _, rfl, _⟩
  · obtain ⟨e, u, rfl⟩ := hc.lead_by_vote hl
    obtain ⟨E, args, reply, hE, _, hcall, h⟩ := voteReply_inv h
    rcases h with ⟨hgr, hw, rfl⟩ | ⟨_, _, rfl⟩ | ⟨_, _, rfl⟩ | ⟨_, rfl⟩
    · have hevs := hA.evs_one rfl
      rw [hevs, List.mem_singleton, Event.lead.injEq] at hl
      obtain ⟨rfl, rfl, rfl⟩ := hl
      refine ⟨hevs, elected_of_win hg hE hcall hgr hw (hI.books E (List.mem_of_getElem? hE)) ?_⟩
      exact hI.self _ (of_decide_eq_true hw).1
    -- the other exits of the section put nothing on record
    all_goals
      rw [hA.evs_nil rfl] at hl
      exact absurd hl List.not_mem_nil
  · exact absurd hl List.not_mem_nil

theorem elected_step {s s' : Cluster n C} {a : Action n C} (h : s.step a = some s')
    (hg : s.voteGuard a = true) (hI : ElectInv s) (later earlier : List (Event n C)) (v : Fin n)
    (t : Nat) (lg : List (LogEntry C)) (hh : s'.hist = later ++ .lead v t lg :: earlier) :
    Elected earlier v t := by
  obtain ⟨w, evs, hA⟩ := step_acts h
  rw [hA.hist] at hh
  rcases List.append_eq_append_iff.mp hh with ⟨as, rfl, hs⟩ | ⟨cs, rfl, hs⟩
  · exact hI.elected as earlier v t lg hs
  · cases cs with
    | nil => exact hI.elected [] earlier v t lg hs.symm
    | cons ev cs =>
        obtain ⟨rfl, hcs⟩ := List.cons.inj hs
        obtain ⟨he, hel⟩ := lead_elected h hg hI hA (List.mem_append_right _ List.mem_cons_self)
        have hnil : later = [] ∧ cs = [] := by
          cases later with
          | nil => exact ⟨rfl, (List.cons.inj he).2⟩
          | cons x xs => simp at he
        rw [hcs, hnil.2]
        exact hel

theorem electInv_reach {G : Cluster n C → Action n C → Prop}
    (hG : ∀ s a, G s a → s.voteGuard a = true) {s : Cluster n C}
    (h : Reach step G (init n C) s) : ElectInv s := by
  refine Reach.inv ?_ ?_ h
  · refine ⟨fun E hE => absurd hE List.not_mem_nil, fun v hv => ?_, fun later _ v t lg hh => ?_⟩
    · rw [show ((init n C).rafts v).state = .follower from Raft.make_state _ _] at hv
      cases hv
    · simp [init] at hh
  · intro s a s' hI hg hs
    exact ⟨elections_ok_step hs hI.books, self_step hs hI.self, elected_step hs (hG _ _ hg) hI⟩

/-- What the record says of a leader, wherever the entry stands. -/
theorem ElectInv.elected_of_mem {s : Cluster n C} (h : ElectInv s) {v : Fin n} {t : Nat}
    {lg : List (LogEntry C)} (hl : Event.lead v t lg ∈ s.hist) : Elected s.hist v t := by
  obtain ⟨later, earlier, hh⟩ := List.append_of_mem hl
  obtain ⟨Q, hQ, hv, hvotes⟩ := h.elected later earlier v t lg hh
  refine ⟨Q, hQ, hv, fun u hu => ?_⟩
  rw [hh]
  exact List.mem_append_right _ (List.mem_cons_of_mem _ (hvotes u hu))

theorem lead_unique {s : Cluster n C} (hE : ElectInv s) (hV : VoteInv s) {v v' : Fin n} {t : Nat}
    {lg lg' : List (LogEntry C)} (hl : Event.lead v t lg ∈ s.hist)
    (hl' : Event.lead v' t lg' ∈ s.hist) : v = v' := by
  obtain ⟨Q, hQ, _, hvotes⟩ := hE.elected_of_mem hl
  obtain ⟨Q', hQ', _, hvotes'⟩ := hE.elected_of_mem hl'
  obtain ⟨u, hu, hu'⟩ := majority_meet hQ hQ'
  exact hV.single u v v' t (hvotes u hu) (hvotes' u hu')

/-- **Election safety**: in every run whose steps meet both guards. -/
theorem election_safety {s : Cluster n C}
    (h : Reach step (fun s a => s.termGuard a = true ∧ s.voteGuard a = true) (init n C) s) :
    (∀ v v' t lg lg', Event.lead v t lg ∈ s.hist → Event.lead v' t lg' ∈ s.hist → v = v') ∧
    ∀ later earlier v t lg, s.hist = later ++ .lead v t lg :: earlier →
      ∃ Q : Finset (Fin n), n / 2 + 1 ≤ Q.card ∧ v ∈ Q ∧ ∀ u ∈ Q, Event.vote u v t ∈ earlier := by
  have hE := electInv_reach (fun _ _ hg => hg.2) h
  have hV := voteInv_reach (fun _ _ hg => hg.1) h
  exact ⟨fun v v' t lg lg' hl hl' => lead_unique hE hV hl hl', hE.elected⟩

/-- Server 0 asks server 1 for its vote in term 1 and gets it; the check of the reply passes. -/
def oneVote : List (Action 3 Nat) :=
  [.startOneElection 0, .voteArgs 0, .voteArgs 0, .handleVote 0 1, .voteCheck 0 1]

/-- Counted at once, the vote makes server 0 the leader of term 1, by the votes of 0 and 1. -/
theorem election_safety_first : ∃ s : Cluster 3 Nat,
    Reach step (fun s a => s.termGuard a = true ∧ s.voteGuard a = true) (init 3 Nat) s ∧
    Event.lead 0 1 [⟨0, 0, none⟩] ∈ s.hist ∧ (∀ v lg, Event.lead v 1 lg ∈ s.hist → v = 0) ∧
    ∃ Q : Finset (Fin 3), 2 ≤ Q.card ∧ 0 ∈ Q ∧ ∀ u ∈ Q, Event.vote u 0 1 ∈ s.hist := by
  have run : (exec step (fun s a => s.termGuard a && s.voteGuard a) (init 3 Nat)
      (oneVote ++ [.voteReply 0 1])).any (fun s =>
        decide (s.hist = [] ++ .lead 0 1 [⟨0, 0, none⟩] :: s.hist.tail)) = true := by
    decide +kernel
  obtain ⟨s, hr, run⟩ := exists_of_exec run
  have hh := of_decide_eq_true run
  obtain ⟨huniq, hQ⟩ := election_safety (hr.mono fun s a hg => by simpa using hg)
  have hl : Event.lead 0 1 [⟨0, 0, none⟩] ∈ s.hist := by rw [hh]; exact List.mem_cons_self
  obtain ⟨Q, hcard, h0, hvotes⟩ := hQ [] _ 0 1 _ hh
  refine ⟨s, hr.mono fun s a hg => by simpa using hg, hl,
    fun v lg hv => huniq v 0 1 lg _ hv hl, Q, hcard, h0, fun u hu => ?_⟩
  exact List.mem_of_mem_tail (hvotes u hu)

/-- **Without the guard**: the vote of term 1 is counted after server 0 has gone on to term 2, and
    wins that term for it; server 2 wins term 2 by the votes of 2 and 1. -/
theorem two_leaders : ∃ s : Cluster 3 Nat, Reach step AnyStep (init 3 Nat) s ∧
    Event.lead 0 2 [⟨0, 0, none⟩] ∈ s.hist ∧ Event.lead 2 2 [⟨0, 0, none⟩] ∈ s.hist ∧
    ¬ Elected s.hist 0 2 := by
  have run : (exec step (fun _ _ => true) (init 3 Nat)
      (oneVote ++ ([.startOneElection 0, .voteReply 0 1, .startOneElection 2, .startOneElection 2,
        .voteArgs 3, .voteArgs 3, .handleVote 3 1, .voteCheck 3 1, .voteReply 3 1] :
        List (Action 3 Nat)))).any (fun s =>
        decide (Event.lead 0 2 [⟨0, 0, none⟩] ∈ s.hist ∧ Event.lead 2 2 [⟨0, 0, none⟩] ∈ s.hist ∧
          ∀ u, Event.vote u 0 2 ∈ s.hist → u = 0)) = true := by decide +kernel
  obtain ⟨s, hr, run⟩ := exists_of_run run
  obtain ⟨h0, h2, hvotes⟩ := of_decide_eq_true run
  refine ⟨s, hr, h0, h2, ?_⟩
  rintro ⟨Q, hQ, _, hall⟩
  -- only server 0 itself has voted for it in term 2
  have hle := Finset.card_le_one.mpr fun u hu w hw =>
    (hvotes u (hall u hu)).trans (hvotes w (hall w hw)).symm
  unfold majority at hQ
  omega

end Cluster

end Mit6824
