/-
  File:      Mit6824/Raft/SimVotes.lean
  Subject:   ELECTIONS AS MOVES ON THE BOARD (raft.go lines 278-345, 741-823), and the sections
             that do not show there.

  * `onBoard_idle` -- a section that only moves goroutines leaves the board as it is; among these
    is the building of a request, which says what the line of its term says (`onBoard_peerArgs`),
    and its encoding, when it reads what was built (`onBoard_encode`);
  * `Advances.onBoard` -- a server that goes on to a later term enters it;
  * `onBoard_startOneElection`, `onBoard_handleVote` -- a vote casts a ballot;
  * `onBoard_win` -- the vote that wins crowns.
-/
import Mit6824.Raft.OnBoard

namespace Mit6824.Cluster

open Lib

variable {n : Nat} {C : Type}

section Steps

variable {s s' : Cluster n C} {a : Board (Fin n) (LogEntry C)}

/-! ## 1. Sections that leave the board alone -/

theorem section_update {a' : Board (Fin n) (LogEntry C)} {v : Fin n} {rf : Raft n C}
    (hr : s'.rafts = Function.update s.rafts v rf) (hm : Board.MovedBy v a a') (hI : Good a')
    (hack : a'.LeadAcked) (hsub : ∀ ev ∈ s.hist, ev ∈ s'.hist) (hmir : Mirrors a' v rf)
    (hc : Calm a a' v (s.rafts v) rf) : Section s s' a a' v where
  others w hw := by rw [hr, Function.update_of_ne hw]
  moved := hm
  good := hI
  leadAcked := hack
  hist_sub := hsub
  mirror := by rw [hr, Function.update_self]; exact hmir
  calm := by rw [hr, Function.update_self]; exact hc

/-- A change of one server that the board does not show. -/
theorem section_still {v : Fin n} {rf : Raft n C} (hS : OnBoard s a)
    (hr : s'.rafts = Function.update s.rafts v rf) (hsub : ∀ ev ∈ s.hist, ev ∈ s'.hist)
    (hmir : Mirrors a v rf) (hc : Calm a a v (s.rafts v) rf) : Section s s' a a v :=
  section_update hr (Board.MovedBy.refl v a) hS.good hS.leadAcked hsub hmir hc

theorem section_idle (hS : OnBoard s a) (v : Fin n) (hr : s'.rafts = s.rafts)
    (hsub : ∀ ev ∈ s.hist, ev ∈ s'.hist) : Section s s' a a v := by
  have hr' : s'.rafts = Function.update s.rafts v (s.rafts v) := by
    rw [hr, Function.update_eq_self]
  exact section_still hS hr' hsub (hS.mirror v) (Calm.same rfl rfl)

/-- **A section that only moves goroutines.** -/
theorem onBoard_idle (hS : OnBoard s a) (v : Fin n) (hr : s'.rafts = s.rafts)
    (hh : s'.hist = s.hist) (hp : s'.past = s.past)
    (hasks : ∀ E ∈ s'.elections, Asks a (s.rafts E.owner) E)
    (hcasts : ∀ B ∈ s'.casts, Spreads a s.hist (s.rafts B.owner) B) : OnBoard s' a := by
  have hsec := section_idle hS v hr (by rw [hh]; exact fun _ h => h)
  refine hsec.onBoard hS rfl hS.lines (by rw [hr]; exact fun _ => rfl) ?_ (hsec.past hS hp) ?_ ?_
  · rw [hh]; exact hS.records
  · rw [hr]; exact hasks
  · rw [hr, hh]; exact hcasts

theorem onBoard_voteArgs {e : Nat} (h : s.voteArgs e = some s') (hS : OnBoard s a) :
    OnBoard s' a := by
  obtain ⟨E, hn, hE, _, rfl⟩ := voteArgs_inv h
  have hask := hS.asks E (List.mem_of_getElem? hE)
  refine onBoard_idle hS E.owner rfl rfl rfl (forall_mem_set hS.asks ?_) hS.casts
  intro u args hr
  by_cases hu : (⟨E.next, hn⟩ : Fin n) = E.owner
  · simp only [if_pos hu] at hr
    exact hask u args hr
  · simp only [if_neg hu] at hr
    by_cases hun : u = ⟨E.next, hn⟩
    · -- the new request: term and log of this very moment
      subst hun
      simp only [Function.update_self, VoteCall.request, Option.some.injEq] at hr
      subst hr
      exact ⟨le_refl _, fun _ _ => ((hS.mirror E.owner).holds.lastOf_eq_last).symm⟩
    · simp only [Function.update_of_ne hun] at hr
      exact hask u args hr

theorem onBoard_voteCheck {e : Nat} {u : Fin n} (h : s.voteCheck e u = some s')
    (hS : OnBoard s a) : OnBoard s' a := by
  obtain ⟨E, args, reply, hE, _, hc, rfl⟩ := voteCheck_inv h
  refine onBoard_idle hS E.owner rfl rfl rfl (forall_mem_set hS.asks ?_) hS.casts
  refine (hS.asks E (List.mem_of_getElem? hE)).call ?_ E.nVotes
  rw [hc]
  split
  · exact Or.inr rfl
  · exact Or.inl rfl

/-- A broadcast that begins now, at the last index of its owner. -/
theorem spreads_new (hist : List (Event n C)) {v : Fin n} {rf : Raft n C} (hI : Good a)
    (hm : Mirrors a v rf) {i : Nat} (hi : i + 1 = (a.log v).length) :
    Spreads a hist rf
      { owner := v, alive := true, index := i, term := rf.currentTerm,
        commitIndex := rf.commitIndex, nReplica := 1, isAgree := false, stage := .spawned,
        peer := fun _ => .idle } where
  led hl := by
    show i < (a.line rf.currentTerm).length
    rw [← hI.lead_log _ v hl hm.term]
    omega
  about _ _ := by show i < (a.log v).length; omega
  commit := by
    refine ⟨(a.log v).take (rf.commitIndex + 1), ?_, ?_⟩
    · have := hm.commit.1
      rw [List.length_take]
      show min (rf.commitIndex + 1) _ = rf.commitIndex + 1
      omega
    · have := hm.commit.2
      rwa [hm.term] at this
  window _ _ _ := by
    have h1 := hm.snap.1
    have h2 := hm.applied.1
    exact ⟨le_trans (by omega) (Nat.le_max_left i _), le_trans (by omega) (Nat.le_max_left i _)⟩
  sent _ _ hr := by cases hr
  acked _ ha := by cases ha

theorem onBoard_beatSend {k : Nat} (h : s.beatSend k = some s') (hS : OnBoard s a) :
    OnBoard s' a := by
  obtain ⟨b, _, _, rfl⟩ := beatSend_inv h
  have hm := hS.mirror b.owner
  refine onBoard_idle hS b.owner rfl rfl rfl hS.asks fun B hB => ?_
  rcases List.mem_append.mp hB with hB | hB
  · exact hS.casts B hB
  · rw [List.mem_singleton.mp hB]
    exact spreads_new _ hS.good hm hm.holds.last_index

theorem onBoard_castState {k : Nat} (h : s.castState k = some s') (hS : OnBoard s a) :
    OnBoard s' a := by
  obtain ⟨B, hB, _, _, rfl⟩ := castState_inv h
  refine onBoard_idle hS B.owner rfl rfl rfl hS.asks (forall_mem_set hS.casts ?_)
  exact (hS.casts B (List.mem_of_getElem? hB)).quiet rfl rfl rfl rfl rfl
    fun u => Or.inr (Or.inr rfl)

theorem onBoard_castTerm {k : Nat} (h : s.castTerm k = some s') (hS : OnBoard s a) :
    OnBoard s' a := by
  obtain ⟨B, hB, _, _, rfl⟩ := castTerm_inv h
  have hsp := hS.casts B (List.mem_of_getElem? hB)
  refine onBoard_idle hS B.owner rfl rfl rfl hS.asks (forall_mem_set hS.casts ?_)
  split
  · refine hsp.quiet rfl rfl rfl rfl rfl fun u => ?_
    by_cases hu : u = B.owner
    · exact Or.inl (if_pos hu)
    · exact Or.inr (Or.inl (if_neg hu))
  · exact hsp.quiet rfl rfl rfl rfl rfl fun u => Or.inr (Or.inr rfl)

theorem onBoard_peerState {k : Nat} {u : Fin n} (h : s.peerState k u = some s')
    (hS : OnBoard s a) : OnBoard s' a := by
  obtain ⟨B, hB, _, _, rfl⟩ := peerState_inv h
  refine onBoard_idle hS B.owner rfl rfl rfl hS.asks (forall_mem_set hS.casts ?_)
  refine (hS.casts B (List.mem_of_getElem? hB)).peer (fun args hr => ?_) (fun ha => ?_) _ _
  · split at hr <;> cases hr
  · split at ha <;> cases ha

theorem onBoard_peerCheck {k : Nat} {u : Fin n} (h : s.peerCheck k u = some s')
    (hS : OnBoard s a) : OnBoard s' a := by
  obtain ⟨B, args, next, reply, hB, _, hp, rfl⟩ := peerCheck_inv h
  have hsp := hS.casts B (List.mem_of_getElem? hB)
  refine onBoard_idle hS B.owner rfl rfl rfl hS.asks (forall_mem_set hS.casts ?_)
  refine hsp.peer (fun args' hr => ?_) (fun ha => ?_) _ _
  · split at hr
    · exact hsp.sent u args' (by rw [hp]; exact hr)
    · cases hr
  · split at ha
    · exact hsp.acked u (by rw [hp]; exact ha)
    · cases ha

/-- A broadcast under way is a leader's. -/
theorem lead_of_running (hS : OnBoard s a) (hK : Known s) {B : Cast n C} (hB : B ∈ s.casts)
    {u : Fin n} (hp : B.peer u ≠ .idle) : a.lead B.term = some B.owner := by
  obtain ⟨_, hrun⟩ := (hK.casts B hB).called hp
  exact (hS.records.lead _ _).mpr ((hK.casters B hB).led hrun)

/-- **A request is built from the line**: its broadcast outlived nothing that would matter. -/
theorem onBoard_peerArgs {k : Nat} {u : Fin n} (h : s.peerArgs k u = some s') (hS : OnBoard s a)
    (hK : Known s) : OnBoard s' a := by
  obtain ⟨B, hB, hal, hp, h⟩ := peerArgs_inv h
  have hmem := List.mem_of_getElem? hB
  have hsp := hS.casts B hmem
  rcases h with rfl | ⟨args, ht, hla, hargs, rfl⟩
  · refine onBoard_idle hS B.owner rfl rfl rfl hS.asks (forall_mem_set hS.casts ?_)
    exact hsp.peer (fun args hr => by cases hr) (fun ha => by cases ha) _ _
  · have hl := lead_of_running hS hK hmem (u := u) (by rw [hp]; nofun)
    have hw := (hsp.window hal ht (Or.inr hl)).1
    have hcar := carries_appendArgs hS.good (hS.mirror B.owner) hargs ht hl (hsp.led hl)
      (by omega) hsp.commit
    refine onBoard_idle hS B.owner rfl rfl rfl hS.asks (forall_mem_set hS.casts ?_)
    refine hsp.peer (fun args' hr => ?_) (fun ha => by cases ha) _ _
    cases hr
    exact ⟨_, hcar⟩

/-- **It is encoded as it was built.** -/
theorem onBoard_encode {k m : Nat} {u : Fin n} (h : s.encode k u m = some s')
    (hg : s.encodeGuard (.encode k u m)) (hS : OnBoard s a) (hK : Known s) : OnBoard s' a := by
  obtain ⟨B, args, next, slice, encoded, hB, _, hp, h⟩ := encode_inv h
  have hmem := List.mem_of_getElem? hB
  have hcar := (hS.casts B hmem).sent u args (by rw [hp]; rfl)
  rcases h with ⟨_, rfl⟩ | ⟨hle, hs'⟩
  · refine onBoard_idle hS B.owner rfl rfl rfl hS.asks (forall_mem_set hS.casts ?_)
    refine (hS.casts B hmem).peer (fun args' hr => ?_) (fun ha => by cases ha) _ _
    cases hr
    exact hcar
  · rw [encodeGuard_readOn hg hB hp hle] at hs'
    subst hs'
    have hsec : Section s ((s.setPeer k B u (.sent args next)).record (.send B.owner u args)) a a
        B.owner := section_idle hS B.owner rfl fun ev hev => List.mem_cons_of_mem _ hev
    refine hsec.onBoard hS rfl hS.lines (fun _ => rfl) (hS.records.cons rfl) (hsec.past hS rfl)
      hS.asks (forall_mem_set (fun B' hB' => hsec.spreads hS hK rfl (Steady.refl _ _) hB') ?_)
    refine (hsec.spreads hS hK rfl (Steady.refl _ _) hmem).peer (fun args' hr => ?_)
      (fun ha => by cases ha) _ _
    cases hr
    exact hcar

/-! ## 2. Later terms -/

/-- **A server that at most goes on to the term `t`**: it does not become a candidate. -/
structure Advances (a : Board (Fin n) (LogEntry C)) (v : Fin n) (t : Nat) (rf rf' : Raft n C) :
    Prop where
  mirror : Mirrors (a.advance v t) v rf'
  term_le : rf.currentTerm ≤ rf'.currentTerm
  cand : rf'.state = .candidate → rf'.currentTerm = rf.currentTerm ∧ rf.state = .candidate
  snapshot : rf'.snapshot = rf.snapshot
  lastApplied : rf'.lastApplied = rf.lastApplied
  commitIndex : rf'.commitIndex = rf.commitIndex

theorem advances_stepDown {v : Fin n} {rf : Raft n C} (hm : Mirrors a v rf) {t : Nat}
    (ht : rf.currentTerm ≤ t) : Advances a v t rf (rf.stepDown t) where
  mirror := hm.stepDown_le ht
  term_le := by rw [Raft.stepDown_currentTerm]; exact ht
  cand := fun hst => by rw [Raft.stepDown_state] at hst; cases hst
  snapshot := Raft.stepDown_snapshot rf t
  lastApplied := Raft.stepDown_lastApplied rf t
  commitIndex := Raft.stepDown_commitIndex rf t

/-- The check both handlers begin with. -/
theorem advances_catchUp {v : Fin n} {rf : Raft n C} (hm : Mirrors a v rf) (t : Nat) :
    Advances a v t rf (rf.catchUp t) := by
  refine ⟨hm.catchUp t, ?_, fun hst => ?_, Raft.catchUp_snapshot rf t,
    Raft.catchUp_lastApplied rf t, Raft.catchUp_commitIndex rf t⟩ <;>
    rcases rf.catchUp_cases t with ⟨hlt, hc⟩ | ⟨_, hc⟩
  · rw [hc, Raft.stepDown_currentTerm]
    omega
  · rw [hc]
  · rw [hc, Raft.stepDown_state] at hst
    cases hst
  · rw [hc] at hst ⊢
    exact ⟨rfl, hst⟩

section Advance

variable {u : Fin n} {t : Nat} {rf : Raft n C}

theorem Advances.toSection (hA : Advances a u t (s.rafts u) rf) (hS : OnBoard s a)
    (hr : s'.rafts = Function.update s.rafts u rf) (hsub : ∀ ev ∈ s.hist, ev ∈ s'.hist) :
    Section s s' a (a.advance u t) u :=
  section_update hr (Board.advance_moved u t) (hS.good.advance u t) (hS.leadAcked.advance u t) hsub
    hA.mirror ⟨hA.term_le, fun hst _ => ⟨(hA.cand hst).2, by rw [Board.advance_log]⟩⟩

theorem records_advance (hS : OnBoard s a) (u : Fin n) (t : Nat) :
    Records (a.advance u t) s.hist :=
  hS.records.grow (Board.advance_moved u t).grows (Board.advance_vote _ _) (Board.advance_lead _ _)

theorem Advances.spreads (hA : Advances a u t (s.rafts u) rf) (hS : OnBoard s a) (hK : Known s)
    (hr : s'.rafts = Function.update s.rafts u rf) (hsub : ∀ ev ∈ s.hist, ev ∈ s'.hist)
    {B : Cast n C} (hB : B ∈ s.casts) :
    Spreads (a.advance u t) s'.hist (s'.rafts B.owner) B := by
  have hst : Steady (a.advance u t) u (s.rafts u) (s'.rafts u) := by
    rw [hr, Function.update_self]
    exact Steady.same hA.snapshot hA.lastApplied hA.commitIndex.ge
  exact (hA.toSection hS hr hsub).spreads hS hK (Board.advance_lead _ _) hst hB

theorem Advances.onBoard (hA : Advances a u t (s.rafts u) rf) (hS : OnBoard s a)
    (hr : s'.rafts = Function.update s.rafts u rf) (hh : s'.hist = s.hist)
    (hp : s'.past = s.past)
    (hasks : ∀ E ∈ s'.elections, Asks (a.advance u t) (s'.rafts E.owner) E)
    (hcasts : ∀ B ∈ s'.casts, Spreads (a.advance u t) s'.hist (s'.rafts B.owner) B) :
    OnBoard s' (a.advance u t) := by
  have hsec := hA.toSection hS hr (by rw [hh]; exact fun _ h => h)
  refine hsec.onBoard hS (Board.advance_vote _ _) ?_ ?_ ?_ (hsec.past hS hp) hasks hcasts
  · rw [Board.advance_line]
    exact hS.lines
  · rw [hr, Function.update_self]
    exact fun hst => (hA.cand hst).1
  · rw [hh]
    exact records_advance hS u t

end Advance

/-! ## 3. Votes -/

/-- An election enters the next term and casts the candidate's own ballot. -/
theorem onBoard_startOneElection (hS : OnBoard s a) (hK : Known s) (v : Fin n) :
    ∃ a', a ≤ a' ∧ OnBoard (s.startOneElection v) a' := by
  have hm := hS.mirror v
  have hlt : a.term v < (s.rafts v).currentTerm + 1 := by rw [hm.term]; omega
  have hterm : (a.enter v ((s.rafts v).currentTerm + 1)).term v = (s.rafts v).currentTerm + 1 :=
    Function.update_self _ _ _
  have hnone : (a.enter v ((s.rafts v).currentTerm + 1)).vote
      ((a.enter v ((s.rafts v).currentTerm + 1)).term v) v = none := by
    rw [hterm]
    cases hb : a.vote ((s.rafts v).currentTerm + 1) v with
    | none => exact hb
    | some b =>
        have := (hS.good.ballot _ v b hb).1
        omega
  let b : Ballot (Fin n) (LogEntry C) := ⟨v, lastOf LogEntry.term (a.log v), a.log v⟩
  have hmoved := (Board.enter_moved hlt).trans (Board.cast_moved (b := b) hnone)
  have hgood : Good ((a.enter v ((s.rafts v).currentTerm + 1)).cast v b) :=
    (hS.good.enter hlt).cast hnone rfl (Or.inr ⟨rfl, le_refl _⟩)
  have hct : ((s.rafts v).becomeCandidate v).currentTerm = (s.rafts v).currentTerm + 1 := by
    simp [Raft.becomeCandidate]
  have hr : (s.startOneElection v).rafts =
      Function.update s.rafts v ((s.rafts v).becomeCandidate v) := rfl
  have hsec : Section s (s.startOneElection v) a _ v :=
    section_update hr hmoved hgood hS.leadAcked
      (fun ev hev => List.mem_cons_of_mem _ hev)
      (hm.becomeCandidate.grow (Board.cast_grows hnone) rfl rfl)
      ⟨by omega, fun _ ht => by omega⟩
  have hraft : (s.startOneElection v).rafts v = (s.rafts v).becomeCandidate v :=
    Function.update_self _ _ _
  refine ⟨_, hmoved.grows, hsec.good, hsec.leadAcked, hS.lines, ?_, ?_, hsec.mirror_all hS,
    hsec.past hS rfl, ?_, ?_, ?_⟩
  · intro t u x hx
    rcases Board.cast_vote hx with hold | ⟨rfl, rfl, rfl⟩
    · exact le_trans (hS.ballots t u x hold) (hmoved.grows.term _)
    · exact le_refl _
  · have hrec := (hS.records.grow (Board.enter_grows hlt) rfl rfl).cast (b := b) hnone
    rw [hterm] at hrec
    show Records _ (.vote v v ((s.rafts v).becomeCandidate v).currentTerm :: s.hist)
    rw [hct]
    exact hrec
  · intro c hst u x hx hxc
    by_cases hc : c = v
    · -- the new candidate: nobody has voted for it in this term before
      subst hc
      rw [hraft, hct] at hx
      rcases Board.cast_vote hx with hold | ⟨_, _, rfl⟩
      · have := hS.ballots _ u x hold
        rw [hxc, hm.term] at this
        omega
      · rfl
    · rw [hsec.others c hc] at hst hx
      rcases Board.cast_vote hx with hold | ⟨_, _, rfl⟩
      · exact hS.claims c hst u x hold hxc
      · exact absurd hxc.symm hc
  · intro E hE
    rcases List.mem_append.mp hE with hE | hE
    · exact hsec.asks hS hE
    · rw [List.mem_singleton.mp hE]
      intro u args hr
      cases hr
  · exact fun B hB => hsec.spreads hS hK rfl (Steady.raise (by rw [hraft]; omega)) hB

/-- What the handler of a vote request leaves of the cluster. -/
structure VoteHandled (s s' : Cluster n C) (e : Nat) (u : Fin n) (E : Election n)
    (args : RequestVoteArgs n) : Prop where
  election : s.elections[e]? = some E
  call : E.call u = .sent args
  rafts : s'.rafts = Function.update s.rafts u ((s.rafts u).requestVote args).1
  elections : s'.elections = s.elections.set e { E with
    call := Function.update E.call u (.replied args ((s.rafts u).requestVote args).2) }
  casts : s'.casts = s.casts
  past : s'.past = s.past
  hist : s'.hist = (if ((s.rafts u).requestVote args).2.voteGranted then
    [.vote u args.candidateId ((s.rafts u).requestVote args).2.term] else []) ++ s.hist

theorem voteHandled_of_step {e : Nat} {u : Fin n} (h : s.handleVote e u = some s') :
    ∃ E args, VoteHandled s s' e u E args := by
  obtain ⟨E, args, hE, hc, rfl⟩ := handleVote_inv h
  refine ⟨E, args, ?_⟩
  split
  · rename_i hg
    exact ⟨hE, hc, rfl, rfl, rfl, rfl, by rw [if_pos hg]; rfl⟩
  · rename_i hg
    exact ⟨hE, hc, rfl, rfl, rfl, rfl, by rw [if_neg hg]; rfl⟩

section Voting

variable {e : Nat} {u : Fin n} {E : Election n} {args : RequestVoteArgs n}

theorem VoteHandled.request (h : VoteHandled s s' e u E args) :
    (E.call u).request = some args := by rw [h.call]; rfl

theorem VoteHandled.hist_sub (h : VoteHandled s s' e u E args) :
    ∀ ev ∈ s.hist, ev ∈ s'.hist := by
  intro ev hev
  rw [h.hist]
  exact List.mem_append_right _ hev

theorem VoteHandled.asks (h : VoteHandled s s' e u E args) (hS : OnBoard s a)
    {a' : Board (Fin n) (LogEntry C)} (hsec : Section s s' a a' u) :
    ∀ E' ∈ s'.elections, Asks a' (s'.rafts E'.owner) E' := by
  rw [h.elections]
  refine forall_mem_set (fun E' hE' => hsec.asks hS hE') ?_
  refine (hsec.asks hS (List.mem_of_getElem? h.election)).call (Or.inr ?_) E.nVotes
  exact h.request.symm

/-- **No vote**: at most a later term. -/
theorem onBoard_refused (h : VoteHandled s s' e u E args) (hS : OnBoard s a) (hK : Known s)
    (hno : ((s.rafts u).requestVote args).2.voteGranted = false) :
    OnBoard s' (a.advance u args.term) := by
  have hraft : ((s.rafts u).requestVote args).1 = (s.rafts u).catchUp args.term := by
    rcases Raft.requestVote_cases (s.rafts u) args with ⟨hlt, heq⟩ | ⟨_, _, heq⟩ | ⟨_, _, heq⟩ <;>
      rw [heq] at hno ⊢
    · rcases (s.rafts u).catchUp_cases args.term with ⟨hlt', _⟩ | ⟨_, hc⟩
      · omega
      · exact hc.symm
    · cases hno
  have hr := h.rafts
  have hh := h.hist
  rw [hraft] at hr
  rw [hno] at hh
  have hA := advances_catchUp (hS.mirror u) args.term
  refine hA.onBoard hS hr hh h.past (h.asks hS (hA.toSection hS hr h.hist_sub)) ?_
  rw [h.casts]
  exact fun B hB => hA.spreads hS hK hr h.hist_sub hB

/-- The voter after a vote. -/
structure Voted (s s' : Cluster n C) (u : Fin n) (args : RequestVoteArgs n) : Prop where
  le : (s.rafts u).currentTerm ≤ args.term
  may : ((s.rafts u).catchUp args.term).mayVote args = true
  raft : s'.rafts u = Raft.persist { (s.rafts u).catchUp args.term with
    votedFor := some args.candidateId, state := .follower }
  hist : s'.hist = .vote u args.candidateId args.term :: s.hist

theorem VoteHandled.voted (h : VoteHandled s s' e u E args)
    (hyes : ((s.rafts u).requestVote args).2.voteGranted = true) : Voted s s' u args := by
  have hr := h.rafts
  have hh := h.hist
  rcases Raft.requestVote_cases (s.rafts u) args with ⟨_, heq⟩ | ⟨hle, hmay, heq⟩ | ⟨_, _, heq⟩ <;>
    rw [heq] at hyes hr hh
  · cases hyes
  · exact ⟨hle, hmay, by rw [hr, Function.update_self], hh⟩
  · cases hyes

theorem Voted.state (h : Voted s s' u args) : (s'.rafts u).state = .follower := by
  rw [h.raft, Raft.persist_state]

theorem Voted.calm (h : Voted s s' u args) (a' : Board (Fin n) (LogEntry C)) :
    Calm a a' u (s.rafts u) (s'.rafts u) := by
  refine ⟨?_, fun hst => ?_⟩
  · rw [h.raft, Raft.persist_currentTerm]
    show _ ≤ ((s.rafts u).catchUp args.term).currentTerm
    rw [Raft.catchUp_currentTerm h.le]
    exact h.le
  · rw [h.state] at hst
    cases hst

theorem Voted.steady (h : Voted s s' u args) (a' : Board (Fin n) (LogEntry C)) :
    Steady a' u (s.rafts u) (s'.rafts u) := by
  refine Steady.same ?_ ?_ ?_ <;> rw [h.raft] <;> simp

theorem Voted.mirror (h : Voted s s' u args) (hS : OnBoard s a) :
    Mirrors (a.advance u args.term) u (s'.rafts u) := by
  rw [h.raft]
  refine Mirrors.persist (((hS.mirror u).catchUp args.term).congr ?_ ?_ ?_ ?_ ?_ ?_ ?_) <;> rfl

theorem Voted.term (h : Voted s s' u args) (hS : OnBoard s a) :
    (a.advance u args.term).term u = args.term :=
  Board.advance_term (by rw [(hS.mirror u).term]; exact h.le)

/-- A voter that has voted in the term before has voted for the same candidate. -/
theorem Voted.again (h : Voted s s' u args) (hS : OnBoard s a) (hK : Known s)
    {x : Ballot (Fin n) (LogEntry C)} (hx : a.vote args.term u = some x) :
    x.cand = args.candidateId := by
  have hev := (hS.records.vote _ u _).mpr ⟨x, hx, rfl⟩
  have hpast := hK.votes.past u _ _ hev
  have hle := h.le
  have hheld := hK.votes.held u _ _ hev (by omega)
  have hmay := h.may
  rcases (s.rafts u).catchUp_cases args.term with ⟨hlt, _⟩ | ⟨_, hc⟩
  · omega
  · simp only [Raft.mayVote, hc, hheld, decide_eq_true_eq, Option.some.injEq] at hmay
    rcases hmay.1 with hno | hyes
    · cases hno
    · exact hyes

/-- **The same vote again**: at most a later term. -/
theorem onBoard_again (h : VoteHandled s s' e u E args) (hV : Voted s s' u args)
    (hS : OnBoard s a) (hK : Known s) {x : Ballot (Fin n) (LogEntry C)}
    (hx : a.vote args.term u = some x) : OnBoard s' (a.advance u args.term) := by
  have hsec : Section s s' a (a.advance u args.term) u :=
    ⟨fun w hw => by rw [h.rafts, Function.update_of_ne hw], Board.advance_moved u args.term,
      hS.good.advance u args.term, hS.leadAcked.advance u args.term, h.hist_sub, hV.mirror hS,
      hV.calm _⟩
  refine hsec.onBoard hS (Board.advance_vote _ _) ?_ ?_ ?_ (hsec.past hS h.past) (h.asks hS hsec) ?_
  · rw [Board.advance_line]
    exact hS.lines
  · intro hst
    rw [hV.state] at hst
    cases hst
  · rw [hV.hist]
    refine (hS.records.grow hsec.moved.grows (Board.advance_vote _ _)
      (Board.advance_lead _ _)).revote ⟨x, ?_, hV.again hS hK hx⟩
    rw [Board.advance_vote]
    exact hx
  · rw [h.casts]
    exact fun B hB => hsec.spreads hS hK (Board.advance_lead _ _) (hV.steady _) hB

/-- The ballot of a voter: what the request claimed, and the log it was compared with. -/
def ballotOf (a : Board (Fin n) (LogEntry C)) (u : Fin n) (args : RequestVoteArgs n) :
    Ballot (Fin n) (LogEntry C) := ⟨args.candidateId, args.claim, a.log u⟩

/-- **A vote** casts a ballot. -/
theorem onBoard_voted (h : VoteHandled s s' e u E args) (hV : Voted s s' u args)
    (hS : OnBoard s a) (hK : Known s) (hx : a.vote args.term u = none) :
    ∃ a', a ≤ a' ∧ OnBoard s' a' := by
  have hmem := List.mem_of_getElem? h.election
  have hcand := (hK.elect.books E hmem).asks u args h.request
  obtain ⟨hargs, hclaim⟩ := hS.asks E hmem u args h.request
  have hadv := Board.advance_moved (a := a) u args.term
  have hterm := hV.term hS
  have hnone : (a.advance u args.term).vote ((a.advance u args.term).term u) u = none := by
    rw [hterm, Board.advance_vote]
    exact hx
  have hup : UpToDate (ballotOf a u args).claim
      (lastOf LogEntry.term ((a.advance u args.term).log u)) := by
    rw [((hS.mirror u).catchUp args.term).holds.lastOf_eq_last]
    have hmay := hV.may
    simp only [Raft.mayVote, decide_eq_true_eq] at hmay
    exact hmay.2.imp_right fun hcmp => ⟨hcmp.1, Nat.succ_le_succ hcmp.2⟩
  have hmoved := hadv.trans (Board.cast_moved (b := ballotOf a u args) hnone)
  have hsec : Section s s' a ((a.advance u args.term).cast u (ballotOf a u args)) u :=
    ⟨fun w hw => by rw [h.rafts, Function.update_of_ne hw], hmoved,
      (hS.good.advance u args.term).cast hnone (by rw [Board.advance_log]; rfl) hup,
      hS.leadAcked.advance u args.term, h.hist_sub,
      (hV.mirror hS).grow (Board.cast_grows hnone) rfl rfl, hV.calm _⟩
  refine ⟨_, hmoved.grows, hsec.good, hsec.leadAcked, ?_, ?_, ?_, hsec.mirror_all hS,
    hsec.past hS h.past, ?_, h.asks hS hsec, ?_⟩
  · intro t
    show From 0 ((a.advance u args.term).line t)
    rw [Board.advance_line]
    exact hS.lines t
  · intro t w x hx
    rcases Board.cast_vote hx with hold | ⟨rfl, rfl, rfl⟩
    · rw [Board.advance_vote] at hold
      exact le_trans (hS.ballots t w x hold) (hmoved.grows.term _)
    · rw [hterm]
      refine le_trans ?_ (hmoved.grows.term args.candidateId)
      rw [(hS.mirror args.candidateId).term, hcand]
      exact hargs
  · have hrec := (hS.records.grow hadv.grows (Board.advance_vote _ _)
      (Board.advance_lead _ _)).cast (b := ballotOf a u args) hnone
    rw [hterm] at hrec
    rw [hV.hist]
    exact hrec
  · intro c hst w x hx hxc
    have hc : c ≠ u := by
      rintro rfl
      rw [hV.state] at hst
      cases hst
    rw [hsec.others c hc] at hst hx
    rw [hmoved.log c hc]
    rcases Board.cast_vote hx with hold | ⟨ht, _, rfl⟩
    · rw [Board.advance_vote] at hold
      exact hS.claims c hst w x hold hxc
    · -- the new ballot claims what the request claimed
      obtain rfl : E.owner = c := hcand.symm.trans hxc
      exact hclaim hst (by rw [ht, hterm])
  · rw [h.casts]
    exact fun B hB => hsec.spreads hS hK (Board.advance_lead _ _) (hV.steady _) hB

theorem onBoard_handleVote (h : s.handleVote e u = some s') (hS : OnBoard s a) (hK : Known s) :
    ∃ a', a ≤ a' ∧ OnBoard s' a' := by
  obtain ⟨E, args, h⟩ := voteHandled_of_step h
  cases hg : ((s.rafts u).requestVote args).2.voteGranted with
  | false => exact ⟨_, (Board.advance_moved u args.term).grows, onBoard_refused h hS hK hg⟩
  | true =>
      have hV := h.voted hg
      cases hx : a.vote args.term u with
      | none => exact onBoard_voted h hV hS hK hx
      | some x => exact ⟨_, (Board.advance_moved u args.term).grows, onBoard_again h hV hS hK hx⟩

end Voting

/-- The vote that wins: all its votes are ballots of the term, with the claim of the log the
    candidate still has. -/
theorem crown_of_win {e : Nat} {u : Fin n} {E : Election n} {args : RequestVoteArgs n}
    {reply : RequestVoteReply} (hg : s.voteGuard (.voteReply e u) = true) (hS : OnBoard s a)
    (hK : Known s) (hE : s.elections[e]? = some E) (hc : E.call u = .checked args reply)
    (hgr : reply.voteGranted = true) (hw : s.winsVote E = true) :
    ∃ Q, Good (a.crown E.owner Q) ∧ 0 < a.term E.owner ∧ a.lead (a.term E.owner) = none := by
  have hst : (s.rafts E.owner).state = .candidate := (of_decide_eq_true hw).1
  have hterm := (hS.mirror E.owner).term
  obtain ⟨Q, hQ, _, hvotes⟩ := elected_of_win hg hE hc hgr hw
    (hK.elect.books E (List.mem_of_getElem? hE)) (hK.elect.self E.owner hst)
  have hmaj : (majorities (Fin n)).is Q := by
    show Fintype.card (Fin n) / 2 + 1 ≤ Q.card
    rw [Fintype.card_fin]
    exact hQ
  have hbal : ∀ v ∈ Q, ∃ b, a.vote (a.term E.owner) v = some b ∧ b.cand = E.owner ∧
      b.claim = lastOf LogEntry.term (a.log E.owner) := by
    intro v hv
    obtain ⟨b, hb, hbc⟩ := (hS.records.vote _ _ _).mp (hvotes v hv)
    exact ⟨b, by rw [hterm]; exact hb, hbc, hS.claims E.owner hst v b hb hbc⟩
  have hpos : 0 < a.term E.owner := by
    rw [hterm]
    exact hK.pos E.owner hst
  have hnone : a.lead (a.term E.owner) = none := by
    cases hl : a.lead (a.term E.owner) with
    | none => rfl
    | some d =>
        have hd := hS.good.lead_unique hmaj (fun v hv => by
          obtain ⟨b, hb, hbc, _⟩ := hbal v hv
          exact ⟨b, hb, hbc⟩) hl
        subst hd
        obtain ⟨lg, hlg⟩ := (hS.records.lead _ _).mp hl
        rw [hterm] at hlg
        exact absurd hlg (hK.fresh E.owner lg hst)
  exact ⟨Q, hS.good.crown hpos hnone hmaj hbal, hpos, hnone⟩

/-- **The vote that wins crowns.** -/
theorem onBoard_win {e : Nat} {u : Fin n} {E : Election n} {args : RequestVoteArgs n}
    {reply : RequestVoteReply} (hg : s.voteGuard (.voteReply e u) = true) (hS : OnBoard s a)
    (hK : Known s) (hE : s.elections[e]? = some E) (hc : E.call u = .checked args reply)
    (hgr : reply.voteGranted = true) (hw : s.winsVote E = true)
    (hs' : s' = ((s.setCall e { E with nVotes := E.nVotes + 1 } u (.counted args)).setRaft E.owner
      ((s.rafts E.owner).becomeLeader E.owner)).record
        (.lead E.owner (s.rafts E.owner).currentTerm (s.rafts E.owner).log)) :
    ∃ a', a ≤ a' ∧ OnBoard s' a' := by
  have hst : (s.rafts E.owner).state = .candidate := (of_decide_eq_true hw).1
  have hm := hS.mirror E.owner
  obtain ⟨Q, hgood, hpos, hnone⟩ := crown_of_win hg hS hK hE hc hgr hw
  have hmoved := hS.good.crown_moved (Q := Q) hpos hnone
  have hr : s'.rafts = Function.update s.rafts E.owner ((s.rafts E.owner).becomeLeader E.owner) := by
    rw [hs']; rfl
  have hraft : s'.rafts E.owner = (s.rafts E.owner).becomeLeader E.owner := by
    rw [hr, Function.update_self]
  have hlead : (s'.rafts E.owner).state = .leader := by rw [hraft]; simp [Raft.becomeLeader]
  have hsec : Section s s' a (a.crown E.owner Q) E.owner := by
    refine section_update hr hmoved hgood (hS.leadAcked.crown _ _) ?_
      (hm.becomeLeader.grow hmoved.grows rfl rfl) ⟨by simp [Raft.becomeLeader], fun hst' => ?_⟩
    · rw [hs']
      exact fun ev hev => List.mem_cons_of_mem _ hev
    · rw [← hraft, hlead] at hst'
      cases hst'
  refine ⟨_, hmoved.grows, hsec.good, hsec.leadAcked, ?_, ?_, ?_, hsec.mirror_all hS,
    hsec.past hS (by rw [hs']; rfl), ?_, ?_, ?_⟩
  · intro t
    by_cases ht : t = a.term E.owner
    · subst ht
      simp only [Board.crown, Function.update_self]
      exact hm.holds.cut.run
    · simp only [Board.crown, Function.update_of_ne ht]
      exact hS.lines t
  · exact fun t w b hb => hS.ballots t w b hb
  · have hrec := hS.records.crown hmoved.grows hnone hm.holds.cut
    rw [hm.term] at hrec
    rw [hs']
    exact hrec
  · refine hsec.claims hS rfl fun hst' => ?_
    rw [hlead] at hst'
    cases hst'
  · have hel : s'.elections = s.elections.set e { E with
        nVotes := E.nVotes + 1, call := Function.update E.call u (.counted args) } := by
      rw [hs']; rfl
    rw [hel]
    refine forall_mem_set (fun E' hE' => hsec.asks hS hE') ?_
    refine (hsec.asks hS (List.mem_of_getElem? hE)).call (Or.inr ?_) _
    rw [hc]
    rfl
  · have hca : s'.casts = s.casts := by rw [hs']; rfl
    rw [hca]
    intro B hB
    refine (hS.casts B hB).calm hS.good hmoved.grows (hK.casters B hB).term_le
      (hsec.calm_all B.owner) (fun hl => ?_) hsec.hist_sub fun hal => ⟨hal, ?_⟩
    · -- a broadcast of the new leader, begun while it was a candidate, or an older one
      by_cases ht : B.term = a.term E.owner
      · simp only [Board.crown, ht, Function.update_self, Option.some.injEq] at hl ⊢
        rw [← hl]
        exact Or.inr ⟨hm.term.symm, hst, rfl⟩
      · simp only [Board.crown, Function.update_of_ne ht] at hl
        exact Or.inl hl
    · by_cases ho : B.owner = E.owner
      · rw [ho, hraft]
        refine Steady.same ?_ ?_ ?_ <;> simp [Raft.becomeLeader]
      · rw [hsec.others _ ho]
        exact Steady.refl _ _

theorem onBoard_voteReply {e : Nat} {u : Fin n} (h : s.voteReply e u = some s')
    (hg : s.voteGuard (.voteReply e u) = true) (hS : OnBoard s a) (hK : Known s) :
    ∃ a', a ≤ a' ∧ OnBoard s' a' := by
  obtain ⟨E, args, reply, hE, _, hc, h⟩ := voteReply_inv h
  have hask := hS.asks E (List.mem_of_getElem? hE)
  rcases h with ⟨hgr, hw, hs'⟩ | ⟨_, _, rfl⟩ | ⟨_, hlt, hs'⟩ | ⟨_, rfl⟩
  · exact onBoard_win hg hS hK hE hc hgr hw hs'
  · refine ⟨a, le_refl a, onBoard_idle hS E.owner rfl rfl rfl (forall_mem_set hS.asks ?_) hS.casts⟩
    exact hask.call (Or.inr (by rw [hc]; rfl)) _
  · -- a later term
    have hA := advances_stepDown (hS.mirror E.owner) hlt.le
    have hr : s'.rafts = Function.update s.rafts E.owner
        ((s.rafts E.owner).stepDown reply.term) := by rw [hs']; rfl
    have hh : s'.hist = s.hist := by rw [hs']; rfl
    have hsub : ∀ ev ∈ s.hist, ev ∈ s'.hist := by rw [hh]; exact fun _ hev => hev
    have hsec := hA.toSection hS hr hsub
    refine ⟨_, (Board.advance_moved E.owner reply.term).grows,
      hA.onBoard hS hr hh (by rw [hs']; rfl) ?_ ?_⟩
    · have hel : s'.elections = s.elections.set e { E with
          call := Function.update E.call u .done } := by rw [hs']; rfl
      rw [hel]
      refine forall_mem_set (fun E' hE' => hsec.asks hS hE') ?_
      exact (hsec.asks hS (List.mem_of_getElem? hE)).call (Or.inl rfl) _
    · have hca : s'.casts = s.casts := by rw [hs']; rfl
      rw [hca]
      exact fun B hB => hA.spreads hS hK hr hsub hB
  · refine ⟨a, le_refl a, onBoard_idle hS E.owner rfl rfl rfl (forall_mem_set hS.asks ?_) hS.casts⟩
    exact hask.call (Or.inl rfl) _

end Steps

end Mit6824.Cluster
