/-
  File:      Mit6824/Raft/SimLog.lean
  Subject:   EVERY GUARDED STEP OF THE CLUSTER IS A MOVE ON THE BOARD: logs, commits, deliveries
             (raft.go lines 348-445, 555-708, 869-911).

  * `commitGuard` -- a count commits only in the term of its broadcast;
  * `gapGuard` -- the AppendEntries handler takes a request with a gap only as `Raft.gapOk` says;
  * `onBoard_startAppend`, `onBoard_taken`, `onBoard_commit` -- `Start` extends the line of its
    term, an accepted AppendEntries accepts it, the acknowledgement that commits fixes it;
  * `onBoard_step` -- **the simulation step**; `onBoard_reach` -- the whole run.
-/
import Mit6824.Raft.SimVotes

namespace Mit6824.Cluster

open Lib

variable {n : Nat} {C : Type}

/-! ## 1. The guards -/

/-- **A count commits only in the term of its broadcast.** -/
def commitGuard (s : Cluster n C) : Action n C → Bool
  | .peerReply k u =>
      match s.casts[k]? with
      | none => true
      | some B =>
          match B.peer u with
          | .checked _ _ reply =>
              let rf := s.rafts B.owner
              decide (reply.success = true → s.agrees B = true → rf.commitIndex < B.index →
                ((rf.getLogByIndexUnLock B.index).any fun x => decide (x.term = rf.currentTerm)) =
                  true → rf.currentTerm = B.term)
          | _ => true
  | _ => true

/-- The AppendEntries handler, at the point where it has found the request consistent. -/
def Takes (s : Cluster n C) (a : Action n C) (u : Fin n) (args : AppendEntriesArgs n C) : Prop :=
  ∃ k grow B next, a = .handleAppend k u grow ∧ s.casts[k]? = some B ∧ B.peer u = .sent args next ∧
    (s.rafts u).currentTerm ≤ args.term ∧
    ((s.rafts u).catchUp args.term).prevConsistent
      (((s.rafts u).catchUp args.term).trimArgs args).1
      (((s.rafts u).catchUp args.term).trimArgs args).2.1 = some true

/-- **A request with a gap is taken only as `gapOk` says.** -/
def gapGuard (s : Cluster n C) : Action n C → Bool
  | .handleAppend k u _ =>
      match s.casts[k]? with
      | none => true
      | some B =>
          match B.peer u with
          | .sent args _ =>
              let rf := (s.rafts u).catchUp args.term
              decide ((s.rafts u).currentTerm ≤ args.term →
                rf.prevConsistent (rf.trimArgs args).1 (rf.trimArgs args).2.1 = some true →
                  rf.gapOk args = true)
          | _ => true
  | _ => true

theorem gapGuard_takes {s : Cluster n C} {a : Action n C} {u : Fin n}
    {args : AppendEntriesArgs n C} (hg : s.gapGuard a = true) (h : s.Takes a u args) :
    ((s.rafts u).catchUp args.term).gapOk args = true := by
  obtain ⟨k, grow, B, next, rfl, hB, hp, hle, hcon⟩ := h
  simp only [gapGuard, hB, hp, decide_eq_true_eq] at hg
  exact hg hle hcon

/-- What the simulation needs of a step. -/
structure Allowed (s : Cluster n C) (a : Action n C) : Prop where
  term : s.termGuard a = true
  vote : s.voteGuard a = true
  start : s.startGuard a = true
  commit : s.commitGuard a = true
  gap : ∀ u args, s.Takes a u args → ((s.rafts u).catchUp args.term).gapOk args = true
  encode : s.encodeGuard a

section Steps

variable {s s' : Cluster n C} {a : Board (Fin n) (LogEntry C)}

/-! ## 2. Start -/

/-- **`Start` extends the line of the term it leads.** -/
theorem onBoard_startAppend {k grow : Nat} (h : s.startAppend k grow = some s')
    (hg : s.startGuard (.startAppend k grow) = true) (hS : OnBoard s a) (hK : Known s) :
    ∃ a', a ≤ a' ∧ OnBoard s' a' := by
  obtain ⟨S, hS₀, _, hs'⟩ := startAppend_inv h
  simp only [startGuard, hS₀, decide_eq_true_eq] at hg
  have hm := hS.mirror S.owner
  have hl : a.lead (a.term S.owner) = some S.owner := by
    rw [hm.term]
    exact (hS.records.lead _ _).mpr (hK.led S.owner hg.1)
  have hmoved := hS.good.extend_moved (e := (s.rafts S.owner).newEntry S.command) hl
  have hmir := hm.startLog hS.good hl S.command grow
  have hr : s'.rafts = Function.update s.rafts S.owner
      ((s.rafts S.owner).startLog S.command grow) := by rw [hs']; rfl
  have hraft : s'.rafts S.owner = (s.rafts S.owner).startLog S.command grow := by
    rw [hr, Function.update_self]
  have hst : (s'.rafts S.owner).state = .leader := by
    rw [hraft]
    simpa using hg.1
  have hsec : Section s s' a (a.extend S.owner ((s.rafts S.owner).newEntry S.command)) S.owner := by
    refine section_update hr hmoved (hS.good.extend hl hm.term.symm) (hS.leadAcked.extend hl) ?_ hmir
      ⟨by simp, fun hst' => ?_⟩
    · rw [hs']
      exact fun ev hev => List.mem_cons_of_mem _ hev
    · rw [← hraft, hst] at hst'
      cases hst'
  refine ⟨_, hmoved.grows, hsec.onBoard hS rfl ?_ ?_ ?_ (hsec.past hS (by rw [hs']; rfl)) ?_ ?_⟩
  · intro t
    by_cases ht : t = a.term S.owner
    · subst ht
      have hrun := hmir.holds.cut.run
      simp only [Board.extend, Function.update_self] at hrun ⊢
      exact hrun
    · simp only [Board.extend, Function.update_of_ne ht]
      exact hS.lines t
  · intro hst'
    rw [hst] at hst'
    cases hst'
  · rw [hs']
    exact (hS.records.grow hmoved.grows rfl rfl).cons rfl
  · have hel : s'.elections = s.elections := by rw [hs']; rfl
    rw [hel]
    exact fun E hE => hsec.asks hS hE
  · have hsteady : Steady (a.extend S.owner ((s.rafts S.owner).newEntry S.command)) S.owner
        (s.rafts S.owner) (s'.rafts S.owner) := by
      rw [hraft]
      refine Steady.same ?_ ?_ ?_ <;> simp
    have hlen : ((s.rafts S.owner).newEntry S.command).index + 1 =
        ((a.extend S.owner ((s.rafts S.owner).newEntry S.command)).log S.owner).length := by
      simp only [Board.extend, Function.update_self, List.length_append, List.length_singleton]
      rw [← hm.holds.cut.length]
      rfl
    have hnew := spreads_new s'.hist hsec.good hmir hlen
    rw [← hraft] at hnew
    have hca : s'.casts = s.casts ++ [{
        owner := S.owner, alive := true, index := ((s.rafts S.owner).newEntry S.command).index,
        term := (s'.rafts S.owner).currentTerm, commitIndex := (s'.rafts S.owner).commitIndex,
        nReplica := 1, isAgree := false, stage := .spawned, peer := fun _ => .idle }] := by
      rw [hs']
      rfl
    rw [hca]
    intro B hB
    rcases List.mem_append.mp hB with hB | hB
    · exact hsec.spreads hS hK rfl hsteady hB
    · rw [List.mem_singleton.mp hB]
      exact hnew

/-! ## 3. The AppendEntries handler -/

/-- What the handler leaves of the cluster. -/
structure AppendHandled (s s' : Cluster n C) (k : Nat) (u : Fin n) (B : Cast n C)
    (args : AppendEntriesArgs n C) (next : Nat) (rf : Raft n C) (reply : AppendEntriesReply) :
    Prop where
  cast : s.casts[k]? = some B
  peer : B.peer u = .sent args next
  rafts : s'.rafts = Function.update s.rafts u rf
  casts : s'.casts = s.casts.set k { B with
    peer := Function.update B.peer u (.replied args next reply) }
  elections : s'.elections = s.elections
  past : s'.past = s.past
  hist : s'.hist = (if reply.success then [.ack u reply.term rf.log] else []) ++ s.hist

theorem appendHandled_of_step {k grow : Nat} {u : Fin n} (h : s.handleAppend k u grow = some s') :
    ∃ B args next rf reply spawn, (s.rafts u).appendEntries args grow = some (rf, reply, spawn) ∧
      AppendHandled s s' k u B args next rf reply := by
  obtain ⟨B, args, next, rf, reply, spawn, hB, hp, hr, rfl⟩ := handleAppend_inv h
  refine ⟨B, args, next, rf, reply, spawn, hr, hB, hp, ?_, ?_, ?_, ?_, ?_⟩ <;>
    cases spawn <;> cases reply.success <;> rfl

section Append

variable {k grow next : Nat} {u : Fin n} {B : Cast n C} {args : AppendEntriesArgs n C}
  {rf : Raft n C} {reply : AppendEntriesReply}

theorem AppendHandled.request (h : AppendHandled s s' k u B args next rf reply) :
    (B.peer u).request = some args := by rw [h.peer]; rfl

theorem AppendHandled.hist_sub (h : AppendHandled s s' k u B args next rf reply) :
    ∀ ev ∈ s.hist, ev ∈ s'.hist := by
  intro ev hev
  rw [h.hist]
  exact List.mem_append_right _ hev

/-- **No success**: at most a later term. -/
theorem onBoard_failed (h : AppendHandled s s' k u B args next rf reply)
    (hrf : rf = (s.rafts u).catchUp args.term) (hno : reply.success = false) (hS : OnBoard s a)
    (hK : Known s) : OnBoard s' (a.advance u args.term) := by
  have hmem := List.mem_of_getElem? h.cast
  have hr := h.rafts
  have hh := h.hist
  rw [hrf] at hr
  rw [hno] at hh
  have hA := advances_catchUp (hS.mirror u) args.term
  refine hA.onBoard hS hr hh h.past ?_ ?_
  · rw [h.elections]
    exact fun E hE => (hA.toSection hS hr h.hist_sub).asks hS hE
  · have hsp := hA.spreads hS hK hr h.hist_sub hmem
    rw [h.casts]
    refine forall_mem_set (fun B' hB' => hA.spreads hS hK hr h.hist_sub hB') ?_
    refine hsp.peer (fun args' hargs => ?_) (fun hack => ?_) _ _
    · exact hsp.sent u args' (h.request.trans hargs)
    · rw [show PeerCall.acked (.replied args next reply) = reply.success from rfl, hno] at hack
      cases hack

/-- The server and the request, when it is taken. -/
theorem receives_of_taken {a₀ : Action n C} (hgap : ∀ u args, s.Takes a₀ u args →
      ((s.rafts u).catchUp args.term).gapOk args = true) (ht : s.Takes a₀ u args)
    (hS : OnBoard s a) {p : Nat} (hcar : Carries a B.index p args) :
    Receives (a.advance u args.term) u ((s.rafts u).catchUp args.term) B.index p args where
  good := hS.good.advance u args.term
  line := by rw [Board.advance_line]; exact hS.lines _
  mirror := (hS.mirror u).catchUp args.term
  term := by
    obtain ⟨_, _, _, _, _, _, _, hle, _⟩ := ht
    exact Raft.catchUp_currentTerm hle
  carries := hcar.grow (Board.advance_moved u args.term).grows
  consistent := by
    obtain ⟨_, _, _, _, _, _, _, _, hcon⟩ := ht
    exact hcon
  gap := hgap u args ht

/-- **A request that is taken accepts the line up to the index of its broadcast.** -/
theorem onBoard_taken {p : Nat} (h : AppendHandled s s' k u B args next rf reply)
    (hrec : Receives (a.advance u args.term) u ((s.rafts u).catchUp args.term) B.index p args)
    (hle : (s.rafts u).currentTerm ≤ args.term)
    (ha : ((s.rafts u).catchUp args.term).acceptEntries args
      (((s.rafts u).catchUp args.term).trimArgs args).1
      (((s.rafts u).catchUp args.term).trimArgs args).2.2 grow = some rf)
    (hreply : reply = ⟨args.term, true, 0, 0⟩) (hS : OnBoard s a) (hK : Known s) :
    ∃ a', a ≤ a' ∧ OnBoard s' a' := by
  have hmem := List.mem_of_getElem? h.cast
  have hterm : args.term = B.term := (hK.casts B hmem).term u args h.request
  have hmoved := (Board.advance_moved (a := a) u args.term).trans
    (Board.accept_moved (v := u) (k := B.index + 1))
  have hmir := hrec.mirrors ha
  have hraft : s'.rafts u = rf := by rw [h.rafts, Function.update_self]
  obtain ⟨hct, _, hst, _⟩ := Raft.acceptEntries_vote ha
  rw [Raft.catchUp_currentTerm hle] at hct
  have hsec : Section s s' a ((a.advance u args.term).accept u (B.index + 1)) u := by
    refine section_update h.rafts hmoved ?_ ((hS.leadAcked.advance u args.term).accept _ _)
      h.hist_sub hmir ⟨by rw [hct]; exact hle, fun hst' => by rw [hst] at hst'; cases hst'⟩
    refine hrec.good.accept hrec.lead ?_
    rw [hrec.board_term]
    exact hrec.carries.idx_lt
  have hlead : ((a.advance u args.term).accept u (B.index + 1)).lead = a.lead :=
    Board.advance_lead _ _
  have hline : ((a.advance u args.term).accept u (B.index + 1)).line = a.line :=
    Board.advance_line _ _
  -- the leader of the term does not take its own requests, so the window is not concerned
  have hsteady : Steady ((a.advance u args.term).accept u (B.index + 1)) u (s.rafts u)
      (s'.rafts u) := by
    intro ht hor
    rw [hraft] at ht hor
    rcases hor with hst' | hl
    · rw [hst] at hst'
      cases hst'
    · rw [hlead] at hl
      obtain ⟨lg, hlg⟩ := (hS.records.lead _ _).mp hl
      exact absurd (hct.symm.trans ht) (hK.no_request hlg h.cast h.request)
  refine ⟨_, hmoved.grows, hsec.onBoard hS (Board.advance_vote _ _) ?_ ?_ ?_ (hsec.past hS h.past)
    ?_ ?_⟩
  · rw [hline]
    exact hS.lines
  · intro hst'
    rw [hraft, hst] at hst'
    cases hst'
  · rw [h.hist, hreply]
    exact (hS.records.grow hmoved.grows (Board.advance_vote _ _) (Board.advance_lead _ _)).cons rfl
  · rw [h.elections]
    exact fun E hE => hsec.asks hS hE
  · rw [h.casts]
    have hsp := hsec.spreads hS hK hlead hsteady hmem
    refine forall_mem_set (fun B' hB' => hsec.spreads hS hK hlead hsteady hB') ?_
    refine hsp.peer (fun args' hargs => ?_) (fun _ => ?_) _ _
    · exact hsp.sent u args' (h.request.trans hargs)
    rw [hline, ← hterm]
    refine ⟨?_, rf.log, rf.snapshot.index, _, ?_, hmir.holds.cut, ?_⟩
    · have hack := Board.accept_ack (a := a.advance u args.term) (v := u) (k := B.index + 1)
      rw [hrec.board_term] at hack
      omega
    · rw [h.hist, hreply]
      exact List.mem_cons_self
    · have hb := Board.take_begins_accepted (a := a.advance u args.term) (v := u) (k := B.index + 1)
      rw [hrec.board_term, Board.advance_line] at hb
      rw [show ((a.advance u args.term).accept u (B.index + 1)).log u =
        (a.advance u args.term).accepted u (B.index + 1) from Function.update_self _ _ _]
      exact hb

theorem onBoard_handleAppend (h : s.handleAppend k u grow = some s')
    (hgap : ∀ u' args, s.Takes (.handleAppend k u grow) u' args →
      ((s.rafts u').catchUp args.term).gapOk args = true) (hS : OnBoard s a) (hK : Known s) :
    ∃ a', a ≤ a' ∧ OnBoard s' a' := by
  obtain ⟨B, args, next, rf, reply, spawn, hr, h⟩ := appendHandled_of_step h
  rcases Raft.appendEntries_cases hr with ⟨hlt, rfl, rfl, _⟩ | ⟨hle, hcon, ha, hreply, _⟩ |
    ⟨hle, _, hrf, _, _, hno, _⟩
  · refine ⟨_, (Board.advance_moved u args.term).grows, onBoard_failed h ?_ rfl hS hK⟩
    rcases (s.rafts u).catchUp_cases args.term with ⟨hlt', _⟩ | ⟨_, hc⟩
    · omega
    · exact hc.symm
  · obtain ⟨p, hcar⟩ := (hS.casts B (List.mem_of_getElem? h.cast)).sent u args h.request
    have ht : s.Takes (.handleAppend k u grow) u args :=
      ⟨k, grow, B, next, rfl, h.cast, h.peer, hle, hcon⟩
    exact onBoard_taken h (receives_of_taken hgap ht hS hcar) hle ha hreply hS hK
  · exact ⟨_, (Board.advance_moved u args.term).grows, onBoard_failed h hrf hno hS hK⟩

end Append

/-! ## 4. Replies and commits -/

section Reply

variable {k : Nat} {u : Fin n} {B : Cast n C} {args : AppendEntriesArgs n C} {next : Nat}
  {reply : AppendEntriesReply}

/-- The section of lines 593-599. -/
theorem onBoard_deposed (hle : (s.rafts B.owner).currentTerm ≤ reply.term)
    (hB : s.casts[k]? = some B) (hS : OnBoard s a) (hK : Known s)
    (hs' : s' = (s.setRaft B.owner ((s.rafts B.owner).stepDown reply.term)).setPeer k B u .done) :
    OnBoard s' (a.advance B.owner reply.term) := by
  have hA := advances_stepDown (hS.mirror B.owner) hle
  have hr : s'.rafts = Function.update s.rafts B.owner
      ((s.rafts B.owner).stepDown reply.term) := by rw [hs']; rfl
  have hh : s'.hist = s.hist := by rw [hs']; rfl
  have hsub : ∀ ev ∈ s.hist, ev ∈ s'.hist := by rw [hh]; exact fun _ hev => hev
  have hel : s'.elections = s.elections := by rw [hs']; rfl
  have hca : s'.casts = s.casts.set k { B with peer := Function.update B.peer u .done } := by
    rw [hs']; rfl
  refine hA.onBoard hS hr hh (by rw [hs']; rfl) ?_ ?_
  · rw [hel]
    exact fun E hE => (hA.toSection hS hr hsub).asks hS hE
  · rw [hca]
    refine forall_mem_set (fun B' hB' => hA.spreads hS hK hr hsub hB') ?_
    exact (hA.spreads hS hK hr hsub (List.mem_of_getElem? hB)).peer (fun args' hargs => by cases hargs)
      (fun hack => by cases hack) _ _

/-- A reply that changes the leader's bookkeeping, and one call. -/
theorem onBoard_noted {rf : Raft n C} {c : PeerCall n C} {nReplica : Nat} {isAgree : Bool}
    (hB : s.casts[k]? = some B) (hS : OnBoard s a) (hK : Known s)
    (hr : s'.rafts = Function.update s.rafts B.owner rf) (hh : s'.hist = s.hist)
    (hp : s'.past = s.past) (hel : s'.elections = s.elections)
    (hca : s'.casts = s.casts.set k { B with
      nReplica := nReplica, isAgree := isAgree, peer := Function.update B.peer u c })
    (hmir : Mirrors a B.owner rf) (ht : rf.currentTerm = (s.rafts B.owner).currentTerm)
    (hst : rf.state = (s.rafts B.owner).state) (hsn : rf.snapshot = (s.rafts B.owner).snapshot)
    (hla : rf.lastApplied = (s.rafts B.owner).lastApplied)
    (hci : rf.commitIndex = (s.rafts B.owner).commitIndex)
    (hreq : ∀ args, c.request = some args → ∃ p, Carries a B.index p args)
    (hack : c.acked = true → (B.peer u).acked = true) : OnBoard s' a := by
  have hmem := List.mem_of_getElem? hB
  have hsec : Section s s' a a B.owner :=
    section_still hS hr (by rw [hh]; exact fun _ h => h) hmir (Calm.same ht hst)
  have hsteady : Steady a B.owner (s.rafts B.owner) (s'.rafts B.owner) := by
    rw [hr, Function.update_self]
    exact Steady.same hsn hla hci.ge
  refine hsec.onBoard hS rfl hS.lines ?_ ?_ (hsec.past hS hp) ?_ ?_
  · rw [hr, Function.update_self]
    exact fun _ => ht
  · rw [hh]
    exact hS.records
  · rw [hel]
    exact fun E hE => hsec.asks hS hE
  · have hsp := hsec.spreads hS hK rfl hsteady hmem
    rw [hca]
    refine forall_mem_set (fun B' hB' => hsec.spreads hS hK rfl hsteady hB') ?_
    exact hsp.peer hreq (fun ha => hsp.acked u (hack ha)) _ _

/-- The servers whose acknowledgements a count that reaches the majority has seen, with the owner
    and the one that is counted now. -/
theorem quorum_of_agrees (hok : B.Ok s.hist) (hp : B.peer u = .checked args next reply)
    (hag : s.agrees B = true) :
    majority n ≤ (insert B.owner (insert u B.counted)).card := by
  have hu : u ∉ B.counted := by
    rw [Cast.mem_counted, hp]
    exact Bool.false_ne_true
  have huo : u ≠ B.owner := (hok.called (by rw [hp]; nofun)).1
  have ho : B.owner ∉ insert u B.counted := by
    rw [Finset.mem_insert, Cast.mem_counted, hok.own]
    rintro (ho | ho)
    · exact huo ho.symm
    · cases ho
  rw [Finset.card_insert_of_notMem ho, Finset.card_insert_of_notMem hu, ← hok.count]
  exact (of_decide_eq_true hag).2.2

theorem PeerCall.acked_of_isCounted {c : PeerCall n C} (h : c.isCounted = true) :
    c.acked = true := by
  cases c with
  | counted args => rfl
  | _ => cases h

/-- What a commit in the term of its broadcast knows. -/
theorem commit_facts (hB : s.casts[k]? = some B) (hal : B.alive = true)
    (hp : B.peer u = .checked args next reply) (hsucc : reply.success = true)
    (hag : s.agrees B = true) (hci : (s.rafts B.owner).commitIndex < B.index)
    (ht : (s.rafts B.owner).currentTerm = B.term) {x : LogEntry C}
    (hx : (s.rafts B.owner).getLogByIndexUnLock B.index = some x)
    (hxt : x.term = (s.rafts B.owner).currentTerm) (hS : OnBoard s a) (hK : Known s) :
    a.lead B.term = some B.owner ∧ a.log B.owner = a.line B.term ∧
      (∃ y, (a.line B.term)[B.index]? = some y ∧ y.term = B.term) ∧
      ∃ Q : Finset (Fin n), majority n ≤ Q.card ∧ B.owner ∈ Q ∧
        (∀ w ∈ Q, B.index < a.ack B.term w) ∧
        ∀ w ∈ Q, w = B.owner ∨ Acked s.hist w B.term ((a.line B.term).take (B.index + 1)) := by
  have hmem := List.mem_of_getElem? hB
  have hsp := hS.casts B hmem
  have hm := hS.mirror B.owner
  have hl := lead_of_running hS hK hmem (u := u) (by rw [hp]; nofun)
  have hlog := hS.good.lead_log _ _ hl (hm.term.trans ht)
  obtain ⟨hw1, hw2⟩ := hsp.window hal ht (Or.inr hl)
  obtain ⟨y, hy, hst, _⟩ := hm.holds.get (by omega) hx
  rw [hlog] at hy
  have hacked : ∀ w ∈ insert u B.counted, (B.peer w).acked = true := by
    intro w hw
    rcases Finset.mem_insert.mp hw with rfl | hw
    · rw [hp]
      exact hsucc
    · exact PeerCall.acked_of_isCounted (Cast.mem_counted.mp hw)
  refine ⟨hl, hlog, ⟨y, hy, by rw [← hst.2.1, hxt, ht]⟩, insert B.owner (insert u B.counted),
    quorum_of_agrees (hK.casts B hmem) hp hag, Finset.mem_insert_self _ _, fun w hw => ?_,
    fun w hw => ?_⟩
  · rcases Finset.mem_insert.mp hw with rfl | hw
    · exact lt_of_lt_of_le (hsp.led hl) (hS.leadAcked _ _ hl)
    · exact (hsp.acked w (hacked w hw)).1
  · rcases Finset.mem_insert.mp hw with rfl | hw
    · exact Or.inl rfl
    · exact Or.inr (hsp.acked w (hacked w hw)).2

/-- **A commit in the term of its broadcast fixes the index on the line.** -/
theorem onBoard_commit (hB : s.casts[k]? = some B) (hal : B.alive = true)
    (hp : B.peer u = .checked args next reply) (hsucc : reply.success = true)
    (hag : s.agrees B = true) (hci : (s.rafts B.owner).commitIndex < B.index)
    (ht : (s.rafts B.owner).currentTerm = B.term) {x : LogEntry C}
    (hx : (s.rafts B.owner).getLogByIndexUnLock B.index = some x)
    (hxt : x.term = (s.rafts B.owner).currentTerm) (hS : OnBoard s a) (hK : Known s)
    (hs' : s' = ((((s.setRaft B.owner ((s.rafts B.owner).matched u B.index)).setPeer k
      { B with nReplica := B.nReplica + 1, isAgree := B.isAgree || s.agrees B } u
      (.counted args)).setRaft B.owner
        { (s.rafts B.owner).matched u B.index with commitIndex := B.index }).spawnApply
          B.owner).record
        (.commit B.owner (s.rafts B.owner).currentTerm B.index (s.rafts B.owner).log)) :
    OnBoard s' (a.fix B.term B.index) := by
  have hmem := List.mem_of_getElem? hB
  have hm := hS.mirror B.owner
  obtain ⟨hl, hlog, ⟨y, hy, hyt⟩, Q, hQ, hown, hack, hacked⟩ :=
    commit_facts hB hal hp hsucc hag hci ht hx hxt hS hK
  have hlt := (List.getElem?_eq_some_iff.mp hy).1
  have hmaj : (majorities (Fin n)).is Q := by
    show Fintype.card (Fin n) / 2 + 1 ≤ Q.card
    rw [Fintype.card_fin]
    exact hQ
  have hgood : Good (a.fix B.term B.index) :=
    hS.good.fix (by rw [hl]; exact Option.some_ne_none _) hy hyt hmaj hack
  have hkept : Kept (a.fix B.term B.index) B.owner B.index := by
    have hlen : (a.log B.owner).length = (a.line B.term).length := by rw [hlog]
    refine ⟨by show B.index < (a.log B.owner).length; omega, Or.inr ⟨B.term, B.index, ?_, ?_, ?_⟩⟩
    · show B.term ≤ a.term B.owner
      rw [hm.term, ht]
    · exact Set.mem_insert _ _
    · show (a.log B.owner).take (B.index + 1) <+: (a.line B.term).take (B.index + 1)
      rw [hlog]
  have hr : s'.rafts = Function.update s.rafts B.owner
      { (s.rafts B.owner).matched u B.index with commitIndex := B.index } := by
    rw [hs']
    simp only [record_rafts, spawnApply_rafts, setRaft_rafts, setPeer_rafts, Function.update_idem]
  have hh : s'.hist = .commit B.owner (s.rafts B.owner).currentTerm B.index
      (s.rafts B.owner).log :: s.hist := by rw [hs']; rfl
  have hmir : Mirrors (a.fix B.term B.index) B.owner
      { (s.rafts B.owner).matched u B.index with commitIndex := B.index } :=
    ((hm.matched u B.index).grow Board.fix_grows rfl rfl).setCommit hkept
  have hsec : Section s s' a (a.fix B.term B.index) B.owner := by
    refine section_update hr Board.fix_moved hgood hS.leadAcked ?_ hmir
      ⟨by simp, fun hst _ => ⟨by simpa using hst, rfl⟩⟩
    rw [hh]
    exact fun ev hev => List.mem_cons_of_mem _ hev
  have hsteady : Steady (a.fix B.term B.index) B.owner (s.rafts B.owner) (s'.rafts B.owner) := by
    rw [hr, Function.update_self]
    exact Steady.same (by simp) (by simp) hci.le
  refine hsec.onBoard hS rfl hS.lines ?_ ?_ (hsec.past hS (by rw [hs']; rfl)) ?_ ?_
  · rw [hr, Function.update_self]
    exact fun _ => by simp
  · rw [hh, ht]
    refine hS.records.fix ⟨hl, Set.mem_insert _ _, (s.rafts B.owner).snapshot.index, a.line B.term,
      ?_, List.prefix_rfl, hlt, Q, hQ, hown, hacked⟩
    rw [← hlog]
    exact hm.holds.cut
  · have hel : s'.elections = s.elections := by rw [hs']; rfl
    rw [hel]
    exact fun E hE => hsec.asks hS hE
  · have hca : s'.casts = s.casts.set k { B with
        nReplica := B.nReplica + 1, isAgree := B.isAgree || s.agrees B,
        peer := Function.update B.peer u (.counted args) } := by rw [hs']; rfl
    have hsp := hsec.spreads hS hK rfl hsteady hmem
    rw [hca]
    refine forall_mem_set (fun B' hB' => hsec.spreads hS hK rfl hsteady hB') ?_
    refine hsp.peer (fun args' hargs => hsp.sent u args' ?_) (fun _ => hsp.acked u ?_) _ _
    · rw [hp]
      exact hargs
    · rw [hp]
      exact hsucc

theorem onBoard_peerReply (h : s.peerReply k u = some s') (hA : Allowed s (.peerReply k u))
    (hS : OnBoard s a) (hK : Known s) : ∃ a', a ≤ a' ∧ OnBoard s' a' := by
  obtain ⟨B, args, next, reply, hB, hal, hp, h⟩ := peerReply_inv h
  have hm := hS.mirror B.owner
  have hsp := hS.casts B (List.mem_of_getElem? hB)
  rcases h with ⟨hno, hlt, hs'⟩ | ⟨_, _, next', _, hs'⟩ | ⟨hsucc, hs'⟩ |
    ⟨hsucc, hag, hci, ⟨x, hx, hxt⟩, hs'⟩
  · have hle : (s.rafts B.owner).currentTerm ≤ reply.term := by
      rcases termGuard_fails hA.term
        ⟨k, u, B, args, next, reply, rfl, hB, hal, hp, hno, hlt, rfl, rfl⟩ with hlt | ⟨heq, _⟩
      · exact hlt.le
      · exact heq.le
    exact ⟨_, (Board.advance_moved B.owner reply.term).grows, onBoard_deposed hle hB hS hK hs'⟩
  · have hr : s'.rafts = Function.update s.rafts B.owner { s.rafts B.owner with
        nextIndex := Function.update (s.rafts B.owner).nextIndex u next' } := by rw [hs']; rfl
    exact ⟨a, le_refl a, onBoard_noted (c := .retry) hB hS hK hr (by rw [hs']; rfl)
      (by rw [hs']; rfl) (by rw [hs']; rfl) (by rw [hs']; rfl)
      (hm.congr rfl rfl rfl rfl rfl rfl rfl) rfl rfl rfl rfl rfl (fun args' hargs => by cases hargs)
      (fun hack => by cases hack)⟩
  · have hr : s'.rafts = Function.update s.rafts B.owner
        ((s.rafts B.owner).matched u B.index) := by rw [hs']; rfl
    refine ⟨a, le_refl a, onBoard_noted (c := .counted args) hB hS hK hr (by rw [hs']; rfl)
      (by rw [hs']; rfl) (by rw [hs']; rfl) (by rw [hs']; rfl)
      (hm.matched u B.index) (by simp) (by simp) (by simp) (by simp) (by simp) (fun args' hargs => ?_)
      (fun _ => ?_)⟩
    · exact hsp.sent u args' (by rw [hp]; exact hargs)
    · rw [hp]
      exact hsucc
  · have hg := hA.commit
    simp only [commitGuard, hB, hp, decide_eq_true_eq] at hg
    have ht := hg hsucc hag hci (by rw [hx]; simpa using hxt)
    exact ⟨_, Board.fix_grows, onBoard_commit hB hal hp hsucc hag hci ht hx hxt hS hK hs'⟩

end Reply

/-! ## 5. Deliveries, snapshots, crashes -/

/-- A section of one server that the board does not show. -/
theorem onBoard_still {v : Fin n} {rf : Raft n C} (hS : OnBoard s a) (hK : Known s)
    (hr : s'.rafts = Function.update s.rafts v rf) (hh : s'.hist = s.hist)
    (hp : s'.past = s.past) (hel : s'.elections = s.elections) (hca : s'.casts = s.casts)
    (hmir : Mirrors a v rf) (ht : rf.currentTerm = (s.rafts v).currentTerm)
    (hst : rf.state = (s.rafts v).state) (hsteady : Steady a v (s.rafts v) rf) : OnBoard s' a := by
  have hsec : Section s s' a a v :=
    section_still hS hr (by rw [hh]; exact fun _ h => h) hmir (Calm.same ht hst)
  refine hsec.onBoard hS rfl hS.lines ?_ ?_ (hsec.past hS hp) ?_ ?_
  · rw [hr, Function.update_self]
    exact fun _ => ht
  · rw [hh]
    exact hS.records
  · rw [hel]
    exact fun E hE => hsec.asks hS hE
  · rw [hca]
    refine fun B hB => hsec.spreads hS hK rfl ?_ hB
    rw [hr, Function.update_self]
    exact hsteady

/-- What `apply` delivers is the snapshot, or is committed. -/
theorem steady_apply {v : Fin n} {rf rf' : Raft n C} (h : rf.apply = some rf') :
    Steady a v rf rf' := by
  obtain ⟨_, _, e⟩ := Raft.handSnapshot_frame rf
  intro _ _ i h1 h2
  rcases Raft.apply_cases h with ⟨_, rfl⟩ | ⟨_, _, _, rfl⟩ <;> rw [e]
  · exact ⟨by show rf.snapshot.index ≤ max i (max rf.lastApplied rf.snapshot.index); omega,
      by show max rf.lastApplied rf.snapshot.index ≤ max i rf.commitIndex; omega⟩
  · exact ⟨by
      show rf.snapshot.index ≤ max i (max (max rf.lastApplied rf.snapshot.index) rf.commitIndex)
      omega, by
      show max (max rf.lastApplied rf.snapshot.index) rf.commitIndex ≤ max i rf.commitIndex
      omega⟩

theorem onBoard_apply {v : Fin n} (h : s.apply v = some s') (hS : OnBoard s a) (hK : Known s) :
    OnBoard s' a := by
  obtain ⟨rf, hrf, hs'⟩ := apply_inv h
  obtain ⟨i, ms, e⟩ := Raft.apply_frame hrf
  exact onBoard_still hS hK (by rw [hs']; rfl) (by rw [hs']; rfl) (by rw [hs']; rfl)
    (by rw [hs']; rfl) (by rw [hs']; rfl) ((hS.mirror v).apply hrf) (by rw [e]) (by rw [e])
    (steady_apply hrf)

theorem onBoard_saveSnapshot {v : Fin n} {index : Nat} {storage : List UInt8}
    (h : s.saveSnapshot v index storage = some s') (hS : OnBoard s a) (hK : Known s) :
    OnBoard s' a := by
  obtain ⟨rf, hi, hrf, hs'⟩ := saveSnapshot_inv h
  have hmir := (hS.mirror v).saveSnapshot hi hrf
  have hrest : rf.currentTerm = (s.rafts v).currentTerm ∧ rf.state = (s.rafts v).state ∧
      Steady a v (s.rafts v) rf := by
    rcases Raft.saveSnapshot_cases hrf with ⟨_, rfl⟩ | ⟨_, x, ls, _, _, rfl⟩
    · exact ⟨rfl, rfl, Steady.refl _ _⟩
    · refine ⟨by simp, by simp, fun _ _ i h1 h2 => ?_⟩
      simp only [Raft.persist_snapshot, Raft.persist_lastApplied, Raft.persist_commitIndex]
      exact ⟨by omega, h2⟩
  exact onBoard_still hS hK (by rw [hs']; rfl) (by rw [hs']; rfl) (by rw [hs']; rfl)
    (by rw [hs']; rfl) (by rw [hs']; rfl) hmir hrest.1 hrest.2.1 hrest.2.2

/-- **A crash**: the server is where it was, its goroutines are gone. -/
theorem onBoard_restart (v : Fin n) (grow : Nat) (hS : OnBoard s a) (hK : Known s) :
    OnBoard (s.restart v grow) a := by
  have hm := hS.mirror v
  have hr : (s.restart v grow).rafts =
      Function.update s.rafts v (Raft.make (s.rafts v).persister grow) := rfl
  obtain ⟨ht, _⟩ := Raft.make_saved (hK.saved v).1 (hK.saved v).2 grow
  have hno : (Raft.make (s.rafts v).persister grow).state ≠ .candidate := by
    rw [Raft.make_state]
    nofun
  have hsec : Section s (s.restart v grow) a a v :=
    section_still hS hr (fun ev hev => List.mem_cons_of_mem _ hev)
      (hm.make hS.good (hK.saved v).1 grow) ⟨ht.ge, fun hst => absurd hst hno⟩
  refine hsec.onBoard hS rfl hS.lines ?_ (hS.records.cons rfl) ?_ ?_ ?_
  · rw [hr, Function.update_self]
    exact fun hst => absurd hst hno
  · intro w m hm'
    by_cases hw : w = v
    · subst hw
      rw [show (s.restart w grow).past w = s.past w ++ (s.rafts w).applyChan from
        Function.update_self _ _ _] at hm'
      rcases List.mem_append.mp hm' with hm' | hm'
      · exact hS.past w m hm'
      · exact hm.chan m hm'
    · rw [show (s.restart v grow).past w = s.past w from Function.update_of_ne hw _ _] at hm'
      exact hS.past w m hm'
  · intro E hE
    obtain ⟨E₀, hE₀, rfl⟩ := List.mem_map.mp hE
    have := hsec.asks hS hE₀
    split
    · exact this
    · exact this
  · intro B hB
    obtain ⟨B₀, hB₀, rfl⟩ := List.mem_map.mp hB
    have hspread : ∀ alive : Bool,
        (alive = true → B₀.alive = true ∧ Steady a B₀.owner (s.rafts B₀.owner)
          ((s.restart v grow).rafts B₀.owner)) →
        Spreads a (s.restart v grow).hist ((s.restart v grow).rafts B₀.owner)
          { B₀ with alive := alive } := fun _ hst =>
      (hS.casts B₀ hB₀).calm hS.good (le_refl a) (hK.casters B₀ hB₀).term_le
        (hsec.calm_all B₀.owner) Or.inl hsec.hist_sub hst
    split
    · exact hspread false nofun
    · rename_i hne
      refine hspread B₀.alive fun hal => ⟨hal, ?_⟩
      rw [hsec.others _ hne]
      exact Steady.refl _ _

/-! ## 6. The simulation -/

/-- **Every allowed step of the cluster is a move on the board**, or none. -/
theorem onBoard_step {act : Action n C} (h : s.step act = some s') (hA : Allowed s act)
    (hS : OnBoard s a) (hK : Known s) : ∃ a', a ≤ a' ∧ OnBoard s' a' := by
  have stay : OnBoard s' a → ∃ a', a ≤ a' ∧ OnBoard s' a' := fun h => ⟨a, le_refl a, h⟩
  cases act with
  | startOneElection v =>
      cases Option.some.inj h
      exact onBoard_startOneElection hS hK v
  | voteArgs e => exact stay (onBoard_voteArgs h hS)
  | handleVote e u => exact onBoard_handleVote h hS hK
  | voteCheck e u => exact stay (onBoard_voteCheck h hS)
  | voteReply e u => exact onBoard_voteReply h hA.vote hS hK
  | startState v command =>
      cases Option.some.inj h
      refine stay (onBoard_idle hS v ?_ ?_ ?_ ?_ ?_) <;> unfold startState <;> split
      all_goals first | rfl | exact hS.asks | exact hS.casts
  | startAppend k grow => exact onBoard_startAppend h hA.start hS hK
  | beatState v =>
      cases Option.some.inj h
      refine stay (onBoard_idle hS v ?_ ?_ ?_ ?_ ?_) <;> unfold beatState <;> split
      all_goals first | rfl | exact hS.asks | exact hS.casts
  | beatSend k => exact stay (onBoard_beatSend h hS)
  | castState k => exact stay (onBoard_castState h hS)
  | castTerm k => exact stay (onBoard_castTerm h hS)
  | peerState k u => exact stay (onBoard_peerState h hS)
  | peerArgs k u => exact stay (onBoard_peerArgs h hS hK)
  | encode k u m => exact stay (onBoard_encode h hA.encode hS hK)
  | handleAppend k u grow => exact onBoard_handleAppend h hA.gap hS hK
  | peerCheck k u => exact stay (onBoard_peerCheck h hS)
  | peerReply k u => exact onBoard_peerReply h hA hS hK
  | apply v => exact stay (onBoard_apply h hS hK)
  | saveSnapshot v index storage => exact stay (onBoard_saveSnapshot h hS hK)
  | restart v grow =>
      cases Option.some.inj h
      exact stay (onBoard_restart v grow hS hK)

end Steps

theorem onBoard_init : OnBoard (init n C) (Board.init base) := by
  have hbase : ∀ e ∈ (base : List (LogEntry C)), e.term = 0 := by
    intro e he
    rw [List.mem_singleton.mp he]
    rfl
  have hfrom : From 0 (base : List (LogEntry C)) := by
    intro k e he
    cases k with
    | zero => cases he; rfl
    | succ k => simp [base] at he
  have hkept : ∀ v, Kept (Board.init base : Board (Fin n) (LogEntry C)) v 0 := fun v =>
    ⟨Nat.one_pos, Or.inl <| List.take_prefix _ _⟩
  have hmake : ∀ v, (init n C).rafts v = Raft.fresh ⟨none, []⟩ 0 := fun _ =>
    Raft.make_none (p := ⟨none, []⟩) rfl 0
  refine ⟨Board.inv_init hbase, Board.LeadAcked.init, fun t => ?_, fun t u b hb => ?_,
    ⟨?_, ?_, fun v t lg hl => ?_, ?_⟩, fun v => ?_, fun v m hm => ?_, fun c hst => ?_,
    fun E hE => ?_, fun B hB => ?_⟩
  · by_cases ht : t = 0
    · simpa [Board.init, ht] using hfrom
    · simpa [Board.init, ht] using From.nil 0
  · cases hb
  · intro t v c
    simp [init, Board.init]
  · intro t v
    simp [init, Board.init]
  · cases hl
  · intro later earlier v t i lg hh
    cases later <;> cases hh
  · rw [hmake v]
    refine ⟨rfl, ⟨⟨hfrom, LogEntry.zero, LogEntry.zero, rfl, Stands.refl _, rfl⟩, fun y hy => ?_⟩,
      hkept v, hkept v, hkept v, fun d hd => ?_, fun m hm => ?_⟩
    · cases hy
      rfl
    · cases hd
    · cases hm
  · cases hm
  · rw [hmake c] at hst
    cases hst
  · cases hE
  · cases hB

/-- **The simulation of a whole run**, on from a state of an allowed run and its board. -/
theorem onBoard_reach {G : Cluster n C → Action n C → Prop} (hG : ∀ s a, G s a →
      s.termGuard a = true ∧ s.voteGuard a = true)
    (hA : ∀ s a b, Reach step G (init n C) s → G s a → OnBoard s b → Allowed s a)
    {s₁ s₂ : Cluster n C} (h₁ : Reach step G (init n C) s₁) (h₂ : Reach step G s₁ s₂)
    {a : Board (Fin n) (LogEntry C)} (hS : OnBoard s₁ a) : ∃ a', a ≤ a' ∧ OnBoard s₂ a' := by
  have hR : ∀ s act s' b, (Reach step G (init n C) s ∧ OnBoard s b) → G s act →
      s.step act = some s' → ∃ b', (Reach step G (init n C) s' ∧ OnBoard s' b') ∧ b ≤ b' := by
    rintro s act s' b ⟨hr, hb⟩ hg hs
    have hK := known_reach (fun s a hg => (hG s a hg).1) (fun s a hg => (hG s a hg).2) hr
    obtain ⟨b', hle, hb'⟩ := onBoard_step hs (hA s act b hr hg hb) hb hK
    exact ⟨b', ⟨.move _ _ _ hr hg hs, hb'⟩, hle⟩
  obtain ⟨a', ⟨_, hS'⟩, hle⟩ := h₂.sim hR ⟨h₁, hS⟩
  exact ⟨a', hle, hS'⟩

end Mit6824.Cluster
