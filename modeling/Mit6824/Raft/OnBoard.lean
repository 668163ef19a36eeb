/-
  File:      Mit6824/Raft/OnBoard.lean
  Subject:   THE CLUSTER AND THE BOARD: the relation that the simulation keeps.

  * `Records` -- votes, leaders and commits on record are ballots, leaders and fixed positions;
  * `Claimed`, `Asks` -- while a server is a candidate, its ballots and its requests for votes
    claim the log it still has;
  * `Spreads` -- what the requests of a broadcast say and what their acknowledgements are worth;
    how far the snapshot and the deliveries of the sender may have gone on meanwhile;
  * `OnBoard s a` -- all of it, for the whole cluster;
  * `Calm` -- what a section of a server may do without disturbing its own candidature and
    broadcasts; most sections are calm.
-/
import Mit6824.Raft.Handler
import Mit6824.Raft.Entries

namespace Mit6824

open Lib

variable {n : Nat} {C : Type}

/-! ## 1. The record -/

/-- `u` has acknowledged in term `t`, with a log that began with `P`. -/
def Acked (hist : List (Event n C)) (u : Fin n) (t : Nat) (P : List (LogEntry C)) : Prop :=
  ∃ lg j G, Event.ack u t lg ∈ hist ∧ CutAt j lg G ∧ P <+: G

/-- **A commit on record**: the line is fixed there, and a majority had acknowledged the log of the
    committer up to there. -/
def Committed (a : Board (Fin n) (LogEntry C)) (earlier : List (Event n C)) (v : Fin n)
    (t i : Nat) (lg : List (LogEntry C)) : Prop :=
  a.lead t = some v ∧ (t, i) ∈ a.fixed ∧ ∃ j G, CutAt j lg G ∧ G <+: a.line t ∧ i < G.length ∧
    ∃ Q : Finset (Fin n), Cluster.majority n ≤ Q.card ∧ v ∈ Q ∧
      ∀ u ∈ Q, u = v ∨ Acked earlier u t (G.take (i + 1))

structure Records (a : Board (Fin n) (LogEntry C)) (hist : List (Event n C)) : Prop where
  vote : ∀ t v c, Event.vote v c t ∈ hist ↔ ∃ b, a.vote t v = some b ∧ b.cand = c
  lead : ∀ t v, a.lead t = some v ↔ ∃ lg, Event.lead v t lg ∈ hist
  start : ∀ v t lg, Event.lead v t lg ∈ hist → ∃ i, CutAt i lg (a.start t)
  commit : ∀ later earlier v t i lg, hist = later ++ .commit v t i lg :: earlier →
    Committed a earlier v t i lg

/-- An entry of the record that the board does not show. -/
def Event.plain : Event n C → Bool
  | .append _ _ _ _ _ | .send _ _ _ | .ack _ _ _ | .restart _ _ => true
  | _ => false

section Record

variable {a a' : Board (Fin n) (LogEntry C)} {hist hist' : List (Event n C)}

theorem Acked.mono {u : Fin n} {t : Nat} {P : List (LogEntry C)} (h : Acked hist u t P)
    (hsub : ∀ ev ∈ hist, ev ∈ hist') : Acked hist' u t P := by
  obtain ⟨lg, j, G, h1, h2, h3⟩ := h
  exact ⟨lg, j, G, hsub _ h1, h2, h3⟩

theorem Committed.grow {v : Fin n} {t i : Nat} {lg : List (LogEntry C)}
    (h : Committed a hist v t i lg) (hle : a ≤ a') : Committed a' hist v t i lg := by
  obtain ⟨hl, hf, j, G, hG, hpre, hrest⟩ := h
  exact ⟨(hle.lead t v hl).1, hle.fixed hf, j, G, hG, hpre.trans (hle.line t), hrest⟩

theorem Records.grow (h : Records a hist) (hle : a ≤ a') (hv : a'.vote = a.vote)
    (hl : a'.lead = a.lead) : Records a' hist where
  vote := by rw [hv]; exact h.vote
  lead := by rw [hl]; exact h.lead
  start := by
    intro v t lg hlg
    rw [(hle.lead t v ((h.lead t v).mpr ⟨lg, hlg⟩)).2]
    exact h.start v t lg hlg
  commit := fun later earlier v t i lg hh => (h.commit later earlier v t i lg hh).grow hle

/-- The commits of a longer record: the new entry is one, or they all stand in the old record. -/
theorem commit_cons {ev : Event n C} {later earlier : List (Event n C)} {v : Fin n} {t i : Nat}
    {lg : List (LogEntry C)} (h : ev :: hist = later ++ .commit v t i lg :: earlier) :
    (ev = .commit v t i lg ∧ earlier = hist) ∨
      ∃ later', hist = later' ++ .commit v t i lg :: earlier := by
  cases later with
  | nil =>
      obtain ⟨h1, h2⟩ := List.cons.inj h
      exact Or.inl ⟨h1, h2.symm⟩
  | cons x later' => exact Or.inr ⟨later', (List.cons.inj h).2⟩

theorem Records.cons (h : Records a hist) {ev : Event n C} (hp : ev.plain = true) :
    Records a (ev :: hist) where
  vote := by
    intro t v c
    rw [← h.vote t v c]
    refine ⟨fun hm => ?_, List.mem_cons_of_mem _⟩
    rcases List.mem_cons.mp hm with rfl | hm
    · cases hp
    · exact hm
  lead := by
    intro t v
    rw [h.lead t v]
    refine ⟨fun ⟨lg, hlg⟩ => ⟨lg, List.mem_cons_of_mem _ hlg⟩, fun ⟨lg, hlg⟩ => ⟨lg, ?_⟩⟩
    rcases List.mem_cons.mp hlg with rfl | hlg
    · cases hp
    · exact hlg
  start := by
    intro v t lg hlg
    rcases List.mem_cons.mp hlg with rfl | hlg
    · cases hp
    · exact h.start v t lg hlg
  commit := by
    intro later earlier v t i lg hh
    rcases commit_cons hh with ⟨rfl, _⟩ | ⟨later', hh⟩
    · cases hp
    · exact h.commit later' earlier v t i lg hh

/-- A vote goes on record, and its ballot on the board. -/
theorem Records.cast (h : Records a hist) {v : Fin n} {b : Ballot (Fin n) (LogEntry C)}
    (hnone : a.vote (a.term v) v = none) :
    Records (a.cast v b) (.vote v b.cand (a.term v) :: hist) where
  vote := by
    intro t w c
    rw [List.mem_cons, h.vote t w c]
    by_cases htw : t = a.term v ∧ w = v
    · obtain ⟨rfl, rfl⟩ := htw
      simp only [Board.cast, Function.update_self, Option.some.injEq, exists_eq_left', hnone,
        reduceCtorEq, false_and, exists_false, or_false, Event.vote.injEq, true_and, and_true]
      exact eq_comm
    · have hvote : (a.cast v b).vote t w = a.vote t w := by
        by_cases ht : t = a.term v
        · subst ht
          have hw : w ≠ v := fun hw => htw ⟨rfl, hw⟩
          simp only [Board.cast, Function.update_self, Function.update_of_ne hw]
        · simp only [Board.cast, Function.update_of_ne ht]
      rw [hvote]
      refine ⟨fun hor => ?_, Or.inr⟩
      rcases hor with heq | hold
      · simp only [Event.vote.injEq] at heq
        exact absurd ⟨heq.2.2, heq.1⟩ htw
      · exact hold
  lead := by
    intro t w
    have := h.lead t w
    simpa [Board.cast] using this
  start := by
    intro w t lg hlg
    refine h.start w t lg ?_
    simpa using hlg
  commit := by
    intro later earlier w t i lg hh
    rcases commit_cons hh with ⟨heq, _⟩ | ⟨later', hh⟩
    · cases heq
    · exact (h.commit later' earlier w t i lg hh).grow (Board.cast_grows hnone)

/-- A vote that was given before goes on record again. -/
theorem Records.revote (h : Records a hist) {v c : Fin n} {t : Nat}
    (hb : ∃ b, a.vote t v = some b ∧ b.cand = c) : Records a (.vote v c t :: hist) where
  vote := by
    intro t' w c'
    rw [List.mem_cons, ← h.vote t' w c']
    refine ⟨fun hor => ?_, Or.inr⟩
    rcases hor with heq | hold
    · obtain ⟨rfl, rfl, rfl⟩ := Event.vote.inj heq
      exact (h.vote _ _ _).mpr hb
    · exact hold
  lead := by
    intro t w
    have := h.lead t w
    simpa using this
  start := by
    intro w t lg hlg
    refine h.start w t lg ?_
    simpa using hlg
  commit := by
    intro later earlier w t i lg hh
    rcases commit_cons hh with ⟨heq, _⟩ | ⟨later', hh⟩
    · cases heq
    · exact h.commit later' earlier w t i lg hh

/-- A leader goes on record, and on the board, with the log it has. -/
theorem Records.crown (h : Records a hist) {c : Fin n} {Q : Finset (Fin n)}
    (hle : a ≤ a.crown c Q) (hnone : a.lead (a.term c) = none) {i : Nat} {lg : List (LogEntry C)}
    (hcut : CutAt i lg (a.log c)) : Records (a.crown c Q) (.lead c (a.term c) lg :: hist) where
  vote := by
    intro t v d
    have := h.vote t v d
    simpa [Board.crown] using this
  lead := by
    intro t v
    by_cases ht : t = a.term c
    · subst ht
      simp only [Board.crown, Function.update_self, Option.some.injEq]
      constructor
      · rintro rfl
        exact ⟨lg, List.mem_cons_self⟩
      · rintro ⟨lg', hl⟩
        rcases List.mem_cons.mp hl with heq | hold
        · exact (Event.lead.inj heq).1.symm
        · have := (h.lead _ v).mpr ⟨lg', hold⟩
          rw [hnone] at this
          cases this
    · simp only [Board.crown, Function.update_of_ne ht]
      rw [h.lead t v]
      constructor
      · rintro ⟨lg', hl⟩
        exact ⟨lg', List.mem_cons_of_mem _ hl⟩
      · rintro ⟨lg', hl⟩
        rcases List.mem_cons.mp hl with heq | hold
        · exact absurd (Event.lead.inj heq).2.1 ht
        · exact ⟨lg', hold⟩
  start := by
    intro v t lg' hl
    rcases List.mem_cons.mp hl with heq | hold
    · obtain ⟨rfl, rfl, rfl⟩ := Event.lead.inj heq
      simp only [Board.crown, Function.update_self]
      exact ⟨i, hcut⟩
    · rw [(hle.lead t v ((h.lead t v).mpr ⟨lg', hold⟩)).2]
      exact h.start v t lg' hold
  commit := by
    intro later earlier w t j lg' hh
    rcases commit_cons hh with ⟨heq, _⟩ | ⟨later', hh⟩
    · cases heq
    · exact (h.commit later' earlier w t j lg' hh).grow hle

/-- A commit goes on record, and the position is fixed on the board. -/
theorem Records.fix (h : Records a hist) {v : Fin n} {t i : Nat} {lg : List (LogEntry C)}
    (hc : Committed (a.fix t i) hist v t i lg) : Records (a.fix t i) (.commit v t i lg :: hist) where
  vote := by
    intro t' w d
    have := h.vote t' w d
    simpa [Board.fix] using this
  lead := by
    intro t' w
    have := h.lead t' w
    simpa [Board.fix] using this
  start := by
    intro w t' lg' hl
    refine h.start w t' lg' ?_
    simpa using hl
  commit := by
    intro later earlier w t' j lg' hh
    rcases commit_cons hh with ⟨heq, rfl⟩ | ⟨later', hh⟩
    · obtain ⟨rfl, rfl, rfl, rfl⟩ := Event.commit.inj heq
      exact hc
    · exact (h.commit later' earlier w t' j lg' hh).grow Board.fix_grows

end Record

/-! ## 2. Candidates -/

/-- While `c` is a candidate, the ballots of its term claim the log it has. -/
def Claimed (a : Board (Fin n) (LogEntry C)) (c : Fin n) (rf : Raft n C) : Prop :=
  rf.state = .candidate → ∀ v b, a.vote rf.currentTerm v = some b → b.cand = c →
    b.claim = lastOf LogEntry.term (a.log c)

/-- What a request for a vote claims. -/
def RequestVoteArgs.claim (args : RequestVoteArgs n) : Nat × Nat :=
  (args.lastLogTerm, args.lastLogIndex + 1)

/-- The requests of an election: of no later term than its owner is in, and while the owner is a
    candidate, those of its term claim the log it has. -/
def Asks (a : Board (Fin n) (LogEntry C)) (rf : Raft n C) (E : Election n) : Prop :=
  ∀ u args, (E.call u).request = some args → args.term ≤ rf.currentTerm ∧
    (rf.state = .candidate → args.term = rf.currentTerm →
      args.claim = lastOf LogEntry.term (a.log E.owner))

/-- A call of an election moves on. -/
theorem Asks.call {a : Board (Fin n) (LogEntry C)} {rf : Raft n C} {E : Election n}
    (h : Asks a rf E) {u : Fin n} {c : VoteCall n}
    (hc : c.request = none ∨ c.request = (E.call u).request) (nVotes : Nat) :
    Asks a rf { E with nVotes := nVotes, call := Function.update E.call u c } := by
  intro w args hw
  by_cases hwu : w = u
  · subst hwu
    simp only [Function.update_self] at hw
    rcases hc with hc | hc <;> rw [hc] at hw
    · cases hw
    · exact h w args hw
  · simp only [Function.update_of_ne hwu] at hw
    exact h w args hw

/-! ## 3. Broadcasts -/

/-- **A broadcast**, with `rf` for the server that makes it. -/
structure Spreads (a : Board (Fin n) (LogEntry C)) (hist : List (Event n C)) (rf : Raft n C)
    (B : Cast n C) : Prop where
  /-- its index is on the line, if the owner leads the term or is about to -/
  led : a.lead B.term = some B.owner → B.index < (a.line B.term).length
  about : rf.currentTerm = B.term → rf.state = .candidate → B.index < (a.log B.owner).length
  commit : ∃ P, P.length = B.commitIndex + 1 ∧ Board.Settled base a B.term P
  /-- how far the owner may have gone on since -/
  window : B.alive = true → rf.currentTerm = B.term →
    (rf.state = .candidate ∨ a.lead B.term = some B.owner) →
    rf.snapshot.index ≤ max B.index rf.lastApplied ∧ rf.lastApplied ≤ max B.index rf.commitIndex
  sent : ∀ u args, (B.peer u).request = some args → ∃ p, Carries a B.index p args
  acked : ∀ u, (B.peer u).acked = true → B.index < a.ack B.term u ∧
    Acked hist u B.term ((a.line B.term).take (B.index + 1))

/-- A call of a broadcast moves on. -/
theorem Spreads.peer {a : Board (Fin n) (LogEntry C)} {hist : List (Event n C)} {rf : Raft n C}
    {B : Cast n C} (h : Spreads a hist rf B) {u : Fin n} {c : PeerCall n C}
    (hreq : ∀ args, c.request = some args → ∃ p, Carries a B.index p args)
    (hack : c.acked = true → B.index < a.ack B.term u ∧
      Acked hist u B.term ((a.line B.term).take (B.index + 1))) (nReplica : Nat) (isAgree : Bool) :
    Spreads a hist rf { B with
      nReplica := nReplica, isAgree := isAgree, peer := Function.update B.peer u c } where
  led := h.led
  about := h.about
  commit := h.commit
  window := h.window
  sent := by
    intro w args hw
    by_cases hwu : w = u
    · subst hwu
      simp only [Function.update_self] at hw
      exact hreq args hw
    · simp only [Function.update_of_ne hwu] at hw
      exact h.sent w args hw
  acked := by
    intro w hw
    by_cases hwu : w = u
    · subst hwu
      simp only [Function.update_self] at hw
      exact hack hw
    · simp only [Function.update_of_ne hwu] at hw
      exact h.acked w hw

/-- A broadcast that has not sent anything yet. -/
theorem Spreads.quiet {a : Board (Fin n) (LogEntry C)} {hist : List (Event n C)} {rf : Raft n C}
    {B B' : Cast n C} (h : Spreads a hist rf B) (ho : B'.owner = B.owner) (ht : B'.term = B.term)
    (hi : B'.index = B.index) (hc : B'.commitIndex = B.commitIndex) (hal : B'.alive = B.alive)
    (hp : ∀ u, B'.peer u = .idle ∨ B'.peer u = .retry ∨ B'.peer u = B.peer u) :
    Spreads a hist rf B' where
  led := by rw [ho, ht, hi]; exact h.led
  about := by rw [ho, ht, hi]; exact h.about
  commit := by rw [ht, hc]; exact h.commit
  window := by rw [ho, ht, hi, hal]; exact h.window
  sent := by
    intro u args hr
    rw [hi]
    rcases hp u with e | e | e <;> rw [e] at hr
    · cases hr
    · cases hr
    · exact h.sent u args hr
  acked := by
    intro u ha
    rw [ht, hi]
    rcases hp u with e | e | e <;> rw [e] at ha
    · cases ha
    · cases ha
    · exact h.acked u ha

/-! ## 4. The relation -/

/-- **The cluster is on the board.** -/
structure OnBoard (s : Cluster n C) (a : Board (Fin n) (LogEntry C)) : Prop where
  good : Good a
  leadAcked : a.LeadAcked
  lines : ∀ t, From 0 (a.line t)
  ballots : ∀ t u b, a.vote t u = some b → t ≤ a.term b.cand
  records : Records a s.hist
  mirror : ∀ v, Mirrors a v (s.rafts v)
  past : ∀ v, ∀ m ∈ s.past v, Delivered a m
  claims : ∀ c, Claimed a c (s.rafts c)
  asks : ∀ E ∈ s.elections, Asks a (s.rafts E.owner) E
  casts : ∀ B ∈ s.casts, Spreads a s.hist (s.rafts B.owner) B

/-- What the last files have shown of the states of a guarded run. -/
structure Known (s : Cluster n C) : Prop extends Cluster.Booked s where
  pos : ∀ v, (s.rafts v).state = .candidate → 0 < (s.rafts v).currentTerm
  fresh : ∀ v lg, (s.rafts v).state = .candidate →
    Event.lead v (s.rafts v).currentTerm lg ∉ s.hist

theorem known_reach {G : Cluster n C → Action n C → Prop}
    (hT : ∀ s a, G s a → s.termGuard a = true) (hV : ∀ s a, G s a → s.voteGuard a = true)
    {s : Cluster n C} (h : Reach Cluster.step G (Cluster.init n C) s) : Known s :=
  ⟨Cluster.booked_reach hT hV h, Cluster.candidate_pos h, fun _ _ => Cluster.candidate_fresh hT hV h⟩

/-! ## 5. Calm sections -/

/-- **A section of `v` that leaves its candidature and its broadcasts alone.** -/
structure Calm (a a' : Board (Fin n) (LogEntry C)) (v : Fin n) (rf rf' : Raft n C) : Prop where
  term_le : rf.currentTerm ≤ rf'.currentTerm
  cand : rf'.state = .candidate → rf'.currentTerm = rf.currentTerm →
    rf.state = .candidate ∧ a'.log v = a.log v

/-- A section of `v`, to the board `a'`, after which snapshot and deliveries are still where a
    broadcast needs them. -/
def Steady (a' : Board (Fin n) (LogEntry C)) (v : Fin n) (rf rf' : Raft n C) : Prop :=
  rf'.currentTerm = rf.currentTerm → (rf'.state = .candidate ∨ a'.lead rf.currentTerm = some v) →
    ∀ i, rf.snapshot.index ≤ max i rf.lastApplied → rf.lastApplied ≤ max i rf.commitIndex →
      rf'.snapshot.index ≤ max i rf'.lastApplied ∧ rf'.lastApplied ≤ max i rf'.commitIndex

section Calm

variable {a a' : Board (Fin n) (LogEntry C)} {v : Fin n} {rf rf' : Raft n C}

theorem Calm.refl (h : Board.MovedBy v a a') (w : Fin n) (hw : w ≠ v) (rf : Raft n C) :
    Calm a a' w rf rf :=
  ⟨le_refl _, fun hc _ => ⟨hc, h.log w hw⟩⟩

/-- Role and term stay, and so does the board. -/
theorem Calm.same (ht : rf'.currentTerm = rf.currentTerm) (hs : rf'.state = rf.state) :
    Calm a a v rf rf' :=
  ⟨ht.ge, fun hc _ => ⟨hs ▸ hc, rfl⟩⟩

theorem Steady.refl (v : Fin n) (rf : Raft n C) : Steady a v rf rf := fun _ _ _ h1 h2 => ⟨h1, h2⟩

theorem Steady.same (hs : rf'.snapshot = rf.snapshot) (hl : rf'.lastApplied = rf.lastApplied)
    (hc : rf.commitIndex ≤ rf'.commitIndex) : Steady a v rf rf' := by
  intro _ _ i h1 h2
  rw [hs, hl]
  exact ⟨h1, by omega⟩

theorem Steady.raise (h : rf.currentTerm < rf'.currentTerm) : Steady a v rf rf' := by
  intro heq
  omega

theorem Asks.calm {E : Election n} (h : Asks a rf E) (hc : Calm a a' E.owner rf rf') :
    Asks a' rf' E := by
  intro u args hr
  obtain ⟨hle, hclaim⟩ := h u args hr
  have hle' := hc.term_le
  refine ⟨le_trans hle hle', fun hst ht => ?_⟩
  have heq : rf'.currentTerm = rf.currentTerm := by omega
  obtain ⟨hst₀, hlog⟩ := hc.cand hst heq
  rw [hlog]
  exact hclaim hst₀ (by omega)

theorem Claimed.calm {c : Fin n} (h : Claimed a c rf) (hc : Calm a a' c rf rf')
    (hfresh : rf'.state = .candidate → rf'.currentTerm = rf.currentTerm)
    (hvote : ∀ t u b, a'.vote t u = some b → b.cand = c → a.vote t u = some b) :
    Claimed a' c rf' := by
  intro hst u b hb hbc
  obtain ⟨hst₀, hlog⟩ := hc.cand hst (hfresh hst)
  rw [hfresh hst] at hb
  rw [hlog]
  exact h hst₀ u b (hvote _ _ _ hb hbc) hbc

/-- Everything a broadcast says stays right; whether it is still under way may change. Its owner
    led the term before, or is crowned now. -/
theorem Spreads.calm {hist hist' : List (Event n C)} {B : Cast n C} (h : Spreads a hist rf B)
    (hI : Good a) (hle : a ≤ a') (hterm : B.term ≤ rf.currentTerm)
    (hc : Calm a a' B.owner rf rf')
    (hlead : a'.lead B.term = some B.owner → a.lead B.term = some B.owner ∨
      (rf.currentTerm = B.term ∧ rf.state = .candidate ∧ a'.line B.term = a.log B.owner))
    (hsub : ∀ ev ∈ hist, ev ∈ hist') {alive : Bool}
    (hst : alive = true → B.alive = true ∧ Steady a' B.owner rf rf') :
    Spreads a' hist' rf' { B with alive := alive } where
  led hl := by
    rcases hlead hl with hl₀ | ⟨ht, hs, hline⟩
    · exact lt_of_lt_of_le (h.led hl₀) (hle.line _).length_le
    · show B.index < (a'.line B.term).length
      rw [hline]
      exact h.about ht hs
  about ht hs := by
    have ht' : rf'.currentTerm = rf.currentTerm := by
      have hle' := hc.term_le
      have ht' : rf'.currentTerm = B.term := ht
      omega
    obtain ⟨hs₀, hlog⟩ := hc.cand hs ht'
    show B.index < (a'.log B.owner).length
    rw [hlog]
    exact h.about (ht'.symm.trans ht) hs₀
  commit := by
    obtain ⟨P, hP, hset⟩ := h.commit
    exact ⟨P, hP, hset.grow hle⟩
  window hal ht hor := by
    obtain ⟨hal₀, hsteady⟩ := hst hal
    have ht' : rf'.currentTerm = rf.currentTerm := by
      have hle' := hc.term_le
      have ht' : rf'.currentTerm = B.term := ht
      omega
    have ht₀ : rf.currentTerm = B.term := ht'.symm.trans ht
    have hor₀ : rf.state = .candidate ∨ a.lead B.term = some B.owner := by
      rcases hor with hs | hl
      · exact Or.inl (hc.cand hs ht').1
      · rcases hlead hl with hl₀ | ⟨_, hs, _⟩
        · exact Or.inr hl₀
        · exact Or.inl hs
    obtain ⟨h1, h2⟩ := h.window hal₀ ht₀ hor₀
    refine hsteady ht' ?_ B.index h1 h2
    rw [ht₀]
    exact hor
  sent u args hr := by
    obtain ⟨p, hp⟩ := h.sent u args hr
    exact ⟨p, hp.grow hle⟩
  acked u ha := by
    obtain ⟨h1, h2⟩ := h.acked u ha
    have hlen := hI.ack_len B.term u
    refine ⟨lt_of_lt_of_le h1 (hle.ack _ _), ?_⟩
    have h2' := h2.mono hsub
    rwa [take_of_begins (hle.line B.term) (by omega)] at h2'

end Calm

/-- A step from `s` to `s'` that is a section of `v`, on the boards `a` and `a'`. -/
structure Section (s s' : Cluster n C) (a a' : Board (Fin n) (LogEntry C)) (v : Fin n) : Prop where
  others : ∀ w, w ≠ v → s'.rafts w = s.rafts w
  moved : Board.MovedBy v a a'
  good : Good a'
  leadAcked : a'.LeadAcked
  hist_sub : ∀ ev ∈ s.hist, ev ∈ s'.hist
  mirror : Mirrors a' v (s'.rafts v)
  calm : Calm a a' v (s.rafts v) (s'.rafts v)

namespace Section

variable {s s' : Cluster n C} {a a' : Board (Fin n) (LogEntry C)} {v : Fin n}

theorem calm_all (h : Section s s' a a' v) (w : Fin n) :
    Calm a a' w (s.rafts w) (s'.rafts w) := by
  by_cases hw : w = v
  · subst hw
    exact h.calm
  · rw [h.others w hw]
    exact Calm.refl h.moved w hw _

theorem mirror_all (h : Section s s' a a' v) (hS : OnBoard s a) (w : Fin n) :
    Mirrors a' w (s'.rafts w) := by
  by_cases hw : w = v
  · subst hw
    exact h.mirror
  · rw [h.others w hw]
    exact (hS.mirror w).other h.moved hw

theorem past (h : Section s s' a a' v) (hS : OnBoard s a) (hpast : s'.past = s.past) (w : Fin n) :
    ∀ m ∈ s'.past w, Delivered a' m := by
  rw [hpast]
  exact fun m hm => (hS.past w m hm).grow h.moved.grows

/-- The elections that were there. -/
theorem asks (h : Section s s' a a' v) (hS : OnBoard s a) {E : Election n}
    (hE : E ∈ s.elections) : Asks a' (s'.rafts E.owner) E :=
  (hS.asks E hE).calm (h.calm_all E.owner)

/-- The broadcasts that were there. -/
theorem spreads (h : Section s s' a a' v) (hS : OnBoard s a) (hK : Known s)
    (hlead : a'.lead = a.lead) (hst : Steady a' v (s.rafts v) (s'.rafts v)) {B : Cast n C}
    (hB : B ∈ s.casts) : Spreads a' s'.hist (s'.rafts B.owner) B := by
  refine (hS.casts B hB).calm hS.good h.moved.grows (hK.casters B hB).term_le
    (h.calm_all B.owner) (fun hl => Or.inl (hlead ▸ hl)) h.hist_sub fun hal => ⟨hal, ?_⟩
  by_cases hw : B.owner = v
  · rw [hw]
    exact hst
  · rw [h.others _ hw]
    exact Steady.refl _ _

/-- The claims, when no ballot is cast for a candidate and nobody becomes one. -/
theorem claims (h : Section s s' a a' v) (hS : OnBoard s a) (hvote : a'.vote = a.vote)
    (hfresh : (s'.rafts v).state = .candidate →
      (s'.rafts v).currentTerm = (s.rafts v).currentTerm) (c : Fin n) :
    Claimed a' c (s'.rafts c) := by
  refine (hS.claims c).calm (h.calm_all c) (fun hst => ?_) fun t u b hb _ => by rwa [hvote] at hb
  by_cases hc : c = v
  · subst hc
    exact hfresh hst
  · rw [h.others c hc]

/-- **A section that casts no vote and makes no leader**: what is left to show is about the
    goroutines it moves. -/
theorem onBoard (h : Section s s' a a' v) (hS : OnBoard s a) (hvote : a'.vote = a.vote)
    (hlines : ∀ t, From 0 (a'.line t))
    (hfresh : (s'.rafts v).state = .candidate →
      (s'.rafts v).currentTerm = (s.rafts v).currentTerm)
    (hrec : Records a' s'.hist) (hpast : ∀ w, ∀ m ∈ s'.past w, Delivered a' m)
    (hasks : ∀ E ∈ s'.elections, Asks a' (s'.rafts E.owner) E)
    (hcasts : ∀ B ∈ s'.casts, Spreads a' s'.hist (s'.rafts B.owner) B) : OnBoard s' a' where
  good := h.good
  leadAcked := h.leadAcked
  lines := hlines
  ballots := by
    intro t u b hb
    rw [hvote] at hb
    exact le_trans (hS.ballots t u b hb) (h.moved.grows.term _)
  records := hrec
  mirror := h.mirror_all hS
  past := hpast
  claims := h.claims hS hvote hfresh
  asks := hasks
  casts := hcasts

end Section

end Mit6824
