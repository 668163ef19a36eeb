/-
  File:      Mit6824/Raft/Tenure.lean
  Subject:   A LEADER STAYS LEADER FOR ITS TERM, unless it crashes.

  * `Booked` -- what the last files have shown of guarded runs, in one place;
  * `tenure_reach` -- a server that became leader in a term leads as long as it is in that term:
    it has voted for itself, and nobody else sends AppendEntries in its term.
-/
import Mit6824.Raft.Casts

namespace Mit6824

open Lib

variable {n : Nat} {C : Type}

/-- Within its term a leader is deposed by a crash, or by a handler. -/
theorem Raft.Change.keeps_lead {me : Fin n} {a : Action n C} {rf rf' : Raft n C}
    {evs : List (Event n C)} (h : Raft.Change me a rf evs rf') (hst : rf.state = .leader)
    (ht : rf'.currentTerm = rf.currentTerm) :
    rf'.state = .leader ∨ (∃ grow, a = .restart me grow) ∨
      (∃ e, a = .handleVote e me) ∨ ∃ k grow, a = .handleAppend k me grow := by
  cases h with
  | idle => exact Or.inl hst
  | send => exact Or.inl hst
  | candidate =>
      simp [Raft.becomeCandidate] at ht
  | vote e => exact Or.inr (Or.inr (Or.inl ⟨e, rfl⟩))
  | down e u _ t hlt =>
      rw [Raft.stepDown_currentTerm] at ht
      omega
  | lead => exact Or.inl (by simp [Raft.becomeLeader])
  | start => exact Or.inl (by simpa using hst)
  | append k grow => exact Or.inr (Or.inr (Or.inr ⟨k, grow, rfl⟩))
  | next => exact Or.inl hst
  | count => exact Or.inl (by simpa using hst)
  | commit => exact Or.inl (by simpa using hst)
  | apply _ _ h =>
      obtain ⟨i, ms, rfl⟩ := Raft.apply_frame h
      exact Or.inl hst
  | snapshot _ _ index storage _ h =>
      rcases Raft.saveSnapshot_cases h with ⟨_, rfl⟩ | ⟨_, e, ls, _, _, rfl⟩
      · exact Or.inl hst
      · exact Or.inl (by simpa using hst)
  | restart grow => exact Or.inr (Or.inl ⟨grow, rfl⟩)

namespace Cluster

/-- **Tenure**: a server that became leader in `t` is not in an earlier term, and still leads if it
    is in `t`, unless it has crashed in `t`. -/
def TenureInv (s : Cluster n C) : Prop :=
  ∀ v t lg, Event.lead v t lg ∈ s.hist → t ≤ (s.rafts v).currentTerm ∧
    (t = (s.rafts v).currentTerm → (s.rafts v).state = .leader ∨ Event.restart v t ∈ s.hist)

/-- The facts about votes, elections and broadcasts that hold in guarded runs. -/
structure Booked (s : Cluster n C) : Prop where
  saved : ∀ v, (s.rafts v).Saved ∧ (s.rafts v).log ≠ []
  votes : VoteInv s
  elect : ElectInv s
  led : LedInv s
  casts : CastsOk s
  casters : CastsLed s

theorem booked_reach {G : Cluster n C → Action n C → Prop}
    (hT : ∀ s a, G s a → s.termGuard a = true) (hV : ∀ s a, G s a → s.voteGuard a = true)
    {s : Cluster n C} (h : Reach step G (init n C) s) : Booked s :=
  ⟨saved_reach h, voteInv_reach hT h, electInv_reach hV h, led_reach h, castsOk_reach h,
    castsLed_reach hT h⟩

/-- A leader has voted for itself. -/
theorem Booked.voted {s : Cluster n C} (hB : Booked s) {v : Fin n} {lg : List (LogEntry C)}
    (hl : Event.lead v (s.rafts v).currentTerm lg ∈ s.hist) :
    (s.rafts v).votedFor = some v := by
  obtain ⟨Q, _, hv, hvotes⟩ := hB.elect.elected_of_mem hl
  exact hB.votes.held v v _ (hvotes v hv) rfl

/-- No request of a term reaches the server that leads it. -/
theorem Booked.no_request {s : Cluster n C} (hB : Booked s) {v : Fin n} {t k : Nat}
    {lg : List (LogEntry C)} {B : Cast n C} {args : AppendEntriesArgs n C}
    (hl : Event.lead v t lg ∈ s.hist) (hc : s.casts[k]? = some B)
    (hr : (B.peer v).request = some args) : args.term ≠ t := by
  intro ht
  have hok := hB.casts B (List.mem_of_getElem? hc)
  obtain ⟨hne, hrun⟩ := hok.called (u := v) (by rintro e; rw [e] at hr; cases hr)
  obtain ⟨lg', hl'⟩ := (hB.casters B (List.mem_of_getElem? hc)).led hrun
  rw [← hok.term v args hr, ht] at hl'
  exact hne (lead_unique hB.elect hB.votes hl hl')

/-- A leader keeps its vote, so it grants none within its term. -/
theorem handleVote_keeps_lead {s s' : Cluster n C} {v : Fin n} {e : Nat} {lg : List (LogEntry C)}
    (h : s.handleVote e v = some s') (hB : Booked s) (hst : (s.rafts v).state = .leader)
    (hl : Event.lead v (s.rafts v).currentTerm lg ∈ s.hist)
    (ht : (s'.rafts v).currentTerm = (s.rafts v).currentTerm) : (s'.rafts v).state = .leader := by
  obtain ⟨E, args, hE, hcall, hs'⟩ := handleVote_inv h
  have hrf : s'.rafts v = ((s.rafts v).requestVote args).1 := by
    rw [hs']
    split <;> exact Function.update_self _ _ _
  have hok := hB.elect.books E (List.mem_of_getElem? hE)
  rw [hrf] at ht ⊢
  rcases Raft.requestVote_cases (s.rafts v) args with ⟨_, e'⟩ | ⟨hle, hm, e'⟩ | ⟨hle, _, e'⟩ <;>
    rw [e'] at ht ⊢
  · exact hst
  · exfalso
    have hargs : args.term = (s.rafts v).currentTerm := by
      simpa [Raft.catchUp_currentTerm hle] using ht
    rcases (s.rafts v).catchUp_cases args.term with ⟨hlt, _⟩ | ⟨_, hc⟩
    · omega
    · simp only [Raft.mayVote, hc, hB.voted hl, decide_eq_true_eq, Option.some.injEq] at hm
      rcases hm.1 with hm | hm
      · cases hm
      · rw [hok.asks v args (by rw [hcall]; rfl)] at hm
        exact (hok.asked (by simp [hcall])).1 hm
  · rcases (s.rafts v).catchUp_cases args.term with ⟨hlt, hc⟩ | ⟨_, hc⟩
    · rw [hc] at ht
      simp only [Raft.stepDown_currentTerm] at ht
      omega
    · rw [hc]
      exact hst

/-- A leader accepts no request within its term: only it could have sent one. -/
theorem handleAppend_keeps_lead {s s' : Cluster n C} {v : Fin n} {k grow : Nat}
    {lg : List (LogEntry C)} (h : s.handleAppend k v grow = some s') (hB : Booked s)
    (hst : (s.rafts v).state = .leader)
    (hl : Event.lead v (s.rafts v).currentTerm lg ∈ s.hist)
    (ht : (s'.rafts v).currentTerm = (s.rafts v).currentTerm) : (s'.rafts v).state = .leader := by
  obtain ⟨B, args, next, reply, spawn, hk, hcall, hr⟩ := handleAppend_raft h
  have hne := hB.no_request hl hk (by rw [hcall]; rfl)
  rcases Raft.appendEntries_cases hr with ⟨_, e, _⟩ | ⟨hle, _, ha, _⟩ | ⟨hle, _, e, _⟩
  · rw [e]
    exact hst
  · exfalso
    rw [(Raft.acceptEntries_vote ha).1, Raft.catchUp_currentTerm hle] at ht
    exact hne ht
  · rw [e, Raft.catchUp_currentTerm hle] at ht
    exact absurd ht hne

/-- **Whoever leads leads on**, as long as it stays in its term and does not crash. -/
theorem keeps_lead {s s' : Cluster n C} {a : Action n C} (h : s.step a = some s')
    (hg : s.termGuard a = true) (hB : Booked s) {v : Fin n} {lg : List (LogEntry C)}
    (hst : (s.rafts v).state = .leader)
    (hl : Event.lead v (s.rafts v).currentTerm lg ∈ s.hist)
    (ht : (s'.rafts v).currentTerm = (s.rafts v).currentTerm) :
    (s'.rafts v).state = .leader ∨ ∃ grow, a = .restart v grow := by
  obtain ⟨w, evs, hA⟩ := step_acts h
  by_cases hvw : v = w
  · subst hvw
    rcases hA.change with hc | ⟨t', hf, _, e⟩
    · rcases hc.keeps_lead hst ht with hst' | hcr | ⟨e, rfl⟩ | ⟨k, grow, rfl⟩
      · exact Or.inl hst'
      · exact Or.inr hcr
      · exact Or.inl (handleVote_keeps_lead h hB hst hl ht)
      · exact Or.inl (handleAppend_keeps_lead h hB hst hl ht)
    · exfalso
      rw [e, Raft.stepDown_currentTerm] at ht
      rcases termGuard_fails hg hf with hlt | ⟨_, hn⟩
      · omega
      · rw [hB.voted hl] at hn
        cases hn
  · rw [hA.others v hvw]
    exact Or.inl hst

theorem tenure_step {s s' : Cluster n C} {a : Action n C} (h : s.step a = some s')
    (hg : s.termGuard a = true) (hB : Booked s) (hI : TenureInv s) : TenureInv s' := by
  intro v t lg hl
  obtain ⟨w, evs, hA⟩ := step_acts h
  have hle := (voteStep_step hg h hB.saved v).le
  rw [hA.hist] at hl ⊢
  rcases List.mem_append.mp hl with hnew | hold
  · -- the entry is new: `v` is leader now
    rcases hA.change with hc | ⟨_, _, rfl, _⟩
    · obtain ⟨rfl, ht, hst⟩ := hc.lead_now hnew
      exact ⟨ht.ge, fun _ => Or.inl hst⟩
    · exact absurd hnew List.not_mem_nil
  · obtain ⟨hle₀, hst⟩ := hI v t lg hold
    refine ⟨le_trans hle₀ hle, fun ht => ?_⟩
    have ht₀ : t = (s.rafts v).currentTerm := by omega
    subst ht₀
    rcases hst rfl with hst | hcr
    · rcases keeps_lead h hg hB hst hold ht.symm with hst' | ⟨grow, rfl⟩
      · exact Or.inl hst'
      · cases Option.some.inj h
        rw [hA.evs_one rfl]
        exact Or.inr List.mem_cons_self
    · exact Or.inr (List.mem_append_right _ hcr)

theorem tenure_reach {G : Cluster n C → Action n C → Prop}
    (hT : ∀ s a, G s a → s.termGuard a = true) (hV : ∀ s a, G s a → s.voteGuard a = true)
    {s : Cluster n C} (h : Reach step G (init n C) s) : TenureInv s := by
  induction h with
  | start => exact fun v t lg hl => absurd hl List.not_mem_nil
  | move s s' a hr hg hs ih => exact tenure_step hs (hT _ _ hg) (booked_reach hT hV hr) ih

/-- A candidate is not in term 0. -/
theorem candidate_pos {G : Cluster n C → Action n C → Prop} {s : Cluster n C}
    (h : Reach step G (init n C) s) (v : Fin n) (hv : (s.rafts v).state = .candidate) :
    0 < (s.rafts v).currentTerm := by
  refine rafts_inv (I := fun rf => rf.state = .candidate → 0 < rf.currentTerm) ?_ ?_ ?_ h v hv
  · exact fun hst => absurd hst (by rw [Raft.make_state]; nofun)
  · intro me a rf evs rf' ih hc hst
    rcases hc.role with hr | ⟨hr, ht⟩ | ⟨_, hlt, _⟩ | ⟨hr, _⟩
    · rw [hr] at hst
      cases hst
    · rw [ht]
      exact ih (hr ▸ hst)
    · omega
    · rw [hr] at hst
      cases hst
  · exact fun rf t _ hst => absurd hst (by rw [Raft.stepDown_state]; nofun)

/-- **A candidate has not led its term yet.** -/
theorem candidate_fresh {G : Cluster n C → Action n C → Prop}
    (hT : ∀ s a, G s a → s.termGuard a = true) (hV : ∀ s a, G s a → s.voteGuard a = true)
    {s : Cluster n C} (h : Reach step G (init n C) s) {v : Fin n} {lg : List (LogEntry C)}
    (hv : (s.rafts v).state = .candidate) :
    Event.lead v (s.rafts v).currentTerm lg ∉ s.hist := by
  induction h with
  | start => exact List.not_mem_nil
  | move s s' a hr hg hs ih =>
      obtain ⟨w, evs, hA⟩ := step_acts hs
      rw [hA.hist]
      intro hl
      rcases List.mem_append.mp hl with hnew | hold
      · rcases hA.change with hc | ⟨_, _, rfl, _⟩
        · obtain ⟨rfl, _, hst⟩ := hc.lead_now hnew
          rw [hst] at hv
          cases hv
        · exact absurd hnew List.not_mem_nil
      · by_cases hvw : v = w
        · subst hvw
          rcases hA.change with hc | ⟨t, _, _, e⟩
          · rcases hc.role with hst | ⟨hst, ht⟩ | ⟨_, hlt, _⟩ | ⟨hst, _⟩
            · rw [hst] at hv
              cases hv
            · rw [ht] at hold
              exact ih (hst ▸ hv) hold
            · have := (tenure_reach hT hV hr v _ lg hold).1
              omega
            · rw [hst] at hv
              cases hv
          · rw [e, Raft.stepDown_state] at hv
            cases hv
        · rw [hA.others v hvw] at hv hold
          exact ih hv hold

end Cluster

end Mit6824
