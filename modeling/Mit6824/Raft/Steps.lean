/-
  File:      Mit6824/Raft/Steps.lean
  Subject:   WHAT A STEP OF THE CLUSTER CAN DO: one lemma per section that has a case to fail,
             saying when it runs and which cluster it leaves. Every invariant is derived from
             these; no later file unfolds a section.
-/
import Mit6824.Lib.Runs
import Mit6824.Lib.TermLog
import Mit6824.Raft.Cluster
import Mit6824.Raft.Frames

namespace Mit6824

variable {n : Nat} {C : Type}

namespace Cluster

/-! ## 1. The parts of a cluster after an update -/

section Parts

variable (s : Cluster n C) (v u : Fin n) (rf : Raft n C) (k : Nat) (B : Cast n C)
  (p : PeerCall n C) (ev : Event n C)

@[simp] theorem setRaft_rafts : (s.setRaft v rf).rafts = Function.update s.rafts v rf := rfl
@[simp] theorem setPeer_rafts : (s.setPeer k B u p).rafts = s.rafts := rfl
@[simp] theorem setPeer_casts : (s.setPeer k B u p).casts =
    s.casts.set k { B with peer := Function.update B.peer u p } := rfl
@[simp] theorem record_rafts : (s.record ev).rafts = s.rafts := rfl
@[simp] theorem spawnApply_rafts : (s.spawnApply v).rafts = s.rafts := rfl

end Parts

/-! ## 2. When a section runs, and what it leaves -/

section Inversion

variable {s s' : Cluster n C} {e k : Nat} {u v : Fin n}

theorem voteArgs_inv (h : s.voteArgs e = some s') :
    ∃ (E : Election n) (hn : E.next < n), s.elections[e]? = some E ∧ E.alive = true ∧
      s' = { s with
        elections := s.elections.set e
          { E with
            next := E.next + 1
            call := if (⟨E.next, hn⟩ : Fin n) = E.owner then E.call
              else Function.update E.call ⟨E.next, hn⟩
                (.sent ((s.rafts E.owner).voteArgs E.owner)) } } := by
  unfold voteArgs at h
  split at h
  · cases h
  · rename_i E hE
    split at h
    · rename_i hc
      exact ⟨E, hc.2, hE, hc.1, (Option.some.inj h).symm⟩
    · cases h

theorem handleVote_inv (h : s.handleVote e u = some s') :
    ∃ E args, s.elections[e]? = some E ∧ E.call u = .sent args ∧
      s' = (if ((s.rafts u).requestVote args).2.voteGranted then
          ((s.setRaft u ((s.rafts u).requestVote args).1).setCall e E u
            (.replied args ((s.rafts u).requestVote args).2)).record
            (.vote u args.candidateId ((s.rafts u).requestVote args).2.term)
        else (s.setRaft u ((s.rafts u).requestVote args).1).setCall e E u
          (.replied args ((s.rafts u).requestVote args).2)) := by
  unfold handleVote at h
  split at h
  · cases h
  · rename_i E hE
    split at h
    · rename_i args hc
      exact ⟨E, args, hE, hc, (Option.some.inj h).symm⟩
    · cases h

theorem voteCheck_inv (h : s.voteCheck e u = some s') :
    ∃ E args reply, s.elections[e]? = some E ∧ E.alive = true ∧ E.call u = .replied args reply ∧
      s' = s.setCall e E u
        (if (s.rafts E.owner).currentTerm = args.term then .checked args reply else .done) := by
  unfold voteCheck at h
  split at h
  · cases h
  · rename_i E hE
    split at h
    · rename_i args reply ha hc
      exact ⟨E, args, reply, hE, ha, hc, (Option.some.inj h).symm⟩
    · cases h

/-- The section after the check: the vote is counted and wins, is counted, or was refused. -/
theorem voteReply_inv (h : s.voteReply e u = some s') :
    ∃ E args reply, s.elections[e]? = some E ∧ E.alive = true ∧ E.call u = .checked args reply ∧
      ((reply.voteGranted = true ∧ s.winsVote E = true ∧
          s' = ((s.setCall e { E with nVotes := E.nVotes + 1 } u (.counted args)).setRaft E.owner
            ((s.rafts E.owner).becomeLeader E.owner)).record
              (.lead E.owner (s.rafts E.owner).currentTerm (s.rafts E.owner).log)) ∨
        (reply.voteGranted = true ∧ s.winsVote E = false ∧
          s' = s.setCall e { E with nVotes := E.nVotes + 1 } u (.counted args)) ∨
        (reply.voteGranted = false ∧ (s.rafts E.owner).currentTerm < reply.term ∧
          s' = (s.setCall e E u .done).setRaft E.owner
            ((s.rafts E.owner).stepDown reply.term)) ∨
        (reply.voteGranted = false ∧ s' = s.setCall e E u .done)) := by
  unfold voteReply at h
  split at h
  · cases h
  · rename_i E hE
    split at h
    · rename_i args reply ha hc
      refine ⟨E, args, reply, hE, ha, hc, ?_⟩
      dsimp only at h
      split at h
      · rename_i hg
        split at h
        · rename_i hw
          exact Or.inl ⟨hg, hw, (Option.some.inj h).symm⟩
        · rename_i hw
          exact Or.inr (Or.inl ⟨hg, by simpa using hw, (Option.some.inj h).symm⟩)
      · rename_i hg
        have hg' : reply.voteGranted = false := by simpa using hg
        have h' := (Option.some.inj h).symm
        split at h'
        · rename_i ht
          exact Or.inr (Or.inr (Or.inl ⟨hg', ht, h'⟩))
        · exact Or.inr (Or.inr (Or.inr ⟨hg', h'⟩))
    · cases h

theorem startAppend_inv {grow : Nat} (h : s.startAppend k grow = some s') :
    ∃ S, s.starts[k]? = some S ∧ S.alive = true ∧
      s' = { (s.setRaft S.owner ((s.rafts S.owner).startLog S.command grow)).record
          (.append S.owner (s.rafts S.owner).state ((s.rafts S.owner).newEntry S.command)
            ((s.rafts S.owner).newEntry S.command).index S.term) with
        starts := s.starts.set k { S with alive := false } }.spawnCast S.owner
          ((s.rafts S.owner).newEntry S.command).index := by
  unfold startAppend at h
  split at h
  · cases h
  · rename_i S hS
    split at h
    · rename_i ha
      exact ⟨S, hS, ha, (Option.some.inj h).symm⟩
    · cases h

theorem beatSend_inv (h : s.beatSend k = some s') :
    ∃ b, s.beats[k]? = some b ∧ b.alive = true ∧
      s' = { s with beats := s.beats.set k { b with alive := false } }.spawnCast b.owner
        (s.rafts b.owner).getLastLogUnLock.index := by
  unfold beatSend at h
  split at h
  · cases h
  · rename_i b hb
    split at h
    · rename_i ha
      exact ⟨b, hb, ha, (Option.some.inj h).symm⟩
    · cases h

theorem castState_inv (h : s.castState k = some s') :
    ∃ B, s.casts[k]? = some B ∧ B.alive = true ∧ B.stage = .spawned ∧
      s' = { s with
        casts := s.casts.set k
          { B with
            stage := if (s.rafts B.owner).state = .leader then .sawLeader else .ended } } := by
  unfold castState at h
  split at h
  · cases h
  · rename_i B hB
    split at h
    · rename_i hc
      exact ⟨B, hB, hc.1, hc.2, (Option.some.inj h).symm⟩
    · cases h

theorem castTerm_inv (h : s.castTerm k = some s') :
    ∃ B, s.casts[k]? = some B ∧ B.alive = true ∧ B.stage = .sawLeader ∧
      s' = { s with
        casts := s.casts.set k
          (if (s.rafts B.owner).currentTerm = B.term then
            { B with stage := .running, peer := fun i => if i = B.owner then .idle else .retry }
          else { B with stage := .ended }) } := by
  unfold castTerm at h
  split at h
  · cases h
  · rename_i B hB
    split at h
    · rename_i hc
      exact ⟨B, hB, hc.1, hc.2, (Option.some.inj h).symm⟩
    · cases h

theorem peerState_inv (h : s.peerState k u = some s') :
    ∃ B, s.casts[k]? = some B ∧ B.alive = true ∧ B.peer u = .retry ∧
      s' = s.setPeer k B u (if (s.rafts B.owner).state = .leader then .ready else .done) := by
  unfold peerState at h
  split at h
  · cases h
  · rename_i B hB
    split at h
    · rename_i ha hc
      exact ⟨B, hB, ha, hc, (Option.some.inj h).symm⟩
    · cases h

/-- Either the goroutine gives up, or it has what `appendArgs` builds. -/
theorem peerArgs_inv (h : s.peerArgs k u = some s') :
    ∃ B, s.casts[k]? = some B ∧ B.alive = true ∧ B.peer u = .ready ∧
      (s' = s.setPeer k B u .done ∨
        ∃ args, (s.rafts B.owner).currentTerm = B.term ∧
          (s.rafts B.owner).lastApplied ≤ B.index ∧
          (s.rafts B.owner).appendArgs B.owner ((s.rafts B.owner).nextIndex u) B.index B.term
            B.commitIndex = some args ∧
          s' = s.setPeer k B u (.built args ((s.rafts B.owner).nextIndex u)
            ((s.rafts B.owner).entriesSlice ((s.rafts B.owner).nextIndex u)) [])) := by
  unfold peerArgs at h
  split at h
  · cases h
  · rename_i B hB
    split at h
    · rename_i ha hc
      refine ⟨B, hB, ha, hc, ?_⟩
      dsimp only at h
      split at h
      · exact Or.inl (Option.some.inj h).symm
      · rename_i hno
        split at h
        · cases h
        · rename_i args hargs
          refine Or.inr ⟨args, ?_, ?_, hargs, (Option.some.inj h).symm⟩
          · by_contra hne; exact hno (Or.inl hne)
          · by_contra hlt; exact hno (Or.inr (by omega))
    · cases h

/-- Either there is more to read, or the request goes out with what was read. -/
theorem encode_inv {m : Nat} (h : s.encode k u m = some s') :
    ∃ B args next slice encoded, s.casts[k]? = some B ∧ B.alive = true ∧
      B.peer u = .built args next slice encoded ∧
      ((encoded.length + m < args.entries.length ∧
          s' = s.setPeer k B u (.built args next slice
            ((s.rafts B.owner).readOn slice args.entries.length m encoded))) ∨
        (args.entries.length ≤ encoded.length + m ∧
          s' = (s.setPeer k B u (.sent { args with
              entries := (s.rafts B.owner).readOn slice args.entries.length m encoded }
              next)).record
            (.send B.owner u { args with
              entries := (s.rafts B.owner).readOn slice args.entries.length m encoded }))) := by
  unfold encode at h
  split at h
  · cases h
  · rename_i B hB
    split at h
    · rename_i args next slice encoded ha hc
      refine ⟨B, args, next, slice, encoded, hB, ha, hc, ?_⟩
      dsimp only at h
      split at h
      · rename_i hlt
        exact Or.inl ⟨hlt, (Option.some.inj h).symm⟩
      · rename_i hge
        exact Or.inr ⟨Nat.le_of_not_lt hge, (Option.some.inj h).symm⟩
    · cases h

theorem handleAppend_inv {grow : Nat} (h : s.handleAppend k u grow = some s') :
    ∃ B args next rf reply spawn, s.casts[k]? = some B ∧ B.peer u = .sent args next ∧
      (s.rafts u).appendEntries args grow = some (rf, reply, spawn) ∧
      s' = (if spawn then
          (if reply.success then
            ((s.setRaft u rf).setPeer k B u (.replied args next reply)).record
              (.ack u reply.term rf.log)
          else (s.setRaft u rf).setPeer k B u (.replied args next reply)).spawnApply u
        else if reply.success then
          ((s.setRaft u rf).setPeer k B u (.replied args next reply)).record
            (.ack u reply.term rf.log)
        else (s.setRaft u rf).setPeer k B u (.replied args next reply)) := by
  unfold handleAppend at h
  split at h
  · cases h
  · rename_i B hB
    split at h
    · rename_i args next hc
      split at h
      · cases h
      · rename_i rf reply spawn hr
        exact ⟨B, args, next, rf, reply, spawn, hB, hc, hr, (Option.some.inj h).symm⟩
    · cases h

/-- The server whose handler it is, alone. -/
theorem handleAppend_raft {grow : Nat} (h : s.handleAppend k u grow = some s') :
    ∃ B args next reply spawn, s.casts[k]? = some B ∧ B.peer u = .sent args next ∧
      (s.rafts u).appendEntries args grow = some (s'.rafts u, reply, spawn) := by
  obtain ⟨B, args, next, rf, reply, spawn, hB, hc, hr, hs'⟩ := handleAppend_inv h
  have hrf : s'.rafts u = rf := by
    rw [hs']
    split <;> split <;> exact Function.update_self _ _ _
  exact ⟨B, args, next, reply, spawn, hB, hc, by rw [hrf]; exact hr⟩

theorem peerCheck_inv (h : s.peerCheck k u = some s') :
    ∃ B args next reply, s.casts[k]? = some B ∧ B.alive = true ∧
      B.peer u = .replied args next reply ∧
      s' = s.setPeer k B u
        (if (s.rafts B.owner).currentTerm = args.term then .checked args next reply else .done) := by
  unfold peerCheck at h
  split at h
  · cases h
  · rename_i B hB
    split at h
    · rename_i args next reply ha hc
      exact ⟨B, args, next, reply, hB, ha, hc, (Option.some.inj h).symm⟩
    · cases h

/-- The section after the check: a later term, another `nextIndex`, or an acknowledgement that is
    counted, with or without a commit. -/
theorem peerReply_inv (h : s.peerReply k u = some s') :
    ∃ B args next reply, s.casts[k]? = some B ∧ B.alive = true ∧
      B.peer u = .checked args next reply ∧
      ((reply.success = false ∧ args.term < reply.term ∧
          s' = (s.setRaft B.owner ((s.rafts B.owner).stepDown reply.term)).setPeer k B u .done) ∨
        (reply.success = false ∧ ¬ args.term < reply.term ∧ ∃ next',
          (s.rafts B.owner).getNextIndex reply next = some next' ∧
          s' = (s.setRaft B.owner { s.rafts B.owner with
            nextIndex := Function.update (s.rafts B.owner).nextIndex u next' }).setPeer
              k B u .retry) ∨
        (reply.success = true ∧
          s' = (s.setRaft B.owner ((s.rafts B.owner).matched u B.index)).setPeer k
            { B with nReplica := B.nReplica + 1, isAgree := B.isAgree || s.agrees B } u
            (.counted args)) ∨
        (reply.success = true ∧ s.agrees B = true ∧ (s.rafts B.owner).commitIndex < B.index ∧
          (∃ x, (s.rafts B.owner).getLogByIndexUnLock B.index = some x ∧
            x.term = (s.rafts B.owner).currentTerm) ∧
          s' = ((((s.setRaft B.owner ((s.rafts B.owner).matched u B.index)).setPeer k
            { B with nReplica := B.nReplica + 1, isAgree := B.isAgree || s.agrees B } u
            (.counted args)).setRaft B.owner
              { (s.rafts B.owner).matched u B.index with commitIndex := B.index }).spawnApply
                B.owner).record
              (.commit B.owner (s.rafts B.owner).currentTerm B.index (s.rafts B.owner).log))) := by
  unfold peerReply at h
  split at h
  · cases h
  · rename_i B hB
    split at h
    · rename_i args next reply ha hc
      refine ⟨B, args, next, reply, hB, ha, hc, ?_⟩
      split at h
      · rename_i hsucc
        unfold peerCount at h
        dsimp only at h
        split at h
        · rename_i hag
          split at h
          · cases h
          · rename_i x hx
            split at h
            · rename_i hxt
              rw [Raft.matched_currentTerm] at hxt
              rw [Raft.matched_getLogByIndexUnLock] at hx
              rw [Raft.matched_commitIndex] at hag
              exact Or.inr (Or.inr (Or.inr ⟨hsucc, hag.1, hag.2, ⟨x, hx, hxt⟩,
                (Option.some.inj h).symm⟩))
            · exact Or.inr (Or.inr (Or.inl ⟨hsucc, (Option.some.inj h).symm⟩))
        · exact Or.inr (Or.inr (Or.inl ⟨hsucc, (Option.some.inj h).symm⟩))
      · rename_i hsucc
        have hf : reply.success = false := by simpa using hsucc
        unfold peerFail at h
        dsimp only at h
        split at h
        · rename_i ht
          exact Or.inl ⟨hf, ht, (Option.some.inj h).symm⟩
        · rename_i ht
          split at h
          · cases h
          · rename_i next' hn
            exact Or.inr (Or.inl ⟨hf, ht, next', hn, (Option.some.inj h).symm⟩)
    · cases h

theorem apply_inv (h : s.apply v = some s') :
    ∃ rf, (s.rafts v).apply = some rf ∧
      s' = { s.setRaft v rf with applies := Function.update s.applies v (s.applies v - 1) } := by
  unfold apply at h
  split at h
  · obtain ⟨rf, hrf, h⟩ := Option.map_eq_some_iff.mp h
    exact ⟨rf, hrf, h.symm⟩
  · cases h

theorem saveSnapshot_inv {index : Nat} {storage : List UInt8}
    (h : s.saveSnapshot v index storage = some s') :
    ∃ rf, index ≤ (s.rafts v).lastApplied ∧ (s.rafts v).saveSnapshot index storage = some rf ∧
      s' = s.setRaft v rf := by
  unfold saveSnapshot at h
  split at h
  · rename_i hle
    obtain ⟨rf, hrf, h⟩ := Option.map_eq_some_iff.mp h
    exact ⟨rf, hle, hrf, h.symm⟩
  · cases h

end Inversion

/-! ## 3. Which goroutines a section touches -/

end Cluster

/-- The sections of `startOneElection` and of the calls it makes, and crashes. -/
def Action.elects : Action n C → Bool
  | .startOneElection _ | .voteArgs _ | .handleVote _ _ | .voteCheck _ _ | .voteReply _ _
  | .restart _ _ => true
  | _ => false

/-- The sections of `Start`, and crashes. -/
def Action.starts : Action n C → Bool
  | .startState _ _ | .startAppend _ _ | .restart _ _ => true
  | _ => false

/-- The sections that begin a `broadcastAppendEntries` or belong to one, and crashes. -/
def Action.casts : Action n C → Bool
  | .startAppend _ _ | .beatSend _ | .castState _ | .castTerm _ | .peerState _ _ | .peerArgs _ _
  | .encode _ _ _ | .handleAppend _ _ _ | .peerCheck _ _ | .peerReply _ _ | .restart _ _ => true
  | _ => false

namespace Cluster

/-- What all goroutines of a kind meet, when one of them moves on. -/
theorem forall_mem_set {α : Type} {P : α → Prop} {l : List α} {k : Nat} {x : α}
    (hl : ∀ y ∈ l, P y) (hx : P x) : ∀ y ∈ l.set k x, P y := by
  intro y hy
  rcases List.mem_or_eq_of_mem_set hy with hy | rfl
  · exact hl y hy
  · exact hx

/-- What goroutine `k` meets when it moves on, and every other one keeps. -/
theorem forall_get_set {α : Type} {P : Nat → α → Prop} {l : List α} {k : Nat} {x : α}
    (hl : ∀ i y, i ≠ k → l[i]? = some y → P i y) (hx : P k x) :
    ∀ i y, (l.set k x)[i]? = some y → P i y := by
  intro i y hy
  by_cases hi : i = k
  · subst hi
    obtain ⟨hlt, _⟩ := List.getElem?_eq_some_iff.mp hy
    rw [List.getElem?_set_self (by simpa using hlt)] at hy
    cases hy
    exact hx
  · rw [List.getElem?_set_ne (fun e => hi e.symm)] at hy
    exact hl i y hi hy

theorem forall_get_concat {α : Type} {P : Nat → α → Prop} {l : List α} {x : α}
    (hl : ∀ i y, l[i]? = some y → P i y) (hx : P l.length x) :
    ∀ i y, (l ++ [x])[i]? = some y → P i y := by
  intro i y hy
  rcases Lib.get_concat hy with hy | ⟨rfl, rfl⟩
  · exact hl i y hy
  · exact hx

/-- A section that is not of a kind leaves the goroutines of that kind alone. -/
structure Frame (s : Cluster n C) (a : Action n C) (s' : Cluster n C) : Prop where
  elections : a.elects = false → s'.elections = s.elections
  starts : a.starts = false → s'.starts = s.starts
  casts : a.casts = false → s'.casts = s.casts

theorem step_frame {s s' : Cluster n C} {a : Action n C} (h : s.step a = some s') :
    Frame s a s' := by
  cases a with
  | startOneElection w =>
      cases Option.some.inj h
      exact ⟨nofun, fun _ => rfl, fun _ => rfl⟩
  | voteArgs e =>
      obtain ⟨E, hn, _, _, rfl⟩ := voteArgs_inv h
      exact ⟨nofun, fun _ => rfl, fun _ => rfl⟩
  | handleVote e u =>
      obtain ⟨E, args, _, _, rfl⟩ := handleVote_inv h
      refine ⟨nofun, fun _ => ?_, fun _ => ?_⟩ <;> split <;> rfl
  | voteCheck e u =>
      obtain ⟨E, args, reply, _, _, _, rfl⟩ := voteCheck_inv h
      exact ⟨nofun, fun _ => rfl, fun _ => rfl⟩
  | voteReply e u =>
      obtain ⟨E, args, reply, _, _, _, h⟩ := voteReply_inv h
      refine ⟨nofun, fun _ => ?_, fun _ => ?_⟩ <;>
        rcases h with ⟨_, _, rfl⟩ | ⟨_, _, rfl⟩ | ⟨_, _, rfl⟩ | ⟨_, rfl⟩ <;> rfl
  | startState w command =>
      cases Option.some.inj h
      refine ⟨fun _ => ?_, nofun, fun _ => ?_⟩ <;> unfold startState <;> split <;> rfl
  | startAppend k grow =>
      obtain ⟨S, _, _, rfl⟩ := startAppend_inv h
      exact ⟨fun _ => rfl, nofun, nofun⟩
  | beatState w =>
      cases Option.some.inj h
      refine ⟨fun _ => ?_, fun _ => ?_, fun _ => ?_⟩ <;> unfold beatState <;> split <;> rfl
  | beatSend k =>
      obtain ⟨b, _, _, rfl⟩ := beatSend_inv h
      exact ⟨fun _ => rfl, fun _ => rfl, nofun⟩
  | castState k =>
      obtain ⟨B, _, _, _, rfl⟩ := castState_inv h
      exact ⟨fun _ => rfl, fun _ => rfl, nofun⟩
  | castTerm k =>
      obtain ⟨B, _, _, _, rfl⟩ := castTerm_inv h
      exact ⟨fun _ => rfl, fun _ => rfl, nofun⟩
  | peerState k u =>
      obtain ⟨B, _, _, _, rfl⟩ := peerState_inv h
      exact ⟨fun _ => rfl, fun _ => rfl, nofun⟩
  | peerArgs k u =>
      obtain ⟨B, _, _, _, h⟩ := peerArgs_inv h
      rcases h with rfl | ⟨args, _, _, _, rfl⟩ <;> exact ⟨fun _ => rfl, fun _ => rfl, nofun⟩
  | encode k u m =>
      obtain ⟨B, args, next, slice, encoded, _, _, _, h⟩ := encode_inv h
      rcases h with ⟨_, rfl⟩ | ⟨_, rfl⟩ <;> exact ⟨fun _ => rfl, fun _ => rfl, nofun⟩
  | handleAppend k u grow =>
      obtain ⟨B, args, next, rf, reply, spawn, _, _, _, rfl⟩ := handleAppend_inv h
      refine ⟨fun _ => ?_, fun _ => ?_, nofun⟩ <;> split <;> split <;> rfl
  | peerCheck k u =>
      obtain ⟨B, args, next, reply, _, _, _, rfl⟩ := peerCheck_inv h
      exact ⟨fun _ => rfl, fun _ => rfl, nofun⟩
  | peerReply k u =>
      obtain ⟨B, args, next, reply, _, _, _, h⟩ := peerReply_inv h
      rcases h with ⟨_, _, rfl⟩ | ⟨_, _, next', _, rfl⟩ | ⟨_, rfl⟩ | ⟨_, _, _, _, rfl⟩ <;>
        exact ⟨fun _ => rfl, fun _ => rfl, nofun⟩
  | apply w =>
      obtain ⟨rf, _, rfl⟩ := apply_inv h
      exact ⟨fun _ => rfl, fun _ => rfl, fun _ => rfl⟩
  | saveSnapshot w index storage =>
      obtain ⟨rf, _, _, rfl⟩ := saveSnapshot_inv h
      exact ⟨fun _ => rfl, fun _ => rfl, fun _ => rfl⟩
  | restart w grow => exact ⟨nofun, nofun, nofun⟩

end Cluster

end Mit6824
