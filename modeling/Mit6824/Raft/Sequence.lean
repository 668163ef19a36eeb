/-
  File:      Mit6824/Raft/Sequence.lean
  Subject:   ONE SEQUENCE OF COMMANDS: what a service over Raft may rely on, without snapshots.

  State machine safety speaks about one index. Here is what the service sees: the commands that an
  instance of a server delivers carry the indexes 1, 2, 3, ...; and what any two instances have
  delivered, at any two moments, are beginnings of one another.

  * `deliveries`, `sequence` -- the commands of a channel, with and without their indexes;
  * `Raft.Numbered`, `numbered_reach` -- they are numbered from 1 up to `lastApplied`;
  * `delivered_appended` -- a delivered command is that of an entry `Start` appended, under its
    index; no guard is needed for that;
  * `one_sequence` -- **all instances deliver beginnings of one sequence.**
-/
import Mit6824.Raft.Origin
import Mit6824.Raft.Slots

namespace Mit6824

open Lib

variable {n : Nat} {C : Type}

/-! ## 1. The commands of a channel -/

/-- The command of a message and its index. -/
def ApplyMsg.carried : ApplyMsg C → Option (Option C × Nat)
  | ⟨true, .value c, i⟩ => some (c, i)
  | _ => none

def deliveries (ms : List (ApplyMsg C)) : List (Option C × Nat) := ms.filterMap ApplyMsg.carried

def sequence (ms : List (ApplyMsg C)) : List (Option C) := (deliveries ms).map (·.1)

theorem deliveries_append (ms ms' : List (ApplyMsg C)) :
    deliveries (ms ++ ms') = deliveries ms ++ deliveries ms' := List.filterMap_append

theorem sequence_append (ms ms' : List (ApplyMsg C)) :
    sequence (ms ++ ms') = sequence ms ++ sequence ms' := by
  unfold sequence
  rw [deliveries_append, List.map_append]

theorem carried_invalid {m : ApplyMsg C} (h : m.commandValid = false) : m.carried = none := by
  obtain ⟨valid, command, i⟩ := m
  cases h
  rfl

theorem deliveries_invalid {ms : List (ApplyMsg C)} (h : ∀ m ∈ ms, m.commandValid = false) :
    deliveries ms = [] :=
  List.filterMap_eq_nil_iff.mpr fun m hm => carried_invalid (h m hm)

theorem sequence_invalid {ms : List (ApplyMsg C)} (h : ∀ m ∈ ms, m.commandValid = false) :
    sequence ms = [] := by
  rw [sequence, deliveries_invalid h, List.map_nil]

theorem mem_of_deliveries {ms : List (ApplyMsg C)} {c : Option C} {i : Nat}
    (h : (c, i) ∈ deliveries ms) : ⟨true, .value c, i⟩ ∈ ms := by
  obtain ⟨m, hm, hc⟩ := List.mem_filterMap.mp h
  unfold ApplyMsg.carried at hc
  split at hc
  · cases hc
    exact hm
  · cases hc

/-- The commands stand in the order of their indexes, from 1 on. -/
def Counted (ms : List (ApplyMsg C)) : Prop := deliveries ms = (sequence ms).zipIdx 1

theorem Counted.get {ms : List (ApplyMsg C)} (h : Counted ms) {j : Nat} {c : Option C}
    (hc : (sequence ms)[j]? = some c) : ⟨true, .value c, j + 1⟩ ∈ ms := by
  refine mem_of_deliveries ?_
  rw [h]
  refine List.mem_of_getElem? (i := j) ?_
  rw [List.getElem?_zipIdx, hc]
  simp [Nat.add_comm]

/-- One more command, with the next index. -/
theorem Counted.concat {ms : List (ApplyMsg C)} (h : Counted ms) (c : Option C) :
    Counted (ms ++ [⟨true, .value c, (sequence ms).length + 1⟩]) := by
  unfold Counted at h ⊢
  rw [deliveries_append, sequence_append, List.zipIdx_append, h, Nat.add_comm]
  rfl

theorem Counted.quiet {ms ms' : List (ApplyMsg C)} (h : Counted ms)
    (hms : ∀ m ∈ ms', m.commandValid = false) : Counted (ms ++ ms') := by
  unfold Counted at h ⊢
  rw [deliveries_append, sequence_append, deliveries_invalid hms, sequence_invalid hms, List.append_nil,
    List.append_nil]
  exact h

/-! ## 2. One server -/

namespace Raft

variable {rf rf' : Raft n C}

/-- **The commands of the channel carry 1 up to `lastApplied`.** -/
structure Numbered (rf : Raft n C) : Prop where
  counted : Counted rf.applyChan
  length : (sequence rf.applyChan).length = rf.lastApplied

theorem Numbered.quiet (h : Numbered rf) (hq : Quiet rf rf') : Numbered rf' := by
  obtain ⟨ms, hc, hms⟩ := hq.sends
  have hinv : ∀ m ∈ ms, m.commandValid = false := fun m hm => by rw [hms m hm]; rfl
  refine ⟨by rw [hc]; exact h.counted.quiet hinv, ?_⟩
  rw [hc, sequence_append, sequence_invalid hinv, List.append_nil, hq.lastApplied]
  exact h.length

theorem Numbered.applyLoop {k : Nat} : ∀ {rf rf' : Raft n C}, Numbered rf →
    rf.applyLoop k = some rf' → Numbered rf' := by
  induction k with
  | zero =>
      intro rf rf' h hl
      cases Option.some.inj hl
      exact h
  | succ k ih =>
      intro rf rf' h hl
      unfold Raft.applyLoop at hl
      split at hl
      · cases hl
      · rename_i e _
        refine ih ⟨?_, ?_⟩ hl
        · have hc := h.counted.concat e.log
          rw [h.length] at hc
          exact hc
        · show (sequence (rf.applyChan ++ [_])).length = rf.lastApplied + 1
          rw [sequence_append, List.length_append, h.length]
          rfl

theorem handSnapshot_plain (hs : rf.snapshot.index = 0) : rf.handSnapshot = rf := by
  unfold handSnapshot
  rw [if_neg (by omega)]

/-- Without a snapshot `apply` sends commands only. -/
theorem apply_values (hs : rf.snapshot.index = 0) (h : rf.apply = some rf') :
    ∃ ms, rf'.applyChan = rf.applyChan ++ ms ∧ ∀ m ∈ ms, ∃ c, m.command = .value c := by
  rcases apply_cases h with ⟨hlt, _⟩ | ⟨_, ms, hms, rfl⟩
  · omega
  · rw [handSnapshot_plain hs]
    refine ⟨ms, rfl, fun m hm => ?_⟩
    obtain ⟨i, e, _, _, _, rfl⟩ := hms m hm
    exact ⟨e.log, rfl⟩

/-- Without a snapshot `Make` sends nothing. -/
theorem make_unsnapped (h : Saved rf) (hne : rf.log ≠ []) (hs : rf.snapshot.index = 0) (grow : Nat) :
    (make rf.persister grow).applyChan = [] := by
  obtain ⟨_, _, _, hsnap, _⟩ := make_saved h hne grow
  have hidx : (make rf.persister grow).snapshot.index = 0 := by rw [hsnap, hs]
  unfold make readPersist at hidx ⊢
  split at hidx
  · rfl
  · dsimp only at hidx ⊢
    split at hidx
    · rename_i hpos
      exact absurd hidx (Nat.ne_of_gt hpos)
    · rename_i hpos
      rw [if_neg hpos]
      rfl

/-- Every section of a server without a snapshot. -/
theorem numbered_step {me : Fin n} {sec : Turn n C} (hI : Numbered rf) (hr : Restores rf)
    (hs : rf.snapshot.index = 0) (h : rf.step me sec = some rf') : Numbered rf' := by
  by_cases ha : sec = .apply
  · subst ha
    have h' : rf.apply = some rf' := h
    unfold Raft.apply at h'
    rw [handSnapshot_plain hs, if_neg (by omega)] at h'
    exact hI.applyLoop h'
  · by_cases hc : ∃ g, sec = .crash g
    · obtain ⟨g, rfl⟩ := hc
      cases Option.some.inj h
      have hinv : ∀ m ∈ (make rf.persister g).applyChan, m.commandValid = false :=
        fun m hm => make_quiet m hm
      refine ⟨?_, ?_⟩
      · rw [Counted, deliveries_invalid hinv, sequence_invalid hinv]
        rfl
      · rw [(hr g).2, hs, sequence_invalid hinv]
        rfl
    · exact hI.quiet (quiet_step h ha fun g e => hc ⟨g, e⟩)

end Raft

/-! ## 3. All servers -/

namespace Cluster

theorem numbered_reach {G : Cluster n C → Action n C → Prop} (hG : ∀ s a, G s a → a.saves = false)
    {s : Cluster n C} (h : Reach step G (init n C) s) (v : Fin n) : (s.rafts v).Numbered := by
  induction h with
  | start =>
      have hr : (init n C).rafts v = Raft.fresh ⟨none, []⟩ 0 :=
        Raft.make_none (p := ⟨none, []⟩) rfl 0
      rw [hr]
      exact ⟨rfl, rfl⟩
  | move s s' a hr _ hs ih =>
      rcases turn_of_step hs v with e | ⟨sec, e⟩
      · rw [e]
        exact ih
      · exact Raft.numbered_step ih (Raft.restores_reach (reach_server hr v)).1
          ((unsnapped_reach hG hr).snap v) e

theorem everSent_mono {G : Cluster n C → Action n C → Prop} {s₁ s₂ : Cluster n C}
    (h : Reach step G s₁ s₂) {v : Fin n} {m : ApplyMsg C} (hm : m ∈ s₁.everSent v) :
    m ∈ s₂.everSent v := by
  induction h with
  | start => exact hm
  | move s s' a _ _ hs ih =>
      obtain ⟨ms, e, _⟩ := everSent_step hs v
      rw [e]
      exact List.mem_append_left _ ih

/-- In a run without snapshots an entry without a command is none that could be delivered. -/
theorem made_plain {G : Cluster n C → Action n C → Prop} (hG : ∀ s a, G s a → a.saves = false)
    {s : Cluster n C} (h : Reach step G (init n C) s) : Made (· = 0) s :=
  made_reach (F := (· = 0)) rfl (fun _ hr => (unsnapped_reach hG hr).sent) h

/-- **A delivered command is that of an entry `Start` appended, under the index of the entry.** -/
theorem delivered_appended {G : Cluster n C → Action n C → Prop}
    (hG : ∀ s a, G s a → a.saves = false) {s : Cluster n C} (h : Reach step G (init n C) s)
    {v : Fin n} {m : ApplyMsg C} (hm : m ∈ s.everSent v) (hv : m.commandValid = true) :
    ∃ e, Appended s.hist e ∧ m = ⟨true, .value e.log, e.index⟩ := by
  induction h with
  | start =>
      have hr : (init n C).rafts v = Raft.fresh ⟨none, []⟩ 0 :=
        Raft.make_none (p := ⟨none, []⟩) rfl 0
      rw [show (init n C).everSent v = [] by rw [everSent, hr]; rfl] at hm
      cases hm
  | move s s' a hr _ hs ih =>
      obtain ⟨evs, hh⟩ := hist_step hs
      have hsub : ∀ ev ∈ s.hist, ev ∈ s'.hist := fun ev hev => by
        rw [hh]
        exact List.mem_append_right _ hev
      obtain ⟨ms, hsent, hms⟩ := everSent_step hs v
      rw [hsent] at hm
      rcases List.mem_append.mp hm with hm | hm
      · obtain ⟨e, ⟨u, st, i, t, he⟩, rfl⟩ := ih hm
        exact ⟨e, ⟨u, st, i, t, hsub _ he⟩, rfl⟩
      · -- the entry stands in the log, at a place above the first one
        obtain ⟨i, e, hpos, he, rfl⟩ := hms m hm hv
        have hsnap := (unsnapped_reach hG hr).snap v
        rw [(s.rafts v).getLogByIndexUnLock_of_le (by omega), hsnap, Nat.sub_zero] at he
        have hi : e.index = i := by
          rw [((slotted_reach hG hr).aligned v).run i e he, hsnap, Nat.zero_add]
        rcases (made_plain hG hr).held v e (Raft.mem_arrays_of_log
          (List.mem_append_left _ (List.mem_of_getElem? he))) with ⟨u, st, j, t, ha⟩ | ⟨_, h0⟩
        · exact ⟨e, ⟨u, st, j, t, hsub _ ha⟩, by rw [hi]⟩
        · omega

/-- One index, one command, at any two moments of a run. -/
theorem delivered_same {s₁ s₂ : Cluster n C} (h₁ : Reach step IntactStep (init n C) s₁)
    (h₂ : Reach step IntactStep s₁ s₂) {v w : Fin n} {c c' : Option C} {i : Nat}
    (hm : ⟨true, .value c, i⟩ ∈ s₁.everSent v) (hm' : ⟨true, .value c', i⟩ ∈ s₂.everSent w) :
    c = c' := by
  obtain ⟨b, _, hS⟩ := onBoard_intact .start (h₁.trans h₂) onBoard_init
  exact delivered_unique hS.good (delivered_everSent hS (everSent_mono h₂ hm))
    (delivered_everSent hS hm')

theorem sequence_agrees {s₁ s₂ : Cluster n C} (h₁ : Reach step IntactStep (init n C) s₁)
    (h₂ : Reach step IntactStep s₁ s₂) (v w : Fin n) (j : Nat) (c c' : Option C)
    (hc : (sequence (s₁.rafts v).applyChan)[j]? = some c)
    (hc' : (sequence (s₂.rafts w).applyChan)[j]? = some c') : c = c' := by
  have hplain : ∀ (s : Cluster n C) (a : Action n C), IntactStep s a → a.saves = false :=
    fun _ _ hg => hg.plain
  exact delivered_same h₁ h₂
    (List.mem_append_right _ ((numbered_reach hplain h₁ v).counted.get hc))
    (List.mem_append_right _ ((numbered_reach hplain (h₁.trans h₂) w).counted.get hc'))

/-- **One sequence**: what any two servers have delivered, at any two moments of a run without
    snapshots whose steps meet the four guards and send requests as they were built, are beginnings
    of one another, crashes and restarts between them or not; and the commands carry the indexes
    1, 2, 3, ... -/
theorem one_sequence {s₁ s₂ : Cluster n C} (h₁ : Reach step IntactStep (init n C) s₁)
    (h₂ : Reach step IntactStep s₁ s₂) (v w : Fin n) :
    (sequence (s₁.rafts v).applyChan <+: sequence (s₂.rafts w).applyChan ∨
      sequence (s₂.rafts w).applyChan <+: sequence (s₁.rafts v).applyChan) ∧
    deliveries (s₂.rafts w).applyChan = (sequence (s₂.rafts w).applyChan).zipIdx 1 :=
  ⟨begins_or_begins (sequence_agrees h₁ h₂ v w),
    (numbered_reach (fun _ _ hg => hg.plain) (h₁.trans h₂) w).counted⟩

/-- Server 0 delivers its command, crashes and starts anew; then server 1 delivers it. -/
theorem one_sequence_restarted : ∃ s₁ s₂ : Cluster 3 Nat,
    sequence (s₁.rafts 0).applyChan = [some 7] ∧ sequence (s₂.rafts 0).applyChan = [] ∧
    sequence (s₂.rafts 1).applyChan = [some 7] ∧
    (sequence (s₁.rafts 0).applyChan <+: sequence (s₂.rafts 1).applyChan ∨
      sequence (s₂.rafts 1).applyChan <+: sequence (s₁.rafts 0).applyChan) := by
  have run : (exec step intactGuard (init 3 Nat)
      (oneDelivery.take (oneDelivery.length - 1))).any
      (fun s₁ => (exec step intactGuard s₁ [.restart 0 0, .apply 1]).any fun s₂ =>
          decide (sequence (s₁.rafts 0).applyChan = [some 7] ∧
            sequence (s₂.rafts 0).applyChan = [] ∧
            sequence (s₂.rafts 1).applyChan = [some 7])) = true := by decide +kernel
  obtain ⟨s₁, h₁, run⟩ := exists_of_exec run
  obtain ⟨s₂, h₂, run⟩ := exists_of_exec run
  obtain ⟨e₁, e₂, e₃⟩ := of_decide_eq_true run
  exact ⟨s₁, s₂, e₁, e₂, e₃, (one_sequence (h₁.mono fun _ _ => intact_of_guard)
    (h₂.mono fun _ _ => intact_of_guard) 0 1).1⟩

end Cluster

end Mit6824
