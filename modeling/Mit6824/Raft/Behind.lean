/-
  File:      Mit6824/Raft/Behind.lean
  Subject:   A PEER BEHIND THE LEADER'S SNAPSHOT (raft.go lines 420-445, 453-491, 519-608, 887-911).

  Below its snapshot the leader reads the term of the snapshot at every index. A peer whose log
  ends there compares its entries with that term, hints at runs of its own terms, and the leader
  looks for them where it has nothing left to look at.

  * `Raft.ClearTo`, `Backup.CanCatchUp` -- going down from `nextIndex`, or from the end of the peer's
    log, the first entry whose term is not above the snapshot's has the snapshot's term;
  * `behind_catches_up_iff` -- then, and only then, the goroutine comes to a `Success`, and the peer
    has the snapshot;
  * `WorksBehind.for_ever` -- in every other case it never ends: at an older term the hint leads the
    leader back to where it was; `Cluster.behind_rounds` -- the same as a run of a cluster;
  * `never_caught_up` -- a leader that starts where every leader starts.
-/
import Mit6824.Raft.Acknowledge
import Mit6824.Raft.Backup

namespace Mit6824

open Lib

variable {n : Nat} {C : Type}

/-! ## 1. The condition -/

/-- **Going down from `y`, the first entry whose term is between 1 and `t` has the term `t`**, or is
    entry 0. -/
def Raft.ClearTo (rf : Raft n C) (t y : Nat) : Prop :=
  ∀ i < y, rf.snapshot.index ≤ i ∧ 0 < i ∧
    (∀ k < y, i < k → rf.termOf k = 0 ∨ t < rf.termOf k) → rf.termOf i = 0 ∨ t ≤ rf.termOf i

instance (rf : Raft n C) (t y : Nat) : Decidable (rf.ClearTo t y) := Nat.decidableBallLT y _

/-- **The condition on leader and peer**: the first request after the peer's log is accepted, or the
    way down from there is clear. -/
def Backup.CanCatchUp (s : Backup n C) (next : Nat) : Prop :=
  (next = s.peer.getLastLogUnLock.index + 1 ∧
    s.peer.termOf s.peer.getLastLogUnLock.index = s.leader.snapshot.term) ∨
  s.peer.ClearTo s.leader.snapshot.term (min next s.peer.getLastLogUnLock.index)

instance (s : Backup n C) (next : Nat) : Decidable (s.CanCatchUp next) := instDecidableOr

namespace Raft

/-- Below a run of terms that do not matter the condition is the same. -/
theorem clearTo_iff {rf : Raft n C} {t i y : Nat} (hiy : i ≤ y)
    (hrun : ∀ k : Nat, i ≤ k → k < y → rf.termOf k = 0 ∨ t < rf.termOf k) :
    rf.ClearTo t y ↔ rf.ClearTo t i := by
  constructor
  · intro h j hj hs
    refine h j (by omega) ⟨hs.1, hs.2.1, fun k hky hjk => ?_⟩
    rcases Nat.lt_or_ge k i with hlt | hge
    · exact hs.2.2 k hlt hjk
    · exact hrun k hge hky
  · intro h j hj hs
    rcases Nat.lt_or_ge j i with hlt | hge
    · exact h j hlt ⟨hs.1, hs.2.1, fun k hki hjk => hs.2.2 k (by omega) hjk⟩
    · exact (hrun j hge hj).imp_right Nat.le_of_lt

/-- At an entry of the term itself it holds. -/
theorem clearTo_succ {rf : Raft n C} {t prev : Nat} (h : rf.termOf prev = t) :
    rf.ClearTo t (prev + 1) := by
  intro i hi hs
  rcases Nat.lt_or_ge i prev with hlt | hge
  · rcases hs.2.2 prev (Nat.lt_succ_self prev) hlt with h0 | hlt'
    · exact Or.inr (by omega)
    · omega
  · rw [show i = prev by omega]
    exact Or.inr h.ge

theorem clearTo_of_le {rf : Raft n C} {t y : Nat} (h : y ≤ rf.snapshot.index) : rf.ClearTo t y :=
  fun i hi hs => by omega

/-- At an entry of an older term it does not, unless it is the first. -/
theorem not_clearTo {rf : Raft n C} {t prev : Nat} (hs : rf.snapshot.index ≤ prev) (h0 : 0 < prev)
    (hc : rf.termOf prev ≠ 0) (ht : rf.termOf prev < t) : ¬ rf.ClearTo t (prev + 1) := by
  intro h
  rcases h prev (Nat.lt_succ_self prev) ⟨hs, h0, fun k hk hk' => by omega⟩ with hz | hle
  · exact hc hz
  · omega

/-- **A hint at the run of terms `i .. prev`**, none of them `t`: above `t` the leader skips the run
    and nothing is lost; below `t` it goes back to the entry after `i`, and the way down was not clear
    there and is not clear here. -/
theorem clearTo_hint {rf : Raft n C} {t prev i : Nat} (hs : rf.snapshot.index ≤ prev)
    (hi : i ≤ prev) (hrun : ∀ k : Nat, i ≤ k → k ≤ prev → rf.termOf k = rf.termOf prev)
    (hsi : rf.snapshot.index < i ∨ i = prev) (hne : rf.termOf prev ≠ t) {next : Nat}
    (hnext : next = if rf.termOf prev = 0 ∨ t < rf.termOf prev ∨ i = 0 then i else i + 1) :
    (rf.ClearTo t next ↔ rf.ClearTo t (prev + 1)) ∧ (rf.ClearTo t (prev + 1) → next ≤ prev) := by
  split at hnext
  · rename_i hskip
    subst hnext
    refine ⟨?_, fun _ => hi⟩
    rcases or_assoc.mpr hskip with hskip | rfl
    · refine (clearTo_iff (by omega) fun k hk hk' => ?_).symm
      rw [hrun k hk (by omega)]
      exact hskip
    · obtain rfl : prev = 0 := by omega
      exact ⟨fun _ j hj hs => by omega, fun _ => clearTo_of_le (Nat.zero_le _)⟩
  · rename_i holder
    subst hnext
    have hprev : ¬ rf.ClearTo t (prev + 1) :=
      not_clearTo hs (by omega) (fun h0 => holder (Or.inl h0)) (by omega)
    refine ⟨iff_of_false ?_ hprev, fun hclear => absurd hclear hprev⟩
    rw [← hrun i (le_refl i) hi] at holder hne
    exact not_clearTo (by omega) (by omega) (fun h0 => holder (Or.inl h0)) (by omega)

end Raft

namespace Backup

variable {s : Backup n C}

/-- Up to the end of the peer's log only the way down matters. -/
theorem canCatchUp_iff {y : Nat} (hy : y ≤ s.peer.getLastLogUnLock.index) :
    s.CanCatchUp y ↔ s.peer.ClearTo s.leader.snapshot.term y := by
  unfold CanCatchUp
  rw [Nat.min_eq_left hy]
  exact or_iff_right (by omega)

/-- Beyond it the request after the last entry, if any, makes the difference. -/
theorem canCatchUp_last {prev : Nat} (hlast : s.peer.getLastLogUnLock.index ≤ prev)
    (hne : prev ≤ s.peer.getLastLogUnLock.index → s.peer.termOf prev ≠ s.leader.snapshot.term) :
    s.CanCatchUp s.peer.getLastLogUnLock.index ↔ s.CanCatchUp (prev + 1) := by
  unfold CanCatchUp
  rw [Nat.min_self, Nat.min_eq_right (by omega)]
  refine or_congr_left ⟨fun hx => by omega, fun hx => ?_⟩
  obtain rfl : prev = s.peer.getLastLogUnLock.index := by omega
  exact absurd hx.2 (hne (le_refl _))

/-- A request that is accepted: the way down was clear. -/
theorem canCatchUp_of_accepted (hsnap : s.peer.snapshot.index ≤ s.peer.getLastLogUnLock.index)
    {next : Nat} (h : next ≤ s.peer.snapshot.index ∨ (next ≤ s.peer.getLastLogUnLock.index + 1 ∧
      s.peer.termOf ((next : Int) - 1) = s.leader.snapshot.term)) : s.CanCatchUp next := by
  rcases h with hbelow | ⟨hup, heq⟩
  · exact (canCatchUp_iff (by omega)).mpr (Raft.clearTo_of_le hbelow)
  · cases next with
    | zero => exact (canCatchUp_iff (Nat.zero_le _)).mpr (Raft.clearTo_of_le (Nat.zero_le _))
    | succ prev =>
        rw [show ((prev + 1 : Nat) : Int) - 1 = prev by omega] at heq
        rcases Nat.lt_or_ge prev s.peer.getLastLogUnLock.index with hlt | hge
        · exact (canCatchUp_iff hlt).mpr (Raft.clearTo_succ heq)
        · obtain rfl : prev = s.peer.getLastLogUnLock.index := by omega
          exact Or.inl ⟨rfl, heq⟩

end Backup

/-! ## 2. One round -/

section Behind

variable {B : Cast n C} {s : Backup n C} {u : Fin n}

/-- **The new `nextIndex`** for a hint about an entry below the leader's snapshot. -/
theorem AtWork.next_behind (h : AtWork B s) {prev i c : Nat} (hi : i ≤ prev)
    (hprev : prev < s.leader.snapshot.index) (hc : c ≠ s.leader.snapshot.term) :
    s.leader.getNextIndex ⟨B.term, false, i, c⟩ (prev + 1) =
      some (if c = 0 ∨ s.leader.snapshot.term < c ∨ i = 0 then i else i + 1) := by
  have hlast := h.leader.snap_le_last
  have hterm : ∀ k : Nat, k ≤ prev → s.leader.termOf k = s.leader.snapshot.term :=
    fun k hk => Raft.termOf_below (by omega)
  rcases h.leader.getNextIndex_spec ⟨B.term, false, i, c⟩ (Nat.lt_succ_of_le hi) (by omega) with
    ⟨hy, hwhy⟩ | ⟨hc0, hle, j, m, hy, hj, hji, hcase, hjm, hm, hall, _⟩
  · dsimp only at hy hwhy
    rw [hterm i hi] at hwhy
    rw [hy, if_pos]
    rcases hwhy with h0 | hlt | hmin
    · exact Or.inl h0
    · exact Or.inr (Or.inl hlt)
    · exact Or.inr (Or.inr (by omega))
  · dsimp only at hy hc0 hle hji hcase hall
    rw [hterm i hi] at hle
    -- the search finds nothing below the snapshot, and the first step up does not match
    have hj : j = i := by
      rcases hcase with ⟨hlt, _⟩ | hmin <;> omega
    have hmi : m = i := by
      by_contra hne
      exact hc ((hall m (by omega) (le_refl m)).symm.trans (hterm m (by omega)))
    rw [hy, hmi, if_neg]
    omega

/-- **One round behind the snapshot**: it succeeds, and then the way down was clear; or it goes on,
    and with the new `nextIndex` the way down is clear if and only if it was before, in which case the
    new one is smaller. -/
theorem AtWork.exchange_behind (h : AtWork B s)
    (hb : s.peer.getLastLogUnLock.index < s.leader.snapshot.index)
    (hn : s.leader.nextIndex u ≤ s.leader.getLastLogUnLock.index + 1) (grow : Nat) :
    (∃ peer, s.exchange B u grow = some (.inr (⟨s.leader, peer⟩, .success)) ∧
      peer.snapshot = s.leader.snapshot ∧ s.CanCatchUp (s.leader.nextIndex u)) ∨
    ∃ next, s.exchange B u grow = some (.inl (s.retry B u next)) ∧
      next ≤ s.leader.getLastLogUnLock.index + 1 ∧
      (s.CanCatchUp next ↔ s.CanCatchUp (s.leader.nextIndex u)) ∧
      (s.CanCatchUp (s.leader.nextIndex u) → next < s.leader.nextIndex u) := by
  have hsnap := h.peer.snap_le_last
  have hlead := h.leader.snap_le_last
  have hterm : ∀ {k : Int}, k ≤ s.peer.getLastLogUnLock.index →
      s.leader.termOf k = s.leader.snapshot.term := fun hk => Raft.termOf_below (by omega)
  rcases h.exchange hn grow with ⟨peer, hr, hsn, hacc⟩ | ⟨prev, i, c, hprev, hle, hne, hcf, hr⟩
  · refine Or.inl ⟨peer, hr, by rw [hsn, if_pos (by omega)], ?_⟩
    refine Backup.canCatchUp_of_accepted hsnap (hacc.imp_right fun hup => ⟨hup.1, ?_⟩)
    rw [hup.2]
    exact hterm (by omega)
  · have hne' : prev ≤ s.peer.getLastLogUnLock.index →
        s.peer.termOf prev ≠ s.leader.snapshot.term := by
      intro hup
      rw [← hterm (k := prev) (by omega)]
      exact hne hup
    refine Or.inr ?_
    rw [hprev]
    rcases h.peer.conflict_spec prev with ⟨hlast, hcf'⟩ | ⟨hlt, i', hcf', hi, hrun, hsi, _⟩
    · -- the peer's log ends before the request
      rw [hcf, Option.some.injEq, Prod.mk.injEq] at hcf'
      obtain ⟨rfl, rfl⟩ := hcf'
      exact ⟨s.peer.getLastLogUnLock.index, hr, by omega, Backup.canCatchUp_last hlast hne',
        fun _ => by omega⟩
    · rw [hcf, Option.some.injEq, Prod.mk.injEq] at hcf'
      obtain ⟨rfl, rfl⟩ := hcf'
      rw [h.next_behind hi (by omega) (hne' (by omega)), Option.map_some] at hr
      obtain ⟨hiff, hlower⟩ := Raft.clearTo_hint hle hi hrun hsi (hne' (by omega)) rfl
      refine ⟨_, hr, by split <;> omega, ?_, fun hclear => Nat.lt_succ_of_le (hlower ?_)⟩
      · rw [Backup.canCatchUp_iff (by split <;> omega), Backup.canCatchUp_iff (by omega)]
        exact hiff
      · exact (Backup.canCatchUp_iff (by omega)).mp hclear

/-- The condition is about the two logs. -/
theorem Backup.canCatchUp_retry (B : Cast n C) (u : Fin n) (s : Backup n C) (next y : Nat) :
    (s.retry B u next).CanCatchUp y ↔ s.CanCatchUp y := by
  have hl : (s.retry B u next).peer.log = s.peer.log := Raft.catchUp_log _ _
  have hs : (s.retry B u next).peer.snapshot = s.peer.snapshot := Raft.catchUp_snapshot _ _
  unfold Backup.CanCatchUp Raft.ClearTo
  simp only [Raft.getLastLogUnLock_congr hl hs, Raft.termOf_congr hl hs, hs]
  rfl

/-- What a goroutine with a peer behind the leader's snapshot keeps. -/
structure WorksBehind (B : Cast n C) (u : Fin n) (s : Backup n C) : Prop extends AtWork B s where
  behind : s.peer.getLastLogUnLock.index < s.leader.snapshot.index
  next_le : s.leader.nextIndex u ≤ s.leader.getLastLogUnLock.index + 1

theorem WorksBehind.retry (h : WorksBehind B u s) {next : Nat}
    (hn : next ≤ s.leader.getLastLogUnLock.index + 1) : WorksBehind B u (s.retry B u next) where
  toAtWork := h.toAtWork.retry u next
  behind := by
    have hl : (s.retry B u next).peer.log = s.peer.log := Raft.catchUp_log _ _
    have hs : (s.retry B u next).peer.snapshot = s.peer.snapshot := Raft.catchUp_snapshot _ _
    rw [Raft.getLastLogUnLock_congr hl hs]
    exact h.behind
  next_le := by
    show Function.update s.leader.nextIndex u next u ≤ _
    rw [Function.update_self]
    exact hn

/-! ## 3. The loop -/

/-- If the way down is clear, every round brings the goroutine further down, until there is a
    `Success`. -/
theorem WorksBehind.returns {leader peer : Raft n C} (h : WorksBehind B u ⟨leader, peer⟩)
    (hok : Backup.CanCatchUp ⟨leader, peer⟩ (leader.nextIndex u)) (grow : Nat) :
    ∃ k r, Returns (Backup.exchange B u grow) ⟨leader, peer⟩ k r ∧
      k ≤ leader.nextIndex u + 1 ∧ r.2 = .success ∧ r.1.peer.snapshot = leader.snapshot := by
  refine returns_of_weight (W := fun s w => WorksBehind B u s ∧
    s.leader.snapshot = leader.snapshot ∧ s.CanCatchUp w ∧ s.leader.nextIndex u = w) ?_
    ⟨h, rfl, hok, rfl⟩
  intro s w hW
  obtain ⟨hw, hsn, hok, rfl⟩ := hW
  rcases hw.exchange_behind hw.behind hw.next_le grow with
    ⟨peer', hr, hsn', _⟩ | ⟨next, hr, hn, hiff, hlt⟩
  · exact Or.inl ⟨_, hr, rfl, hsn'.trans hsn⟩
  · refine Or.inr ⟨_, next, hr, hlt hok, hw.retry hn, hsn, ?_, Function.update_self _ _ _⟩
    rw [Backup.canCatchUp_retry]
    exact hiff.mpr hok

/-- In every other case a round leads to a round of the same kind. -/
theorem WorksBehind.exchange_stuck (h : WorksBehind B u s)
    (hno : ¬ s.CanCatchUp (s.leader.nextIndex u)) (grow : Nat) :
    ∃ next, s.exchange B u grow = some (.inl (s.retry B u next)) ∧
      next ≤ s.leader.getLastLogUnLock.index + 1 ∧
      ¬ (s.retry B u next).CanCatchUp ((s.retry B u next).leader.nextIndex u) := by
  rcases h.exchange_behind h.behind h.next_le grow with
    ⟨_, _, _, hok⟩ | ⟨next, hr, hn, hiff, _⟩
  · exact absurd hok hno
  · refine ⟨next, hr, hn, ?_⟩
    have hnext : (s.retry B u next).leader.nextIndex u = next := Function.update_self _ _ _
    rw [Backup.canCatchUp_retry, hnext, hiff]
    exact hno

/-- So the goroutine goes on for ever. -/
theorem WorksBehind.for_ever (h : WorksBehind B u s)
    (hno : ¬ s.CanCatchUp (s.leader.nextIndex u)) (grow k : Nat) (r : Backup n C × Ending) :
    ¬ Returns (Backup.exchange B u grow) s k r := by
  refine not_returns_of_inv
    (I := fun s => WorksBehind B u s ∧ ¬ s.CanCatchUp (s.leader.nextIndex u))
    (fun s hI => ?_) ⟨h, hno⟩
  obtain ⟨hw, hno⟩ := hI
  obtain ⟨next, hr, hn, hno'⟩ := hw.exchange_stuck hno grow
  exact ⟨_, hr, hw.retry hn, hno'⟩

/-- **A follower behind the leader's snapshot catches up if and only if the way down is clear**: in
    at most `nextIndex + 1` rounds there is a `Success`, and the snapshot of the peer is the leader's.
    So it is with the goroutine, if its checks hold. -/
theorem behind_catches_up_iff {leader peer : Raft n C} (h : WorksBehind B u ⟨leader, peer⟩)
    (grow : Nat) : Backup.CanCatchUp ⟨leader, peer⟩ (leader.nextIndex u) ↔
    ∃ k s', Returns (Backup.exchange B u grow) ⟨leader, peer⟩ k (s', .success) ∧
      k ≤ leader.nextIndex u + 1 ∧ s'.peer.snapshot = leader.snapshot ∧
      (leader.lastApplied ≤ B.index →
        Returns (Backup.round B u grow) ⟨leader, peer⟩ k (s', .success)) := by
  constructor
  · intro hok
    obtain ⟨k, ⟨s', e⟩, hr, hk, he, hsn⟩ := h.returns hok grow
    obtain rfl : e = .success := he
    exact ⟨k, s', hr, hk, hsn, fun hla => Backup.Current.returns ⟨h.leads, h.term, hla⟩ hr⟩
  · rintro ⟨k, s', hr, _⟩
    by_contra hno
    exact h.for_ever hno grow k _ hr

/-- A deposed leader with two entries of a later term: the requests start at 7, 4 and 3. -/
theorem behind_catches_up_deposed : ∃ k s',
    Returns (Backup.round (castOf 6 5) 1 0)
      ⟨serverOf [0, 1, 1, 1, 1, 1, 5] 5 5 .leader 7, serverOf [0, 1, 1, 4, 4] 0 4 .follower 0⟩ k
      (s', .success) ∧ k ≤ 8 ∧ s'.peer.snapshot = ⟨5, 1, []⟩ := by
  have hl : (serverOf [0, 1, 1, 1, 1, 1, 5] 5 5 .leader 7).Aligned :=
    serverOf_aligned (by decide) _ _ _
  have hp : (serverOf [0, 1, 1, 4, 4] 0 4 .follower 0).Aligned := serverOf_aligned (by decide) _ _ _
  have hw : WorksBehind (castOf 6 5) 1 ⟨serverOf [0, 1, 1, 1, 1, 1, 5] 5 5 .leader 7,
      serverOf [0, 1, 1, 4, 4] 0 4 .follower 0⟩ :=
    ⟨⟨rfl, rfl, by decide, hl, hp, serverOf_headed _ _ _ _ _, by decide, by decide⟩, by decide,
      by decide⟩
  obtain ⟨k, s', _, hk, hsn, hr⟩ := (behind_catches_up_iff hw 0).mp (by decide)
  exact ⟨k, s', hr (by decide), hk, hsn⟩

end Behind

/-- **So it does in a cluster**: as often as the goroutine is scheduled while nothing else moves, it
    comes back to where it was. -/
theorem Cluster.behind_rounds {k : Nat} {B : Cast n C} {u : Fin n} (ha : B.alive = true)
    (hp : B.peer u = .retry) (hu : u ≠ B.owner) (grow m : Nat) : ∀ {s : Cluster n C},
      s.casts[k]? = some B → Backup.Current B ⟨s.rafts B.owner, s.rafts u⟩ →
      WorksBehind B u ⟨s.rafts B.owner, s.rafts u⟩ →
      ¬ Backup.CanCatchUp ⟨s.rafts B.owner, s.rafts u⟩ ((s.rafts B.owner).nextIndex u) →
      ∃ s', exec Cluster.step (fun _ _ => true) s
          (List.replicate m (Cluster.oneRound k u B.index grow)).flatten = some s' ∧
        s'.casts[k]? = some B := by
  induction m with
  | zero => exact fun hk _ _ _ => ⟨_, rfl, hk⟩
  | succ m ih =>
      intro s hk hcur hw hno
      obtain ⟨next, hr, hn, hno'⟩ := hw.exchange_stuck hno grow
      obtain ⟨s₁, h₁, hc₁, hl, hpeer⟩ := Cluster.exec_oneRound hk ha hp hu hcur hr
      obtain ⟨s', h', hc'⟩ := ih hc₁ (by rw [hl, hpeer]; exact hcur.exchange hr)
        (by rw [hl, hpeer]; exact hw.retry hn) (by rw [hl, hpeer]; exact hno')
      refine ⟨s', ?_, hc'⟩
      rw [List.replicate_succ, List.flatten_cons, exec_append _ h₁, h']

/-! ### A leader that never gets there -/

/-- **A follower that has just been away.** Its log is the beginning of the leader's, whose snapshot
    ends at 5 in term 3; the leader starts behind its own log, at 7. The follower hints at its last
    entry, 2, and refuses the request after entry 1: the leader says term 3 there, it has term 1. It
    hints at entry 1, `getNextIndex` finds no term 1 and returns one more, which is 2 again. -/
theorem never_caught_up :
    let leader := serverOf [0, 1, 2, 3, 3, 3, 3] 5 3 .leader 7
    let peer := serverOf [0, 1, 2] 0 3 .follower 0
    (leader.Holds (logOf [0, 1, 2, 3, 3, 3, 3]) ∧ peer.Holds (logOf [0, 1, 2]) ∧
      LogMatching (logOf [0, 1, 2, 3, 3, 3, 3]) (logOf [0, 1, 2])) ∧
    (leader.Headed ∧ WorksBehind (castOf 6 3) 1 ⟨leader, peer⟩ ∧
      leader.nextIndex 1 = leader.getLastLogUnLock.index + 1) ∧
    ∀ grow k r, ¬ Returns (Backup.exchange (castOf 6 3) 1 grow) ⟨leader, peer⟩ k r := by
  intro leader peer
  have hl : leader.Holds (logOf [0, 1, 2, 3, 3, 3, 3]) := serverOf_holds (by decide) _ _ _
  have hp : peer.Holds (logOf [0, 1, 2]) := serverOf_holds (by decide) _ _ _
  have hw : WorksBehind (castOf 6 3) 1 ⟨leader, peer⟩ :=
    ⟨⟨rfl, rfl, by decide, hl.aligned, hp.aligned, serverOf_headed _ _ _ _ _, by decide, by decide⟩,
      by decide, by decide⟩
  exact ⟨⟨hl, hp, logMatching_of_begins (by decide)⟩, ⟨serverOf_headed _ _ _ _ _, hw, rfl⟩,
    hw.for_ever (by decide)⟩

end Mit6824
