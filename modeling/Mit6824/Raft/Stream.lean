/-
  File:      Mit6824/Raft/Stream.lean
  Subject:   WHAT A SERVER SENDS ON applyChan (raft.go lines 150-223, 638-670, 869-911).

  A service applies what comes out of the channel and trusts the labels. Here: which labels there
  are, in which order, and whether they fit the log.

  * `Gapless ms` -- every command is one above what was handed over before it, every snapshot above
    all of it;
  * `streams_reach` -- so is the stream of every server in every run, whatever requests it gets and
    however its `apply` goroutines interleave with the rest;
  * `Labelled log m` -- the command of `m` is that of the entry whose index `m` carries;
  * `apply_stream` -- **the stream is gapless and correctly labelled**, as long as the requests a
    server takes are such as an aligned log can take;
  * `stale_entry_delivered` -- without that: the request of `slice_past_the_end`, one entry later.
-/
import Mit6824.Lib.TermLog
import Mit6824.Raft.Align
import Mit6824.Raft.Durable

namespace Mit6824

open Lib

variable {n : Nat} {C : Type}

/-! ## 1. Streams -/

/-- The index a message hands over: that of a command, or that of a snapshot. -/
def ApplyMsg.handed (m : ApplyMsg C) : Option Nat :=
  if m.commandValid then some m.commandIndex
  else
    match m.command with
    | .snapshot s => some s.index
    | .value _ => none

/-- The indexes a stream has handed over. -/
def handed (ms : List (ApplyMsg C)) : List Nat := ms.filterMap ApplyMsg.handed

/-- **A gapless stream**: a command carries one more than the index handed over last (0 if there is
    none), a snapshot more than all of them. -/
structure Gapless (ms : List (ApplyMsg C)) : Prop where
  command : ∀ k m, ms[k]? = some m → m.commandValid = true →
    m.commandIndex = (handed (ms.take k)).getLast?.getD 0 + 1
  snapshot : ∀ k m s, ms[k]? = some m → m.commandValid = false → m.command = .snapshot s →
    ∀ i ∈ handed (ms.take k), i < s.index

namespace Gapless

variable {ms : List (ApplyMsg C)} {m : ApplyMsg C}

theorem nil : Gapless ([] : List (ApplyMsg C)) where
  command := fun k m h => by simp at h
  snapshot := fun k m s h => by simp at h

/-- A message of a longer stream is an old one or the last one, and the same stands before it. -/
theorem get_concat {k : Nat} {x : ApplyMsg C} (h : (ms ++ [m])[k]? = some x) :
    (ms[k]? = some x ∧ (ms ++ [m]).take k = ms.take k) ∨ (x = m ∧ (ms ++ [m]).take k = ms) := by
  rcases Lib.get_concat h with h | ⟨rfl, rfl⟩
  · have hlt := (List.getElem?_eq_some_iff.mp h).1
    exact Or.inl ⟨h, List.take_append_of_le_length (Nat.le_of_lt hlt)⟩
  · exact Or.inr ⟨rfl, List.take_left⟩

/-- One more message. -/
theorem concat (h : Gapless ms)
    (hc : m.commandValid = true → m.commandIndex = (handed ms).getLast?.getD 0 + 1)
    (hs : ∀ s, m.commandValid = false → m.command = .snapshot s → ∀ i ∈ handed ms, i < s.index) :
    Gapless (ms ++ [m]) where
  command := by
    intro k x hx hv
    rcases get_concat hx with ⟨hx, ht⟩ | ⟨rfl, ht⟩ <;> rw [ht]
    · exact h.command k x hx hv
    · exact hc hv
  snapshot := by
    intro k x s hx hv hxs
    rcases get_concat hx with ⟨hx, ht⟩ | ⟨rfl, ht⟩ <;> rw [ht]
    · exact h.snapshot k x s hx hv hxs
    · exact hs s hv hxs

end Gapless

/-- The message of `persist` that only makes the service look at the size of the state. -/
def sizeCheck : ApplyMsg C := ⟨false, .value none, 0⟩

/-! ## 2. What a section sends -/

namespace Raft

/-- **The stream of a server**, and where it stands. -/
structure Streams (rf : Raft n C) : Prop where
  gapless : Gapless rf.applyChan
  last : (handed rf.applyChan).getLast?.getD 0 = rf.lastApplied
  bound : ∀ i ∈ handed rf.applyChan, i ≤ rf.lastApplied

/-- `rf'` has handed over nothing that `rf` had not. -/
structure Quiet (rf rf' : Raft n C) : Prop where
  lastApplied : rf'.lastApplied = rf.lastApplied
  sends : ∃ ms, rf'.applyChan = rf.applyChan ++ ms ∧ ∀ m ∈ ms, m = sizeCheck

variable {rf rf' rf'' : Raft n C}

theorem Quiet.of_eq (hl : rf'.lastApplied = rf.lastApplied) (hc : rf'.applyChan = rf.applyChan) :
    Quiet rf rf' :=
  ⟨hl, [], by rw [hc, List.append_nil], fun m hm => absurd hm List.not_mem_nil⟩

theorem Quiet.trans (h : Quiet rf rf') (h' : Quiet rf' rf'') : Quiet rf rf'' := by
  obtain ⟨ms, hc, hms⟩ := h.sends
  obtain ⟨ms', hc', hms'⟩ := h'.sends
  refine ⟨h'.lastApplied.trans h.lastApplied, ms ++ ms', by rw [hc', hc, List.append_assoc], ?_⟩
  intro m hm
  rcases List.mem_append.mp hm with hm | hm
  · exact hms m hm
  · exact hms' m hm

/-- `persist`, after any change that leaves the channel alone. -/
theorem quiet_persist (hl : rf'.lastApplied = rf.lastApplied) (hc : rf'.applyChan = rf.applyChan) :
    Quiet rf rf'.persist := by
  refine ⟨by rw [persist_lastApplied, hl], ?_⟩
  rcases rf'.persist_applyChan with e | e <;> rw [e, hc]
  · exact ⟨[], (List.append_nil _).symm, fun m hm => absurd hm List.not_mem_nil⟩
  · exact ⟨[sizeCheck], rfl, fun m hm => List.mem_singleton.mp hm⟩

theorem quiet_catchUp (rf : Raft n C) (t : Nat) : Quiet rf (rf.catchUp t) := by
  rcases catchUp_cases rf t with ⟨_, e⟩ | ⟨_, e⟩ <;> rw [e]
  · exact quiet_persist rfl rfl
  · exact Quiet.of_eq rfl rfl

theorem quiet_appendEntries {args : AppendEntriesArgs n C} {grow : Nat} {reply : AppendEntriesReply}
    {spawn : Bool} (h : rf.appendEntries args grow = some (rf', reply, spawn)) : Quiet rf rf' := by
  rcases appendEntries_cases h with ⟨_, rfl, _⟩ | ⟨_, _, ha, _⟩ | ⟨_, _, rfl, _⟩
  · exact Quiet.of_eq rfl rfl
  · obtain ⟨m, log, spare, rfl, _⟩ := acceptEntries_cases ha
    exact (quiet_catchUp rf args.term).trans (quiet_persist (by simp) (by simp))
  · exact quiet_catchUp rf args.term

theorem quiet_startLog (rf : Raft n C) (command : Option C) (grow : Nat) :
    Quiet rf (rf.startLog command grow) := by
  obtain ⟨m, sp, e⟩ := rf.startLog_eq command grow
  rw [e]
  exact quiet_persist rfl rfl

/-- **Every section but `apply` and `Make` hands over nothing.** -/
theorem quiet_step {me : Fin n} {turn : Turn n C} (h : rf.step me turn = some rf')
    (ha : turn ≠ .apply) (hc : ∀ g, turn ≠ .crash g) : Quiet rf rf' := by
  cases turn with
  | requestVote args =>
      cases Option.some.inj h
      rcases requestVote_cases rf args with ⟨_, e⟩ | ⟨_, _, e⟩ | ⟨_, _, e⟩ <;> rw [e]
      · exact Quiet.of_eq rfl rfl
      · exact (quiet_catchUp rf args.term).trans (quiet_persist rfl rfl)
      · exact quiet_catchUp rf args.term
  | appendEntries args grow =>
      obtain ⟨⟨rf₁, reply, spawn⟩, ha, rfl⟩ := Option.map_eq_some_iff.mp h
      exact quiet_appendEntries ha
  | startOneElection =>
      cases Option.some.inj h
      exact quiet_persist rfl rfl
  | voteRefused term =>
      cases Option.some.inj h
      split
      · exact quiet_persist rfl rfl
      · exact Quiet.of_eq rfl rfl
  | voteGranted enough =>
      cases Option.some.inj h
      split
      · exact quiet_persist rfl rfl
      · exact Quiet.of_eq rfl rfl
  | start command grow =>
      cases Option.some.inj h
      exact quiet_startLog rf command grow
  | entriesRefused u argsTerm nextIndex reply =>
      rcases entriesRefused_cases h with rfl | ⟨f, rfl⟩
      · exact quiet_persist rfl rfl
      · exact Quiet.of_eq rfl rfl
  | entriesAccepted u index agree =>
      rcases entriesAccepted_cases h with rfl | rfl
      · exact Quiet.of_eq (matched_lastApplied _ _ _) (matched_applyChan _ _ _)
      · exact Quiet.of_eq (matched_lastApplied _ _ _) (matched_applyChan _ _ _)
  | apply => exact absurd rfl ha
  | saveSnapshot index storage =>
      rcases saveSnapshot_cases h with ⟨_, rfl⟩ | ⟨_, e, ls, _, _, rfl⟩
      · exact Quiet.of_eq rfl rfl
      · exact quiet_persist rfl rfl
  | crash grow => exact absurd rfl (hc grow)

/-! ## 3. Every stream is gapless -/

theorem handed_concat (ms : List (ApplyMsg C)) (m : ApplyMsg C) :
    handed (ms ++ [m]) = handed ms ++ m.handed.toList := by
  unfold handed
  rw [List.filterMap_append]
  cases h : m.handed <;> simp [h]

/-- A message that hands over the index `i`. -/
theorem Streams.hand (h : rf.Streams) {m : ApplyMsg C} {i : Nat} (hm : m.handed = some i)
    (hlt : rf.lastApplied < i) (hc : m.commandValid = true → i = rf.lastApplied + 1) :
    Streams { rf with lastApplied := i, applyChan := rf.applyChan ++ [m] } where
  gapless := by
    refine h.gapless.concat (fun hv => ?_) fun s hv hs j hj => ?_
    · rw [ApplyMsg.handed, if_pos hv, Option.some.injEq] at hm
      rw [h.last, hm]
      exact hc hv
    · rw [ApplyMsg.handed, hv, if_neg Bool.false_ne_true, hs, Option.some.injEq] at hm
      have := h.bound j hj
      omega
  last := by
    show (handed (rf.applyChan ++ [m])).getLast?.getD 0 = i
    rw [handed_concat, hm, Option.toList_some, List.getLast?_concat, Option.getD_some]
  bound := by
    intro j hj
    have hj' : j ∈ handed (rf.applyChan ++ [m]) := hj
    rw [handed_concat, hm, Option.toList_some] at hj'
    show j ≤ i
    rcases List.mem_append.mp hj' with hj | hj
    · have := h.bound j hj
      omega
    · rw [List.mem_singleton.mp hj]

theorem Streams.sizeChecks (ms : List (ApplyMsg C)) : ∀ {rf : Raft n C}, rf.Streams →
    (∀ m ∈ ms, m = sizeCheck) → Streams { rf with applyChan := rf.applyChan ++ ms } := by
  induction ms with
  | nil =>
      intro rf h _
      rw [List.append_nil]
      exact h
  | cons m ms ih =>
      intro rf h hms
      obtain rfl := hms m List.mem_cons_self
      have hsame : handed (rf.applyChan ++ [sizeCheck]) = handed rf.applyChan := by
        rw [handed_concat]
        exact List.append_nil _
      have h1 : Streams { rf with applyChan := rf.applyChan ++ [sizeCheck] } := by
        refine ⟨h.gapless.concat (fun hv => absurd hv Bool.false_ne_true) fun s _ hs => ?_, ?_, ?_⟩
        · cases hs
        · exact (congrArg (·.getLast?.getD 0) hsame).trans h.last
        · intro i hi
          exact h.bound i (hsame ▸ hi)
      have h2 := ih h1 fun m hm => hms m (List.mem_cons_of_mem _ hm)
      rwa [List.append_assoc] at h2

theorem Streams.quiet (h : rf.Streams) (hq : Quiet rf rf') : rf'.Streams := by
  obtain ⟨ms, hc, hms⟩ := hq.sends
  have h' := h.sizeChecks ms hms
  exact ⟨hc ▸ h'.gapless, by rw [hc, hq.lastApplied]; exact h'.last,
    by rw [hc, hq.lastApplied]; exact h'.bound⟩

/-- **The loop of `apply`**, at every point of it. -/
theorem Streams.applyLoop {k : Nat} : ∀ {rf rf' : Raft n C}, rf.Streams →
    rf.applyLoop k = some rf' → rf'.Streams := by
  induction k with
  | zero =>
      intro rf rf' h ha
      cases Option.some.inj ha
      exact h
  | succ k ih =>
      intro rf rf' h ha
      unfold Raft.applyLoop at ha
      split at ha
      · cases ha
      · exact ih (h.hand rfl (Nat.lt_succ_self _) fun _ => rfl) ha

theorem Streams.handSnapshot (h : rf.Streams) : rf.handSnapshot.Streams := by
  unfold Raft.handSnapshot
  split
  · rename_i hlt
    exact h.hand rfl hlt fun hv => absurd hv Bool.false_ne_true
  · exact h

/-- What `Make` sends: nothing, or the restored snapshot. -/
theorem streams_make (p : Persister n C) (grow : Nat) : (make p grow).Streams := by
  have h0 : Streams (fresh p grow) := ⟨Gapless.nil, rfl, fun i hi => absurd hi List.not_mem_nil⟩
  cases hd : p.raftstate with
  | none =>
      rw [make_none hd]
      exact h0
  | some d =>
      have hd' : (fresh p grow).persister.raftstate = some d := hd
      unfold make readPersist
      rw [hd']
      dsimp only
      split
      · rename_i hpos
        have h1 := h0.hand (m := ⟨false, .snapshot ⟨d.snapshotIndex, d.snapshotTerm, p.snapshot⟩,
          d.snapshotIndex⟩) rfl hpos fun hv => absurd hv Bool.false_ne_true
        exact ⟨h1.gapless, h1.last, h1.bound⟩
      · rename_i hzero
        exact ⟨h0.gapless, (Nat.eq_zero_of_not_pos hzero).symm,
          fun i hi => absurd hi List.not_mem_nil⟩

/-- **The step lemma.** -/
theorem streams_step {me : Fin n} {turn : Turn n C} (hI : rf.Streams)
    (h : rf.step me turn = some rf') : rf'.Streams := by
  by_cases ha : turn = .apply
  · subst ha
    have h' : rf.apply = some rf' := h
    unfold Raft.apply at h'
    dsimp only at h'
    split at h'
    · cases Option.some.inj h'
      exact hI.handSnapshot
    · exact hI.handSnapshot.applyLoop h'
  · by_cases hc : ∃ g, turn = .crash g
    · obtain ⟨g, rfl⟩ := hc
      cases Option.some.inj h
      exact streams_make _ _
    · exact hI.quiet (quiet_step h ha fun g e => hc ⟨g, e⟩)

/-- **The run lemma**: the stream is gapless, whatever comes from outside. -/
theorem streams_reach {me : Fin n} {p : Persister n C} {grow : Nat}
    (h : Reach (step me) AnyStep (make p grow) rf) : rf.Streams :=
  h.inv (streams_make p grow) fun _ _ _ hI _ hs => streams_step hI hs

/-! ## 4. Labels -/

end Raft

/-- **The command of `m` is that of the entry whose index `m` carries.** -/
def Labelled (log : List (LogEntry C)) (m : ApplyMsg C) : Prop :=
  (∃ e ∈ log, e.index = m.commandIndex) ∧
    ∀ e ∈ log, e.index = m.commandIndex → m.command = .value e.log

instance [DecidableEq C] (log : List (LogEntry C)) (m : ApplyMsg C) : Decidable (Labelled log m) :=
  instDecidableAnd

namespace Raft

variable {rf rf' : Raft n C}

/-- Between `rf` and `rf'`, every command was sent with the index of its entry. -/
def SendsLabelled (rf rf' : Raft n C) : Prop :=
  ∃ ms, rf'.applyChan = rf.applyChan ++ ms ∧ ∀ m ∈ ms, m.commandValid = true → Labelled rf.log m

theorem Quiet.sendsLabelled (h : Quiet rf rf') : SendsLabelled rf rf' := by
  obtain ⟨ms, hc, hms⟩ := h.sends
  refine ⟨ms, hc, fun m hm hv => ?_⟩
  rw [hms m hm] at hv
  cases hv

/-- In an aligned log there is one entry of each index, and it is the one that is read. -/
theorem Aligned.labelled (h : rf.Aligned) (hs : rf.snapshot.index ≤ rf.lastApplied) {k : Nat}
    {m : ApplyMsg C} (hm : rf.Delivers k m) : Labelled rf.log m := by
  obtain ⟨i, e, hi, _, he, rfl⟩ := hm
  rw [rf.getLogByIndexUnLock_of_le (by omega)] at he
  refine ⟨⟨e, List.mem_of_getElem? he, ?_⟩, fun x hx hxi => ?_⟩
  · rw [h.run _ e he]
    show rf.snapshot.index + (i - rf.snapshot.index) = i
    omega
  · obtain ⟨j, hj⟩ := List.mem_iff_getElem?.mp hx
    have hxi' : x.index = i := hxi
    rw [h.run j x hj] at hxi'
    rw [show i - rf.snapshot.index = j by omega, hj, Option.some.injEq] at he
    rw [he]

/-- **`apply` on an aligned log**, at every point of its loop. -/
theorem Aligned.applyLoop_labelled (h : rf.Aligned) {k : Nat}
    (ha : rf.handSnapshot.applyLoop k = some rf') : SendsLabelled rf rf' := by
  obtain ⟨ms, hms, e⟩ := handSnapshot_frame rf
  have hl : rf.handSnapshot.log = rf.log := by rw [e]
  have hs : rf.handSnapshot.snapshot = rf.snapshot := by rw [e]
  have hlast : rf.handSnapshot.snapshot.index ≤ rf.handSnapshot.lastApplied := by
    rw [e]
    exact Nat.le_max_right _ _
  have hchan : rf.handSnapshot.applyChan = rf.applyChan ++ ms := by rw [e]
  obtain ⟨ms', hms', rfl⟩ := applyLoop_frame ha
  refine ⟨ms ++ ms', by rw [← List.append_assoc, ← hchan], fun m hm hv => ?_⟩
  rcases List.mem_append.mp hm with hm | hm
  · rw [hms m hm] at hv
    cases hv
  · rw [← hl]
    exact (h.congr hl hs).labelled hlast (hms' m hm)

/-- **One section of a server with an aligned log.** -/
theorem Aligned.step_labelled (h : rf.Aligned) {me : Fin n} {turn : Turn n C}
    (hs : rf.step me turn = some rf') (hc : ∀ g, turn ≠ .crash g) : SendsLabelled rf rf' := by
  by_cases ha : turn = .apply
  · subst ha
    have hs' : rf.apply = some rf' := hs
    unfold Raft.apply at hs'
    dsimp only at hs'
    split at hs'
    · cases Option.some.inj hs'
      exact h.applyLoop_labelled (k := 0) rfl
    · exact h.applyLoop_labelled hs'
  · exact (quiet_step hs ha hc).sendsLabelled

/-- **The condition**: the requests the server takes are such as an aligned log can take. -/
def TakesRequests (_ : Raft n C) : Turn n C → Prop
  | .appendEntries args _ => Request args
  | _ => True

/-- The log stays aligned. -/
theorem aligned_step {me : Fin n} {turn : Turn n C} (h : rf.Aligned) (hr : Restores rf)
    (hg : rf.TakesRequests turn) (hs : rf.step me turn = some rf') : rf'.Aligned := by
  cases turn with
  | requestVote args =>
      cases Option.some.inj hs
      rcases requestVote_cases rf args with ⟨_, e⟩ | ⟨_, _, e⟩ | ⟨_, _, e⟩ <;> rw [e]
      · exact h
      · exact h.congr (by simp) (by simp)
      · exact h.congr (by simp) (by simp)
  | appendEntries args grow =>
      obtain ⟨rf₁, reply, spawn, ha, hal⟩ := appendEntries_aligned h hg grow
      rw [step, ha] at hs
      cases Option.some.inj hs
      exact hal
  | startOneElection =>
      cases Option.some.inj hs
      exact h.congr (by simp [becomeCandidate]) (by simp [becomeCandidate])
  | voteRefused term =>
      cases Option.some.inj hs
      split
      · exact h.congr (by simp) (by simp)
      · exact h
  | voteGranted enough =>
      cases Option.some.inj hs
      split
      · exact h.congr (by simp [becomeLeader]) (by simp [becomeLeader])
      · exact h
  | start command grow =>
      cases Option.some.inj hs
      exact aligned_startLog h command grow
  | entriesRefused u argsTerm nextIndex reply =>
      rcases entriesRefused_cases hs with rfl | ⟨f, rfl⟩
      · exact h.congr (by simp) (by simp)
      · exact h.congr rfl rfl
  | entriesAccepted u index agree =>
      rcases entriesAccepted_cases hs with rfl | rfl
      · exact h.congr (by simp) (by simp)
      · exact h.congr (by simp) (by simp)
  | apply =>
      obtain ⟨i, ms, rfl⟩ := apply_frame hs
      exact h.congr rfl rfl
  | saveSnapshot index storage => exact aligned_saveSnapshot h hs
  | crash grow =>
      cases Option.some.inj hs
      have hd := (hr grow).1
      exact h.congr (congrArg Durable.log hd) (congrArg Durable.snapshot hd)

end Raft

/-- **The apply stream is gapless and correctly labelled.** For every run of a server from `Make` on,
    with any requests that fit an aligned log: each command carries one more than what was handed
    over before it, each snapshot more than all of that, and a command that is sent is that of the
    entry of the log whose index it carries. The last part says so for every point inside `apply`,
    also of one that goes on to run out of range. -/
theorem apply_stream {me : Fin n} {p : Persister n C} {grow : Nat} {rf : Raft n C}
    (hp : (Raft.make p grow).Aligned)
    (h : Reach (Raft.step me) Raft.TakesRequests (Raft.make p grow) rf) :
    Gapless rf.applyChan ∧
    (∀ turn rf', (∀ g, turn ≠ .crash g) → rf.step me turn = some rf' → rf.SendsLabelled rf') ∧
    ∀ k rf', rf.handSnapshot.applyLoop k = some rf' →
      Gapless rf'.applyChan ∧ rf.SendsLabelled rf' := by
  have hany := h.mono fun _ _ _ => (trivial : AnyStep _ _)
  have hI := Raft.streams_reach hany
  have hal : rf.Aligned ∧ Raft.Restores rf := by
    refine h.inv (I := fun rf => rf.Aligned ∧ Raft.Restores rf) ⟨hp, Raft.restores_make p grow⟩ ?_
    intro rf turn rf' ih hg hs
    exact ⟨Raft.aligned_step ih.1 ih.2 hg hs, (Raft.restores_step ih.2 ih.1.ne hs).1⟩
  exact ⟨hI.gapless, fun turn rf' hc hs => hal.1.step_labelled hs hc,
    fun k rf' ha => ⟨(hI.handSnapshot.applyLoop ha).gapless, hal.1.applyLoop_labelled ha⟩⟩

/-- Two entries with their commit, in one request. -/
def twoEntries : AppendEntriesArgs 3 Nat :=
  ⟨1, 0, 0, 0, [⟨1, 1, some 11⟩, ⟨2, 1, some 12⟩], 2, ⟨0, 0, []⟩⟩

theorem request_twoEntries : Raft.Request twoEntries := by
  refine ⟨1, fun k e he => ?_, Or.inr (Or.inl rfl)⟩
  cases k with
  | zero => cases he; rfl
  | succ k =>
      cases k with
      | zero => cases he; rfl
      | succ k => simp [twoEntries] at he

/-- No other request. -/
def onlyTwoEntries (_ : Raft 3 Nat) : Turn 3 Nat → Bool
  | .appendEntries args _ => decide (args = twoEntries)
  | _ => true

/-- A server takes them, delivers both, saves a snapshot of the first and takes them once more. -/
theorem apply_stream_delivered : ∃ rf : Raft 3 Nat, rf.snapshot.index = 1 ∧
    rf.applyChan.filter ApplyMsg.commandValid =
      [⟨true, .value (some 11), 1⟩, ⟨true, .value (some 12), 2⟩] ∧ Gapless rf.applyChan := by
  have run : (exec (Raft.step 1) onlyTwoEntries (Raft.make ⟨none, []⟩ 0)
      [.appendEntries twoEntries 0, .apply, .saveSnapshot 1 [], .appendEntries twoEntries 0,
        .apply]).any (fun rf => decide (rf.snapshot.index = 1 ∧
          rf.applyChan.filter ApplyMsg.commandValid =
            [⟨true, .value (some 11), 1⟩, ⟨true, .value (some 12), 2⟩])) = true := by
    decide +kernel
  obtain ⟨rf, hr, hp⟩ := exists_of_exec run
  obtain ⟨hs, hc⟩ := of_decide_eq_true hp
  have hr' : Reach (Raft.step 1) Raft.TakesRequests (Raft.make ⟨none, []⟩ 0) rf := by
    refine hr.mono fun rf turn hg => ?_
    cases turn with
    | appendEntries args grow =>
        obtain rfl : args = twoEntries := of_decide_eq_true hg
        exact request_twoEntries
    | _ => trivial
  exact ⟨rf, hs, hc, (apply_stream (Raft.aligned_make_none rfl 0) hr').1⟩

/-! ## 5. The servers of a cluster -/

namespace Cluster

/-- **In a cluster whose broadcasts stay within the log and go out as they were built** every stream
    is gapless, and every step but a restart sends commands with the indexes of their entries. -/
theorem streams_labelled {s s' : Cluster n C} {a : Action n C}
    (h : Reach step (fun s a => s.argsGuard a = true ∧ s.encodeGuard a) (init n C) s)
    (hs : s.step a = some s') (v : Fin n) : Gapless (s.rafts v).applyChan ∧
      ((s.rafts v).SendsLabelled (s'.rafts v) ∨
        ∃ grow, s'.rafts v = Raft.make (s.rafts v).persister grow) := by
  have hal := (alignInv_reach (fun _ _ hg => hg.1) (fun _ _ hg => hg.2) h).aligned v
  refine ⟨(Raft.streams_reach (reach_server h v)).gapless, ?_⟩
  rcases turn_of_step hs v with e | ⟨turn, e⟩
  · rw [e]
    exact Or.inl (Raft.Quiet.of_eq rfl rfl).sendsLabelled
  · by_cases hc : ∃ g, turn = .crash g
    · obtain ⟨g, rfl⟩ := hc
      exact Or.inr ⟨g, (Option.some.inj e).symm⟩
    · exact Or.inl (hal.step_labelled e fun g he => hc ⟨g, he⟩)

/-- Server 0 sends the two entries it sliced, of which the second is entry 2 of term 1. Server 1
    appends entry 3 and commits it with server 0; its heartbeat finds server 2 at index 2, by the
    index of that entry, and appends entry 3 behind it. -/
def staleBehindSnapshot : List (Action 3 Nat) :=
  cutUnderBroadcast ++ ([.peerArgs 3 2, .encode 3 2 9, .handleAppend 3 2 0, .peerCheck 6 0,
    .peerReply 6 0, .startState 1 (some 13), .startAppend 5 0, .castState 7, .castTerm 7,
    .peerState 7 0, .peerArgs 7 0, .encode 7 0 9, .handleAppend 7 0 0, .peerCheck 7 0,
    .peerReply 7 0, .beatState 1, .beatSend 2, .castState 8, .castTerm 8, .peerState 8 2,
    .peerArgs 8 2, .encode 8 2 9, .handleAppend 8 2 0] : List (Action 3 Nat))

/-- **Without the condition**: server 2 delivers, as command 3, the command of entry 2 of term 1,
    with entry 3 in its log. -/
theorem stale_entry_delivered : ∃ s s' : Cluster 3 Nat, Reach step AnyStep (init 3 Nat) s ∧
    s.step (.apply 2) = some s' ∧
    (s.rafts 2).log = [⟨2, 2, some 12⟩, ⟨2, 1, some 2⟩, ⟨3, 2, some 13⟩] ∧
    (s'.rafts 2).applyChan = (s.rafts 2).applyChan ++
      [⟨false, .snapshot ⟨2, 2, []⟩, 0⟩, ⟨true, .value (some 2), 3⟩] ∧
    ¬ Labelled (s.rafts 2).log ⟨true, .value (some 2), 3⟩ := by
  have run : (exec step (fun _ _ => true) (init 3 Nat) staleBehindSnapshot).any (fun s =>
      (s.step (.apply 2)).any fun s' =>
        decide ((s.rafts 2).log = [⟨2, 2, some 12⟩, ⟨2, 1, some 2⟩, ⟨3, 2, some 13⟩] ∧
          (s'.rafts 2).applyChan = (s.rafts 2).applyChan ++
            [⟨false, .snapshot ⟨2, 2, []⟩, 0⟩, ⟨true, .value (some 2), 3⟩])) = true := by
    decide +kernel
  obtain ⟨s, hr, hp⟩ := exists_of_run run
  obtain ⟨s', hs', hp⟩ := (Option.any_eq_true _ _).mp hp
  obtain ⟨hl, hc⟩ := of_decide_eq_true hp
  refine ⟨s, s', hr, hs', hl, hc, ?_⟩
  rw [hl]
  decide

end Cluster

end Mit6824
