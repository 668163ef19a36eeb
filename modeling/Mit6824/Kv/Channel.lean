/-
  File:      Mit6824/Kv/Channel.lean
  Subject:   THE CHANNEL BETWEEN RAFT AND THE SERVICE (raft/raft.go lines 150-175, 638-670, 869-885,
             kvraft/server.go lines 63-112, 173-182, 252): who holds `rf.mu`, who waits for it, and
             what stands in `applyCh`.

  One process. A goroutine of Raft takes `rf.mu`, does its section (`Raft.step`) and sends what the
  section sends, one message after the other, with the lock still in its hands; it waits whenever
  `applyCh` is full. `applyLoop`, the only receiver, takes a message, handles it, looks at the size
  of the Raft state WITHOUT the lock, and calls `SaveSnapshot`, which takes the lock, if the state
  is too large. What a section writes is written when it begins: nobody can read it before the
  lock is released, but for the persister, of which `ifSnapshot` may see every content it goes
  through (`Process.contents`).

  The number of bytes of an encoded state is a parameter (`Config.size`). Sections that send
  nothing and change nothing (`GetState`, the checks of terms) only delay the others.

  * `Process.step` -- the goroutines, the lock, the channel;
  * `Process.Deadlocked` -- the holder of `rf.mu` cannot send and the receiver is in
    `SaveSnapshot`, waiting for the lock or sending itself;
  * `messages`, `sends_step` -- how many messages a section sends, from the indices, the terms and
    the request alone;
  * `roomFor`, `no_deadlock` -- no deadlock, as long as these have room in the channel whenever
    `applyLoop` is in `SaveSnapshot`;
  * `deadlock_of_overload`, `apply_deadlocks` -- otherwise there is one, and a follower that gets a
    thousand committed entries at once runs into it.
-/
import Mit6824.Raft.Durable

namespace Mit6824.Kv

open Lib

variable {n : Nat} {C : Type}

/-! ## 1. The process -/

/-- The room of `applyCh`. -/
def capacity : Nat := 1000

structure Config (n : Nat) (C : Type) where
  me : Fin n
  size : RaftState n C → Nat
  maxraftstate : Nat

/-- Who has `rf.mu`: the section it is in, the server before it, and what it still has to send. -/
structure Holder (n : Nat) (C : Type) where
  before : Raft n C
  turn : Turn n C
  pending : List (ApplyMsg C)

/-- Where `applyLoop` stands: at the channel, before `ifSnapshot`, at the lock in `SaveSnapshot`,
    behind it. -/
inductive LoopState where
  | receive
  | ifSnapshot
  | lock (index : Nat) (storage : List UInt8)
  | saving
  deriving DecidableEq, Repr

def LoopState.inSave : LoopState → Bool
  | .lock _ _ | .saving => true
  | _ => false

/-- `applies` counts the `go rf.apply()` that have not run yet; `applied` is the last command the
    loop has handled. -/
structure Process (n : Nat) (C : Type) where
  raft : Raft n C
  queue : List (ApplyMsg C)
  mu : Option (Holder n C)
  applies : Nat
  loop : LoopState
  lastLogIndex : Nat
  applied : Nat

inductive Act (n : Nat) (C : Type) where
  | turn (t : Turn n C)
  | send
  | unlock
  | receive
  /-- `requestRaft` notes the index of a command that was handled. -/
  | setIndex (i : Nat)
  /-- `ifSnapshot` sees content `k` of the persister. -/
  | ifSnapshot (k : Nat) (storage : List UInt8)
  | lock

/-- The sections that may run now: `SaveSnapshot` is called by the loop alone, and a process that
    crashes is another one afterwards. -/
def runs (applies : Nat) : Turn n C → Bool
  | .apply => decide (0 < applies)
  | .saveSnapshot _ _ => false
  | .crash _ => false
  | _ => true

/-- Does the section start a `go rf.apply()`? -/
def spawns (rf : Raft n C) : Turn n C → Bool
  | .appendEntries args grow => (rf.appendEntries args grow).any (·.2.2)
  | .entriesAccepted u index agree =>
      (rf.entriesAccepted u index agree).any fun rf' => decide (rf.commitIndex < rf'.commitIndex)
  | _ => false

/-- What the persister holds on the way of a handler that first goes to a later term. -/
def onTheWay (rf : Raft n C) : Turn n C → List (Persister n C)
  | .requestVote args =>
      if rf.currentTerm < args.term then [(rf.stepDown args.term).persister] else []
  | .appendEntries args _ =>
      if rf.currentTerm < args.term then [(rf.stepDown args.term).persister] else []
  | _ => []

/-- The messages a section sends. -/
def sent (rf rf' : Raft n C) : List (ApplyMsg C) := rf'.applyChan.drop rf.applyChan.length

/-! ## 2. How much a section sends -/

/-- The message of a `persist` that finds the snapshot at `index`: none if more than the snapshot
    was delivered. -/
def notice (rf : Raft n C) (index : Nat) : Nat := if index < rf.lastApplied then 0 else 1

/-- The message of a handler that goes to a later term. -/
def entering (rf : Raft n C) (term : Nat) : Nat :=
  if rf.currentTerm < term then notice rf rf.snapshot.index else 0

/-- **How many messages a section sends at most**: `persist` one or none, which a handler may run
    twice, and `apply` the snapshot and one message for each entry up to `commitIndex`. -/
def messages (rf : Raft n C) : Turn n C → Nat
  | .requestVote args =>
      if args.term < rf.currentTerm then 0
      else entering rf args.term + notice rf rf.snapshot.index
  | .appendEntries args _ =>
      -- the second `persist` comes after the leader's snapshot was taken over
      if args.term < rf.currentTerm then 0
      else entering rf args.term + notice rf (max rf.snapshot.index args.logSnapshot.index)
  | .startOneElection | .voteGranted _ | .start _ _ => notice rf rf.snapshot.index
  | .voteRefused term => entering rf term
  | .entriesRefused _ argsTerm _ reply =>
      if argsTerm < reply.term then notice rf rf.snapshot.index else 0
  | .entriesAccepted _ _ _ => 0
  | .apply =>
      (if rf.lastApplied < rf.snapshot.index then 1 else 0) +
        (rf.commitIndex - max rf.lastApplied rf.snapshot.index)
  | .saveSnapshot index _ => if rf.snapshot.index < index then notice rf index else 0
  -- the channel ends with the process
  | .crash _ => 0

/-- `rf'` has sent at most `k` messages since `rf`. -/
def Sends (rf rf' : Raft n C) (k : Nat) : Prop :=
  ∃ ms, rf'.applyChan = rf.applyChan ++ ms ∧ ms.length ≤ k

section Sends

variable {rf rf' rf'' : Raft n C} {k l : Nat}

theorem Sends.of_eq (h : rf'.applyChan = rf.applyChan) : Sends rf rf' k :=
  ⟨[], by rw [h, List.append_nil], Nat.zero_le _⟩

theorem Sends.mono (h : Sends rf rf' k) (hkl : k ≤ l) : Sends rf rf' l := by
  obtain ⟨ms, hc, hk⟩ := h
  exact ⟨ms, hc, Nat.le_trans hk hkl⟩

theorem Sends.trans (h : Sends rf rf' k) (h' : Sends rf' rf'' l) : Sends rf rf'' (k + l) := by
  obtain ⟨ms, hc, hk⟩ := h
  obtain ⟨ms', hc', hl⟩ := h'
  refine ⟨ms ++ ms', by rw [hc', hc, List.append_assoc], ?_⟩
  rw [List.length_append]
  exact Nat.add_le_add hk hl

theorem Sends.length_sent (h : Sends rf rf' k) : (sent rf rf').length ≤ k := by
  obtain ⟨ms, hc, hk⟩ := h
  rw [sent, hc, List.drop_left]
  exact hk

/-- `persist`, after any change that leaves the channel alone. -/
theorem sends_persist (hl : rf'.lastApplied = rf.lastApplied) (hc : rf'.applyChan = rf.applyChan) :
    Sends rf rf'.persist (notice rf rf'.snapshot.index) := by
  unfold Raft.persist notice
  rw [hl]
  split
  · exact .of_eq hc
  · exact ⟨[⟨false, .value none, 0⟩], by rw [← hc]; rfl, Nat.le_refl _⟩

theorem sends_catchUp (rf : Raft n C) (t : Nat) : Sends rf (rf.catchUp t) (entering rf t) := by
  unfold Raft.catchUp entering
  split
  · exact sends_persist rfl rfl
  · exact .of_eq rfl

theorem notice_catchUp (rf : Raft n C) (t i : Nat) : notice (rf.catchUp t) i = notice rf i := by
  unfold notice
  rw [Raft.catchUp_lastApplied]

theorem sends_requestVote (rf : Raft n C) (args : RequestVoteArgs n) :
    Sends rf (rf.requestVote args).1 (messages rf (.requestVote args)) := by
  dsimp only [messages]
  rcases Raft.requestVote_cases rf args with ⟨_, e⟩ | ⟨hle, _, e⟩ | ⟨hle, _, e⟩
  · rw [e]
    exact .of_eq rfl
  · have hvote : Sends (rf.catchUp args.term) (Raft.persist { rf.catchUp args.term with
        votedFor := some args.candidateId, state := .follower })
        (notice (rf.catchUp args.term) (rf.catchUp args.term).snapshot.index) :=
      sends_persist rfl rfl
    rw [notice_catchUp, Raft.catchUp_snapshot] at hvote
    rw [e, if_neg (by omega)]
    exact (sends_catchUp rf args.term).trans hvote
  · rw [e, if_neg (by omega)]
    exact (sends_catchUp rf args.term).mono (Nat.le_add_right _ _)

theorem sends_appendEntries {args : AppendEntriesArgs n C} {grow : Nat} {reply : AppendEntriesReply}
    {spawn : Bool} (h : rf.appendEntries args grow = some (rf', reply, spawn)) :
    Sends rf rf' (messages rf (.appendEntries args grow)) := by
  dsimp only [messages]
  rcases Raft.appendEntries_cases h with ⟨_, rfl, _⟩ | ⟨hle, _, ha, _⟩ | ⟨hle, _, rfl, _⟩
  · exact .of_eq rfl
  · rw [if_neg (by omega)]
    obtain ⟨m, log, spare, rfl, _⟩ := Raft.acceptEntries_cases ha
    refine (sends_catchUp rf args.term).trans ?_
    rw [← notice_catchUp rf args.term]
    refine (sends_persist (by simp) (by simp)).mono (Nat.le_of_eq (congrArg _ ?_))
    rw [Raft.updateSnapshotUnLock_snapshot, Raft.written_snapshot, Raft.catchUp_snapshot]
    split <;> omega
  · rw [if_neg (by omega)]
    exact (sends_catchUp rf args.term).mono (Nat.le_add_right _ _)

/-- The loop of `apply` sends one message for each entry. -/
theorem sends_applyLoop (k : Nat) : ∀ {rf rf' : Raft n C}, rf.applyLoop k = some rf' →
    Sends rf rf' k := by
  induction k with
  | zero =>
      intro rf rf' h
      cases Option.some.inj h
      exact .of_eq rfl
  | succ k ih =>
      intro rf rf' h
      unfold Raft.applyLoop at h
      split at h
      · cases h
      · have hone : ∀ m, Sends rf (Raft.send { rf with lastApplied := rf.lastApplied + 1 } m) 1 :=
          fun m => ⟨[m], rfl, Nat.le_refl 1⟩
        exact ((hone _).trans (ih h)).mono (by omega)

theorem sends_apply (h : rf.apply = some rf') : Sends rf rf' (messages rf .apply) := by
  have hhand : Sends rf rf.handSnapshot (if rf.lastApplied < rf.snapshot.index then 1 else 0) := by
    unfold Raft.handSnapshot
    split
    · exact ⟨[⟨false, .snapshot rf.snapshot, 0⟩], rfl, Nat.le_refl 1⟩
    · exact .of_eq rfl
  obtain ⟨ms, _, e⟩ := Raft.handSnapshot_frame rf
  have hc : rf.handSnapshot.commitIndex = rf.commitIndex := by rw [e]
  have hl : rf.handSnapshot.lastApplied = max rf.lastApplied rf.snapshot.index := by rw [e]
  unfold Raft.apply at h
  dsimp only at h
  split at h
  · cases Option.some.inj h
    exact hhand.mono (Nat.le_add_right _ _)
  · have hloop := sends_applyLoop _ h
    rw [hc, hl] at hloop
    exact hhand.trans hloop

theorem sends_saveSnapshot {index : Nat} {storage : List UInt8}
    (h : rf.saveSnapshot index storage = some rf') :
    Sends rf rf' (messages rf (.saveSnapshot index storage)) := by
  dsimp only [messages]
  rcases Raft.saveSnapshot_cases h with ⟨_, rfl⟩ | ⟨hlt, e, ls, _, _, rfl⟩
  · exact .of_eq rfl
  · rw [if_pos hlt]
    exact sends_persist rfl rfl

/-- **No section sends more than `messages` says.** -/
theorem sends_step {me : Fin n} {turn : Turn n C} (h : rf.step me turn = some rf')
    (hc : ∀ g, turn ≠ .crash g) : Sends rf rf' (messages rf turn) := by
  cases turn with
  | requestVote args =>
      cases Option.some.inj h
      exact sends_requestVote rf args
  | appendEntries args grow =>
      obtain ⟨⟨rf₁, reply, spawn⟩, ha, rfl⟩ := Option.map_eq_some_iff.mp h
      exact sends_appendEntries ha
  | startOneElection =>
      cases Option.some.inj h
      exact sends_persist rfl rfl
  | voteRefused term =>
      cases Option.some.inj h
      exact sends_catchUp rf term
  | voteGranted enough =>
      cases Option.some.inj h
      split
      · exact sends_persist rfl rfl
      · exact .of_eq rfl
  | start command grow =>
      cases Option.some.inj h
      obtain ⟨m, sp, e⟩ := rf.startLog_eq command grow
      rw [e]
      exact sends_persist rfl rfl
  | entriesRefused u argsTerm nextIndex reply =>
      dsimp only [Raft.step, Raft.entriesRefused] at h
      dsimp only [messages]
      split at h
      · cases Option.some.inj h
        rw [if_pos ‹_›]
        exact sends_persist rfl rfl
      · obtain ⟨next, _, rfl⟩ := Option.map_eq_some_iff.mp h
        exact .of_eq rfl
  | entriesAccepted u index agree =>
      rcases Raft.entriesAccepted_cases h with rfl | rfl
      · exact .of_eq (Raft.matched_applyChan _ _ _)
      · exact .of_eq (Raft.matched_applyChan _ _ _)
  | apply => exact sends_apply h
  | saveSnapshot index storage => exact sends_saveSnapshot h
  | crash grow => exact absurd rfl (hc grow)

end Sends

namespace Process

/-- As `StartKVServer` leaves it; `Make` may have sent the snapshot. -/
def start (persister : Persister n C) (grow : Nat) : Process n C where
  raft := Raft.make persister grow
  queue := (Raft.make persister grow).applyChan
  mu := none
  applies := 0
  loop := .receive
  lastLogIndex := 0
  applied := 0

/-- The contents of the persister that may be seen now. -/
def contents (s : Process n C) : List (Persister n C) :=
  s.raft.persister ::
    match s.mu with
    | none => []
    | some h => h.before.persister :: onTheWay h.before h.turn

/-- `RaftStateSize() >= maxraftstate`. -/
def tooLarge (cfg : Config n C) (p : Persister n C) : Bool :=
  decide (cfg.maxraftstate ≤ (p.raftstate.map cfg.size).getD 0)

/-- What the loop does with a message before `ifSnapshot`, as far as indices go. -/
def handle (s : Process n C) (m : ApplyMsg C) : Process n C :=
  if m.commandValid then { s with applied := m.commandIndex }
  else
    match m.command with
    | .snapshot sn => if sn.storage = [] then s else { s with lastLogIndex := sn.index }
    | .value _ => s

def step (cfg : Config n C) (s : Process n C) : Act n C → Option (Process n C)
  | .turn t =>
      match s.mu, s.raft.step cfg.me t with
      | none, some rf =>
          if runs s.applies t then
            some { s with
              raft := rf
              mu := some ⟨s.raft, t, sent s.raft rf⟩
              applies := (match t with | .apply => s.applies - 1 | _ => s.applies) +
                if spawns s.raft t then 1 else 0 }
          else none
      | _, _ => none
  | .send =>
      match s.mu with
      | some ⟨before, turn, m :: pending⟩ =>
          if s.queue.length < capacity then
            some { s with queue := s.queue ++ [m], mu := some ⟨before, turn, pending⟩ }
          else none
      | _ => none
  | .unlock =>
      match s.mu with
      | some ⟨_, _, []⟩ =>
          some { s with mu := none, loop := if s.loop = .saving then .receive else s.loop }
      | _ => none
  | .receive =>
      match s.loop, s.queue with
      | .receive, m :: queue => some { s.handle m with queue := queue, loop := .ifSnapshot }
      | _, _ => none
  | .setIndex i => if i ≤ s.applied then some { s with lastLogIndex := i } else none
  | .ifSnapshot k storage =>
      match s.loop, s.contents[k]? with
      | .ifSnapshot, some p =>
          some { s with
            loop := if tooLarge cfg p then .lock s.lastLogIndex storage else .receive }
      | _, _ => none
  | .lock =>
      match s.loop, s.mu with
      | .lock index storage, none =>
          (s.raft.saveSnapshot index storage).map fun rf =>
            { s with
              raft := rf
              mu := some ⟨s.raft, .saveSnapshot index storage, sent s.raft rf⟩
              loop := .saving }
      | _, _ => none

/-- **Lock and channel wait for each other**: the holder of `rf.mu` has something to send and
    `applyCh` is full, and `applyLoop` is waiting for `rf.mu` in `SaveSnapshot`, or is the holder
    itself, inside `SaveSnapshot`. -/
def Deadlocked (s : Process n C) : Prop :=
  ∃ h, s.mu = some h ∧ h.pending ≠ [] ∧ s.queue.length = capacity ∧ s.loop.inSave = true

/-! ## 3. Room for what is still to be sent -/

/-- What stands in the channel, and what the holder of `rf.mu` still has to send. -/
def load (s : Process n C) : Nat :=
  s.queue.length + (s.mu.map fun h => h.pending.length).getD 0

/-- **The condition**: who takes `rf.mu` while `applyLoop` is in `SaveSnapshot` (itself included)
    finds room in `applyCh` for all its messages, and when `applyLoop` goes there, the channel has
    room for those the holder of `rf.mu` has not sent yet. -/
def roomFor (cfg : Config n C) (s : Process n C) : Act n C → Bool
  | .turn t => !s.loop.inSave || decide (s.queue.length + messages s.raft t ≤ capacity)
  | .ifSnapshot k _ =>
      (s.contents[k]?).all fun p => !tooLarge cfg p || decide (s.load ≤ capacity)
  | .lock =>
      match s.loop with
      | .lock index storage =>
          decide (s.queue.length + messages s.raft (.saveSnapshot index storage) ≤ capacity)
      | _ => true
  | _ => true

/-- While the loop is in `SaveSnapshot` the load has room; behind its lock somebody holds it. -/
structure Calm (s : Process n C) : Prop where
  load : s.loop.inSave = true → s.load ≤ capacity
  held : s.loop = .saving → s.mu ≠ none

theorem Calm.not_deadlocked {s : Process n C} (h : Calm s) : ¬ Deadlocked s := by
  rintro ⟨x, hmu, hne, hfull, hin⟩
  have hload := h.load hin
  have hpos : 0 < x.pending.length := List.length_pos_iff.mpr hne
  unfold Process.load at hload
  rw [hmu] at hload
  simp only [Option.map_some, Option.getD_some] at hload
  omega

theorem calm_start (p : Persister n C) (grow : Nat) : Calm (start p grow) := by
  have hloop : (start p grow).loop = .receive := rfl
  refine ⟨fun h => ?_, fun h => ?_⟩
  · rw [hloop] at h
    cases h
  · rw [hloop] at h
    cases h

theorem runs_crash {k : Nat} {t : Turn n C} (h : runs k t = true) (g : Nat) : t ≠ .crash g := by
  rintro rfl
  cases h

/-- **The step lemma**: sending moves the load, receiving takes from it, and who takes the lock
    has found room. -/
theorem calm_step {cfg : Config n C} {s s' : Process n C} {a : Act n C} (h : Calm s)
    (hg : roomFor cfg s a = true) (hs : s.step cfg a = some s') : Calm s' := by
  cases a with
  | turn t =>
      simp only [step] at hs
      split at hs
      · rename_i rf hmu hrf
        split at hs
        · rename_i hruns
          cases Option.some.inj hs
          refine ⟨fun hin => ?_, fun _ => nofun⟩
          have hin' : s.loop.inSave = true := hin
          have hroom : s.queue.length + messages s.raft t ≤ capacity := by
            simpa [roomFor, hin'] using hg
          have hsent := (sends_step hrf (runs_crash hruns)).length_sent
          show s.queue.length + (sent s.raft rf).length ≤ capacity
          omega
        · cases hs
      · cases hs
  | send =>
      simp only [step] at hs
      split at hs
      · rename_i before turn m pending hmu
        split at hs
        · cases Option.some.inj hs
          refine ⟨fun hin => ?_, fun _ => nofun⟩
          have hload := h.load hin
          simp only [load, hmu, Option.map_some, Option.getD_some, List.length_cons] at hload
          simp only [load, Option.map_some, Option.getD_some, List.length_append,
            List.length_singleton]
          omega
        · cases hs
      · cases hs
  | unlock =>
      simp only [step] at hs
      split at hs
      · rename_i before turn hmu
        cases Option.some.inj hs
        split
        · exact ⟨nofun, nofun⟩
        · rename_i hne
          refine ⟨fun hin => ?_, fun hsav => absurd hsav hne⟩
          have hload := h.load hin
          simp only [load, hmu, Option.map_some, Option.getD_some, List.length_nil] at hload
          simpa [load] using hload
      · cases hs
  | receive =>
      simp only [step] at hs
      split at hs
      · cases Option.some.inj hs
        exact ⟨nofun, nofun⟩
      · cases hs
  | setIndex i =>
      simp only [step] at hs
      split at hs
      · cases Option.some.inj hs
        exact ⟨h.load, h.held⟩
      · cases hs
  | ifSnapshot k storage =>
      simp only [step] at hs
      split at hs
      · rename_i p hloop hp
        cases Option.some.inj hs
        split
        · rename_i hbig
          refine ⟨fun _ => ?_, nofun⟩
          have hroom : decide (s.load ≤ capacity) = true := by simpa [roomFor, hp, hbig] using hg
          exact of_decide_eq_true hroom
        · exact ⟨nofun, nofun⟩
      · cases hs
  | lock =>
      simp only [step] at hs
      split at hs
      · rename_i index storage hloop hmu
        obtain ⟨rf, hrf, rfl⟩ := Option.map_eq_some_iff.mp hs
        refine ⟨fun _ => ?_, fun _ => nofun⟩
        have hroom : s.queue.length + messages s.raft (.saveSnapshot index storage) ≤ capacity := by
          simpa [roomFor, hloop] using hg
        have hsent := (sends_saveSnapshot hrf).length_sent
        show s.queue.length + (sent s.raft rf).length ≤ capacity
        omega
      · cases hs

/-- **No deadlock between Raft and the service** in a run in which, whenever `applyLoop` is in
    `SaveSnapshot`, the messages of the holder of `rf.mu` have room. -/
theorem no_deadlock {cfg : Config n C} {p : Persister n C} {grow : Nat} {s : Process n C}
    (h : Reach (step cfg) (fun s a => roomFor cfg s a = true) (start p grow) s) :
    ¬ Deadlocked s := by
  have hc : Calm s := by
    refine Reach.inv (I := Calm) (calm_start p grow) ?_ h
    intro s a s' ih hg hs
    exact calm_step ih hg hs
  exact hc.not_deadlocked

/-- A follower that saves a snapshot behind two messages of its own. -/
theorem no_deadlock_saving :
    ∃ s, Reach (step ⟨0, fun d => d.log.length, 2⟩)
        (fun s a => roomFor ⟨0, fun d => d.log.length, 2⟩ s a = true)
        (start ⟨none, []⟩ 0 : Process 3 Nat) s ∧ s.loop = .saving ∧ ¬ Deadlocked s := by
  have run : (exec (step ⟨0, fun d => d.log.length, 2⟩)
      (roomFor ⟨0, fun d => d.log.length, 2⟩) (start ⟨none, []⟩ 0 : Process 3 Nat)
      [.turn (.appendEntries ⟨1, 1, 0, 0, [⟨1, 1, some 7⟩], 1, ⟨0, 0, []⟩⟩ 0), .send, .send,
        .unlock, .turn .apply, .receive, .ifSnapshot 0 [3], .send, .unlock, .lock]).any
      (fun s => decide (s.loop = .saving)) = true := by decide +kernel
  obtain ⟨s, hr, hv⟩ := exists_of_exec run
  exact ⟨s, hr, of_decide_eq_true hv, no_deadlock hr⟩

/-! ## 4. Too much to send -/

/-- **A load without room ends in a deadlock**: the loop is at the lock and does not receive, so
    the holder fills the channel. -/
theorem deadlock_of_overload (cfg : Config n C) {s : Process n C} {x : Holder n C}
    (hmu : s.mu = some x) (hin : s.loop.inSave = true) (hq : s.queue.length ≤ capacity)
    (hload : capacity < s.queue.length + x.pending.length) :
    ∃ s', Reach (step cfg) AnyStep s s' ∧ Deadlocked s' := by
  -- induction on the room that is left
  obtain ⟨room, hroom⟩ : ∃ room, s.queue.length + room = capacity := ⟨_, Nat.add_sub_of_le hq⟩
  induction room generalizing s x with
  | zero =>
      refine ⟨s, .start, x, hmu, ?_, by omega, hin⟩
      exact List.ne_nil_of_length_pos (by omega)
  | succ room ih =>
      obtain ⟨before, turn, pending⟩ := x
      cases pending with
      | nil =>
          simp only [List.length_nil] at hload
          omega
      | cons m pending =>
          simp only [List.length_cons] at hload
          have hstep : s.step cfg .send = some
              { s with queue := s.queue ++ [m], mu := some ⟨before, turn, pending⟩ } := by
            simp only [step, hmu]
            exact if_pos (by omega)
          have hlen : (s.queue ++ [m]).length = s.queue.length + 1 := by simp
          obtain ⟨s', hr, hd⟩ := ih (s := { s with
            queue := s.queue ++ [m], mu := some ⟨before, turn, pending⟩ }) rfl hin
            (by rw [hlen]; omega) (by rw [hlen]; simp only; omega) (by rw [hlen]; omega)
          exact ⟨s', (Reach.move _ _ .send .start trivial hstep).trans hr, hd⟩

/-- The loop of `apply` gets through if the log has the entries, with a message for each. -/
theorem applyLoop_sends (k : Nat) (rf : Raft n C) (hs : rf.snapshot.index ≤ rf.lastApplied)
    (hlt : rf.lastApplied + k < rf.snapshot.index + rf.log.length) :
    ∃ ms, ms.length = k ∧ rf.applyLoop k = some
      { rf with lastApplied := rf.lastApplied + k, applyChan := rf.applyChan ++ ms } := by
  induction k generalizing rf with
  | zero => exact ⟨[], rfl, by simp [Raft.applyLoop]⟩
  | succ k ih =>
      have hi : rf.lastApplied + 1 - rf.snapshot.index < rf.log.length := by omega
      have hget : rf.getLogByIndexUnLock ((rf.lastApplied : Int) + 1) =
          some rf.log[rf.lastApplied + 1 - rf.snapshot.index] := by
        rw [← Int.natCast_succ, rf.getLogByIndexUnLock_of_le (by omega)]
        exact List.getElem?_eq_getElem hi
      obtain ⟨ms, hms, e⟩ := ih (Raft.send { rf with lastApplied := rf.lastApplied + 1 }
        ⟨true, .value rf.log[rf.lastApplied + 1 - rf.snapshot.index].log, rf.lastApplied + 1⟩)
        (by show rf.snapshot.index ≤ rf.lastApplied + 1; omega)
        (by show rf.lastApplied + 1 + k < rf.snapshot.index + rf.log.length; omega)
      refine ⟨⟨true, .value rf.log[rf.lastApplied + 1 - rf.snapshot.index].log,
        rf.lastApplied + 1⟩ :: ms, by simp [hms], ?_⟩
      rw [Raft.applyLoop, hget]
      dsimp only
      rw [e]
      simp [Raft.send, Nat.add_assoc, Nat.add_comm 1 k]

/-- So does `apply`, on a server whose snapshot is not ahead. -/
theorem apply_sends (rf : Raft n C) (hs : rf.snapshot.index ≤ rf.lastApplied)
    (hc : rf.lastApplied ≤ rf.commitIndex)
    (hlt : rf.commitIndex < rf.snapshot.index + rf.log.length) :
    ∃ rf', rf.apply = some rf' ∧ (sent rf rf').length = rf.commitIndex - rf.lastApplied ∧
      rf'.persister = rf.persister := by
  have hhand : rf.handSnapshot = rf := by
    unfold Raft.handSnapshot
    rw [if_neg (by omega)]
  obtain ⟨ms, hms, hloop⟩ := applyLoop_sends (rf.commitIndex - rf.lastApplied) rf hs (by omega)
  have happly : rf.apply = rf.applyLoop (rf.commitIndex - rf.lastApplied) := by
    unfold Raft.apply
    rw [hhand]
    dsimp only
    rw [if_neg (by omega)]
  exact ⟨_, happly.trans hloop, by simpa [sent] using hms, rfl⟩

/-- A request of the leader of term 1 with all its entries, all of them committed. -/
def backlog (es : List (LogEntry Nat)) : AppendEntriesArgs 3 Nat :=
  ⟨1, 1, 0, 0, es, es.length, ⟨0, 0, []⟩⟩

/-- A fresh follower takes them all; `persist` sends two messages of its own on the way. -/
theorem follower_takes (e : LogEntry Nat) (es : List (LogEntry Nat)) :
    ∃ rf reply m₁ m₂, (Raft.make ⟨none, []⟩ 0 : Raft 3 Nat).appendEntries (backlog (e :: es)) 0 =
        some (rf, reply, true) ∧ rf.log = ⟨0, 0, none⟩ :: e :: es ∧
      rf.commitIndex = es.length + 1 ∧ rf.lastApplied = 0 ∧ rf.snapshot = ⟨0, 0, []⟩ ∧
      rf.applyChan = [m₁, m₂] ∧ (m₁.commandValid = false ∧ m₁.command = .value none) ∧
      ∃ d, rf.persister.raftstate = some d := by
  refine ⟨_, _, _, _, rfl, rfl, ?_, rfl, rfl, rfl, ⟨rfl, rfl⟩, ⟨_, rfl⟩⟩
  show min (es.length + 1) (0 + (es.length + 1)) = es.length + 1
  omega

/-- The handler sends its two messages; `apply` takes the lock; the loop receives one message,
    finds the state too large and goes to the lock. -/
theorem overload_of_backlog (size : RaftState 3 Nat → Nat) (hsize : ∀ d, 1 ≤ size d)
    (e : LogEntry Nat) (es : List (LogEntry Nat)) :
    ∃ s x, Reach (step ⟨0, size, 1⟩) AnyStep (start ⟨none, []⟩ 0) s ∧ s.mu = some x ∧
      s.loop.inSave = true ∧ s.queue.length = 1 ∧ x.pending.length = es.length + 1 := by
  obtain ⟨rf, reply, m₁, m₂, happ, hlog, hci, hla, hsn, hchan, hm₁, d, hd⟩ := follower_takes e es
  obtain ⟨rf', happly, hsent, hp⟩ := apply_sends rf (by rw [hsn, hla])
    (by rw [hla]; exact Nat.zero_le _) (by rw [hsn, hci, hlog]; simp)
  have hturn : (Raft.make ⟨none, []⟩ 0 : Raft 3 Nat).step 0 (.appendEntries (backlog (e :: es)) 0) =
      some rf := by
    rw [Raft.step, happ]
    rfl
  have hfirst : sent (Raft.make ⟨none, []⟩ 0) rf = [m₁, m₂] := by
    rw [sent, hchan]
    rfl
  have h1 : Reach (step ⟨0, size, 1⟩) AnyStep (start ⟨none, []⟩ 0)
      ⟨rf, [], some ⟨Raft.make ⟨none, []⟩ 0, .appendEntries (backlog (e :: es)) 0, [m₁, m₂]⟩, 1,
        .receive, 0, 0⟩ := by
    refine .move _ _ (.turn (.appendEntries (backlog (e :: es)) 0)) .start trivial ?_
    simp only [step, start, hturn, hfirst, runs, spawns, happ, Option.any_some, if_true]
    rfl
  have h2 := Reach.move _ _ .unlock (.move _ _ .send (.move _ _ .send h1 trivial rfl) trivial rfl)
    trivial rfl
  have h3 : Reach (step ⟨0, size, 1⟩) AnyStep (start ⟨none, []⟩ 0)
      ⟨rf', [m₁, m₂], some ⟨rf, .apply, sent rf rf'⟩, 0, .receive, 0, 0⟩ := by
    refine .move _ _ (.turn .apply) h2 trivial ?_
    simp [step, Raft.step, happly, runs, spawns]
  have h4 : Reach (step ⟨0, size, 1⟩) AnyStep (start ⟨none, []⟩ 0)
      ⟨rf', [m₂], some ⟨rf, .apply, sent rf rf'⟩, 0, .ifSnapshot, 0, 0⟩ := by
    refine .move _ _ .receive h3 trivial ?_
    simp [step, handle, hm₁.1, hm₁.2]
  refine ⟨_, ⟨rf, .apply, sent rf rf'⟩, .move _ _ (.ifSnapshot 0 []) h4 trivial rfl, rfl, ?_, rfl,
    ?_⟩
  · have hbig : tooLarge ⟨0, size, 1⟩ rf'.persister = true := by
      simp [tooLarge, hp, hd, hsize d]
    simp [hbig, LoopState.inSave]
  · rw [hsent, hci, hla]
    rfl

/-- **`apply` and `SaveSnapshot` deadlock.** A follower gets a thousand entries, all committed, in
    one request. The `apply` that this starts holds `rf.mu` and sends; `applyLoop` takes the first
    message, finds the Raft state larger than `maxraftstate` and waits for `rf.mu`; the channel
    fills up. Here a byte of the state is an entry of the log, and one more;
    any positive size will do. -/
theorem apply_deadlocks :
    ∃ s, Reach (step ⟨0, fun d => d.log.length + 1, 1⟩) AnyStep
      (start ⟨none, []⟩ 0 : Process 3 Nat) s ∧ Deadlocked s := by
  obtain ⟨s, x, hr, hmu, hin, hq, hp⟩ := overload_of_backlog (fun d => d.log.length + 1)
    (fun d => Nat.le_add_left 1 _) ⟨1, 1, some 7⟩ ((List.range 999).map fun k => ⟨k + 2, 1, some 7⟩)
  rw [List.length_map, List.length_range] at hp
  obtain ⟨s', hr', hd⟩ := deadlock_of_overload ⟨0, fun d => d.log.length + 1, 1⟩ hmu hin
    (by rw [hq]; decide) (by rw [hq, hp]; decide)
  exact ⟨s', hr.trans hr', hd⟩

end Process

end Mit6824.Kv
