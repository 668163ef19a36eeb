/-
  File:      Mit6824/Raft/Server.lean
  Subject:   ONE RAFT SERVER (raft/raft.go, raft/persister.go): its state and, function by
             function, what each section under `rf.mu` does to it.

  Go's `int` is `Nat` where the code never subtracts below zero; `PrevLogIndex`, which is -1 when
  `nextIndex` is 0, is `Int`. `-1` for "no server" is `none`. A command is a value of an arbitrary
  type `C`: the part of an `interface{}` that labgob carries (a channel field is dropped on the
  way and is not part of it); `none` is `nil`. A function that can index or slice out of range
  returns an `Option`: `none` is Go's panic.

  `Log` is a Go slice: `log` is its content and `spare` what its array holds beyond the length,
  up to the capacity. `append` writes there when it fits and allocates otherwise; how much room
  the runtime then leaves is the parameter `grow`. A slice expression may read past the length
  (`sliceLog`), and nothing but the code that calls it keeps it from doing so. The `Entries` of a
  request are a slice of that array as well, and are read after `rf.mu` was given back: `memory`
  holds the rest of it, in front of `Log`, and the arrays `Log` has left.

  * `requestVote`, `appendEntries` -- the RPC handlers;
  * `getNextIndex`, `appendArgs`, `read` -- the leader's side of one AppendEntries;
  * `apply`, `saveSnapshot`, `updateSnapshotUnLock` -- delivery and snapshots;
  * `persist`, `readPersist`, `make` -- what survives a crash.

  Times, timers and log output are left out: every timer may fire at any moment, once `Make` has
  returned. `Make` starts the timer loops before it reads the persister (lines 959-965); that no
  election runs before line 964, for which `Make` would have to be held up for a whole election
  timeout, is an assumption.
-/
import Mathlib.Data.Fin.Basic

namespace Mit6824

/-! ## 1. Data -/

/-- The field `state`: 0 leader, 1 candidate, 2 follower. -/
inductive Role where
  | leader
  | candidate
  | follower
  deriving DecidableEq, Repr

structure LogEntry (C : Type) where
  index : Nat
  term : Nat
  log : Option C
  deriving DecidableEq, Repr

/-- Go's zero value: what a fresh array holds. -/
def LogEntry.zero {C : Type} : LogEntry C := ⟨0, 0, none⟩

structure Snapshot where
  index : Nat
  term : Nat
  storage : List UInt8
  deriving DecidableEq, Repr

/-- What `ApplyMsg.Command` holds: the `Log` of an entry, or a snapshot. -/
inductive Payload (C : Type) where
  | value (c : Option C)
  | snapshot (s : Snapshot)
  deriving DecidableEq, Repr

structure ApplyMsg (C : Type) where
  commandValid : Bool
  command : Payload C
  commandIndex : Nat
  deriving DecidableEq, Repr

/-- The values `persist` encodes, in this order. -/
structure RaftState (n : Nat) (C : Type) where
  currentTerm : Nat
  votedFor : Option (Fin n)
  log : List (LogEntry C)
  snapshotIndex : Nat
  snapshotTerm : Nat
  commitIndex : Nat
  deriving DecidableEq, Repr

structure Persister (n : Nat) (C : Type) where
  raftstate : Option (RaftState n C)
  snapshot : List UInt8
  deriving DecidableEq, Repr

/-- The memory `Log` has been in: the arrays it has left, oldest first, and what its present one
    holds in front of it. No section reads it, but a request that was built may refer to it. -/
structure Memory (C : Type) where
  old : List (List (LogEntry C))
  front : List (LogEntry C)
  deriving DecidableEq, Repr

/-- Where a slice of `Log` begins: which array, and which slot of it. -/
structure Slice where
  array : Nat
  start : Nat
  deriving DecidableEq, Repr

/-- A server. `applyChan` is everything this instance has sent on its channel. -/
structure Raft (n : Nat) (C : Type) where
  persister : Persister n C
  applyChan : List (ApplyMsg C)
  state : Role
  leaderId : Option (Fin n)
  currentTerm : Nat
  votedFor : Option (Fin n)
  log : List (LogEntry C)
  spare : List (LogEntry C)
  memory : Memory C
  commitIndex : Nat
  lastApplied : Nat
  nextIndex : Fin n → Nat
  matchIndex : Fin n → Nat
  snapshot : Snapshot

structure RequestVoteArgs (n : Nat) where
  term : Nat
  candidateId : Fin n
  lastLogIndex : Nat
  lastLogTerm : Nat
  deriving DecidableEq, Repr

structure RequestVoteReply where
  term : Nat
  voteGranted : Bool
  deriving DecidableEq, Repr

structure AppendEntriesArgs (n : Nat) (C : Type) where
  term : Nat
  leaderId : Fin n
  prevLogIndex : Int
  prevLogTerm : Nat
  entries : List (LogEntry C)
  leaderCommit : Nat
  logSnapshot : Snapshot
  deriving DecidableEq, Repr

structure AppendEntriesReply where
  term : Nat
  success : Bool
  conflictIndex : Nat
  conflictTerm : Nat
  deriving DecidableEq, Repr

namespace Raft

variable {n : Nat} {C : Type}

/-! ## 2. Reading and writing the log -/

def getLogByIndexUnLock (rf : Raft n C) (index : Int) : Option (LogEntry C) :=
  if index < rf.snapshot.index then some ⟨rf.snapshot.index, rf.snapshot.term, none⟩
  else rf.log[(index - rf.snapshot.index).toNat]?

def getLastLogUnLock (rf : Raft n C) : LogEntry C :=
  match rf.log.getLast? with
  | some e => e
  | none => ⟨rf.snapshot.index, rf.snapshot.term, none⟩

/-- `rf.Log[lo:hi]` and what the array holds behind it. Go checks the bounds against the
    capacity, not against the length. -/
def sliceLog (rf : Raft n C) (lo hi : Int) : Option (List (LogEntry C) × List (LogEntry C)) :=
  if 0 ≤ lo ∧ lo ≤ hi ∧ hi ≤ (rf.log ++ rf.spare).length then
    some (((rf.log ++ rf.spare).take hi.toNat).drop lo.toNat, (rf.log ++ rf.spare).drop hi.toNat)
  else none

/-- The array `Log` is in, up to its capacity. -/
def array (rf : Raft n C) : List (LogEntry C) := rf.memory.front ++ (rf.log ++ rf.spare)

/-- All arrays `Log` has been in; the last is its own. -/
def arrays (rf : Raft n C) : List (List (LogEntry C)) := rf.memory.old ++ [rf.array]

/-- `rf.Log = append(log, entries...)`, where `log` is a beginning of `rf.Log` and `spare` what the
    array holds behind it: the array is written if it has room, and left as it is otherwise. -/
def appendLog (rf : Raft n C) (log spare entries : List (LogEntry C)) (grow : Nat) : Raft n C :=
  if entries.length ≤ spare.length then
    { rf with log := log ++ entries, spare := spare.drop entries.length }
  else
    { rf with
      log := log ++ entries
      spare := List.replicate grow LogEntry.zero
      memory := ⟨rf.arrays, []⟩ }

/-- The memory after the first slots of `Log` were cut off: the array still has them. -/
def cutOff (rf : Raft n C) (dropped : List (LogEntry C)) : Memory C :=
  { rf.memory with front := rf.memory.front ++ dropped }

/-! ## 3. The channel and the persister -/

def send (rf : Raft n C) (m : ApplyMsg C) : Raft n C := { rf with applyChan := rf.applyChan ++ [m] }

/-- `persist` as far as the persister goes. -/
def save (rf : Raft n C) : Raft n C :=
  { rf with
    persister :=
      ⟨some ⟨rf.currentTerm, rf.votedFor, rf.log, rf.snapshot.index, rf.snapshot.term,
        rf.commitIndex⟩, rf.snapshot.storage⟩ }

/-- The message at its end only makes the service check the size of the state. -/
def persist (rf : Raft n C) : Raft n C :=
  if rf.snapshot.index < rf.lastApplied then save rf
  else send (save rf) ⟨false, .value none, 0⟩

def readPersist (rf : Raft n C) : Raft n C :=
  match rf.persister.raftstate with
  | none => rf
  | some d =>
      let rf : Raft n C :=
        { rf with
          currentTerm := d.currentTerm
          votedFor := d.votedFor
          log := if d.log.isEmpty then [⟨d.snapshotIndex, d.snapshotTerm, none⟩] else d.log
          commitIndex := d.commitIndex
          lastApplied := d.snapshotIndex
          snapshot := ⟨d.snapshotIndex, d.snapshotTerm, rf.persister.snapshot⟩ }
      if 0 < rf.snapshot.index then send rf ⟨false, .snapshot rf.snapshot, rf.snapshot.index⟩
      else rf

/-- The values `Make` sets before it reads the persister. -/
def fresh (persister : Persister n C) (grow : Nat) : Raft n C where
  persister := persister
  applyChan := []
  state := .follower
  leaderId := none
  currentTerm := 0
  votedFor := none
  log := [⟨0, 0, none⟩]
  spare := List.replicate grow LogEntry.zero
  memory := ⟨[], []⟩
  commitIndex := 0
  lastApplied := 0
  nextIndex _ := 0
  matchIndex _ := 0
  snapshot := ⟨0, 0, []⟩

/-- A server as `Make` returns it. -/
def make (persister : Persister n C) (grow : Nat) : Raft n C := readPersist (fresh persister grow)

/-! ## 4. Elections -/

/-- The lines every path to a later term has: no vote in it, follower, persisted. -/
def stepDown (rf : Raft n C) (term : Nat) : Raft n C :=
  persist { rf with currentTerm := term, votedFor := none, state := .follower }

/-- The check both handlers begin with, for a request whose term is not older. -/
def catchUp (rf : Raft n C) (term : Nat) : Raft n C :=
  if rf.currentTerm < term then stepDown rf term else rf

/-- The test of a voter: it has not voted for another, and the candidate's log is up to date. -/
def mayVote (rf : Raft n C) (args : RequestVoteArgs n) : Bool :=
  decide ((rf.votedFor = none ∨ rf.votedFor = some args.candidateId) ∧
    ((getLastLogUnLock rf).term < args.lastLogTerm ∨
      ((getLastLogUnLock rf).term = args.lastLogTerm ∧
        (getLastLogUnLock rf).index ≤ args.lastLogIndex)))

def requestVote (rf : Raft n C) (args : RequestVoteArgs n) : Raft n C × RequestVoteReply :=
  if rf.currentTerm ≤ args.term then
    let rf := catchUp rf args.term
    if mayVote rf args then
      (persist { rf with votedFor := some args.candidateId, state := .follower },
        ⟨rf.currentTerm, true⟩)
    else (rf, ⟨rf.currentTerm, false⟩)
  else (rf, ⟨rf.currentTerm, false⟩)

/-- Lines 749-758 of `startOneElection`. -/
def becomeCandidate (rf : Raft n C) (me : Fin n) : Raft n C :=
  persist { rf with state := .candidate, currentTerm := rf.currentTerm + 1, votedFor := some me }

/-- Lines 767-776: the request is built from the term and the log of that moment. -/
def voteArgs (rf : Raft n C) (me : Fin n) : RequestVoteArgs n :=
  ⟨rf.currentTerm, me, (getLastLogUnLock rf).index, (getLastLogUnLock rf).term⟩

/-- Lines 807-814. -/
def becomeLeader (rf : Raft n C) (me : Fin n) : Raft n C :=
  persist
    { rf with
      nextIndex := fun _ => rf.log.length + rf.snapshot.index
      matchIndex := fun _ => rf.snapshot.index
      leaderId := some me
      state := .leader }

/-! ## 5. The AppendEntries handler -/

/-- Lines 370-380: a request that starts inside the snapshot is cut at the snapshot. From here on
    `PrevLogIndex` is at least the snapshot's index. -/
def trimArgs (rf : Raft n C) (args : AppendEntriesArgs n C) : Nat × Nat × List (LogEntry C) :=
  if args.prevLogIndex < rf.snapshot.index then
    (rf.snapshot.index, rf.snapshot.term,
      args.entries.dropWhile fun e => decide (e.index ≤ rf.snapshot.index))
  else (args.prevLogIndex.toNat, args.prevLogTerm, args.entries)

/-- Lines 382-383. -/
def prevConsistent (rf : Raft n C) (prev prevTerm : Nat) : Option Bool :=
  if prev ≤ (getLastLogUnLock rf).index then
    (getLogByIndexUnLock rf prev).map fun e => decide (e.term = prevTerm)
  else some false

/-- The loop of lines 388-394, from position `next` on: are the terms of `entries` those of the
    log? -/
def isMatch (rf : Raft n C) : Nat → List (LogEntry C) → Option Bool
  | _, [] => some true
  | next, e :: es =>
      if (getLastLogUnLock rf).index < next then some false
      else
        match getLogByIndexUnLock rf next with
        | none => none
        | some x => if x.term = e.term then isMatch rf (next + 1) es else some false

/-- Lines 397-403. -/
def copyEntries (rf : Raft n C) (prev : Nat) (entries : List (LogEntry C)) (grow : Nat) :
    Option (Raft n C) :=
  if prev = (getLastLogUnLock rf).index then some (appendLog rf rf.log rf.spare entries grow)
  else
    match sliceLog rf 0 ((prev : Int) + 1 - rf.snapshot.index) with
    | none => none
    | some (log, spare) => some (appendLog rf log spare entries grow)

/-- Lines 406-410. -/
def advanceCommit (rf : Raft n C) (leaderCommit indexOfLastNewEntry : Nat) : Raft n C :=
  if rf.commitIndex < leaderCommit then
    { rf with commitIndex := min leaderCommit indexOfLastNewEntry }
  else rf

def updateSnapshotUnLock (rf : Raft n C) (snapshot : Snapshot) (grow : Nat) : Raft n C :=
  if rf.snapshot.index < snapshot.index then
    match rf.log.dropWhile fun e => decide (e.index ≠ snapshot.index) with
    | [] =>
        { rf with
          snapshot := snapshot
          log := [⟨snapshot.index, snapshot.term, none⟩]
          spare := List.replicate grow LogEntry.zero
          memory := ⟨rf.arrays, []⟩ }
    | e :: es =>
        { rf with
          snapshot := snapshot
          log := e :: es
          memory := rf.cutOff (rf.log.takeWhile fun e => decide (e.index ≠ snapshot.index)) }
  else rf

/-- The loop of lines 433-439; the argument is `reply.ConflictIndex`, one above the loop's `i`. -/
def conflictLoop (rf : Raft n C) (conflictTerm : Nat) : Nat → Option Nat
  | 0 => some 0
  | i + 1 =>
      if rf.snapshot.index < i then
        match getLogByIndexUnLock rf i with
        | none => none
        | some x => if x.term = conflictTerm then conflictLoop rf conflictTerm i else some (i + 1)
      else some (i + 1)

/-- Lines 421-440: `ConflictIndex` and `ConflictTerm`. -/
def conflict (rf : Raft n C) (prev : Nat) : Option (Nat × Nat) :=
  if (getLastLogUnLock rf).index < prev + 1 then some ((getLastLogUnLock rf).index, 0)
  else
    match getLogByIndexUnLock rf prev with
    | none => none
    | some x => (conflictLoop rf x.term prev).map fun i => (i, x.term)

/-- Lines 384-418, once the entry before is known to be consistent. -/
def acceptEntries (rf : Raft n C) (args : AppendEntriesArgs n C) (prev : Nat)
    (entries : List (LogEntry C)) (grow : Nat) : Option (Raft n C) :=
  match isMatch rf (prev + 1) entries with
  | none => none
  | some m =>
      match (if m then some rf else copyEntries rf prev entries grow) with
      | none => none
      | some rf' =>
          let rf' := advanceCommit { rf' with state := .follower } args.leaderCommit
            (prev + entries.length)
          some (persist (updateSnapshotUnLock rf' args.logSnapshot grow))

/-- **The handler.** The third component says whether it starts an `apply` goroutine. -/
def appendEntries (rf : Raft n C) (args : AppendEntriesArgs n C) (grow : Nat) :
    Option (Raft n C × AppendEntriesReply × Bool) :=
  if rf.currentTerm ≤ args.term then
    let rf := catchUp rf args.term
    let t := trimArgs rf args
    match prevConsistent rf t.1 t.2.1 with
    | none => none
    | some true =>
        match acceptEntries rf args t.1 t.2.2 grow with
        | none => none
        | some rf' =>
            some (rf', ⟨rf.currentTerm, true, 0, 0⟩, decide (rf.commitIndex < args.leaderCommit))
    | some false =>
        match conflict rf t.1 with
        | none => none
        | some (i, c) => some (rf, ⟨rf.currentTerm, false, i, c⟩, false)
  else some (rf, ⟨rf.currentTerm, false, 0, 0⟩, false)

/-! ## 6. The leader's side of AppendEntries -/

/-- Lines 531-553: the request for a peer whose `nextIndex` is `next`. -/
def appendArgs (rf : Raft n C) (me : Fin n) (next index term commitIndex : Nat) :
    Option (AppendEntriesArgs n C) :=
  match getLogByIndexUnLock rf ((next : Int) - 1) with
  | none => none
  | some prevLog =>
      let entries : Option (List (LogEntry C)) :=
        if next < index + 1 then
          if next < rf.snapshot.index then
            (sliceLog rf 0 ((index : Int) - rf.snapshot.index + 1)).map (·.1)
          else
            (sliceLog rf ((next : Int) - rf.snapshot.index)
              ((index : Int) - rf.snapshot.index + 1)).map (·.1)
        else some []
      entries.map fun es =>
        { term := term
          leaderId := me
          prevLogIndex := (next : Int) - 1
          prevLogTerm := prevLog.term
          entries := es
          leaderCommit := commitIndex
          logSnapshot := rf.snapshot }

/-- Where the entries of such a request stand, in the array of that moment. -/
def entriesSlice (rf : Raft n C) (next : Nat) : Slice :=
  ⟨rf.memory.old.length, rf.memory.front.length + (next - rf.snapshot.index)⟩

/-- What `m` slots of a slice hold now, from its position `i` on. -/
def read (rf : Raft n C) (slice : Slice) (i m : Nat) : List (LogEntry C) :=
  (((rf.arrays[slice.array]?).getD []).drop (slice.start + i)).take m

/-- `m` more entries of a slice of `len` slots, behind those that were read before. -/
def readOn (rf : Raft n C) (slice : Slice) (len m : Nat) (encoded : List (LogEntry C)) :
    List (LogEntry C) :=
  encoded ++ rf.read slice encoded.length (min m (len - encoded.length))

/-- The loop of lines 468-472, from `conflictIndex` down to the snapshot. -/
def findDown (rf : Raft n C) (conflictTerm : Nat) : Nat → Option Nat
  | 0 => some 0
  | i + 1 =>
      if rf.snapshot.index < i + 1 then
        match getLogByIndexUnLock rf ((i : Int) + 1) with
        | none => none
        | some x => if x.term = conflictTerm then some (i + 1) else findDown rf conflictTerm i
      else some (i + 1)

/-- The loop of lines 475-480; `fuel` is how far `i` is from `nextIndex`. -/
def findUp (rf : Raft n C) (conflictTerm : Nat) : (fuel : Nat) → Nat → Option Nat
  | 0, conflictIndex => some conflictIndex
  | k + 1, conflictIndex =>
      match getLogByIndexUnLock rf ((conflictIndex : Int) + 1) with
      | none => none
      | some x =>
          if x.term = conflictTerm then findUp rf conflictTerm k (conflictIndex + 1)
          else some conflictIndex

def getNextIndex (rf : Raft n C) (reply : AppendEntriesReply) (nextIndex : Nat) : Option Nat :=
  if reply.conflictTerm = 0 then some reply.conflictIndex
  else
    match getLogByIndexUnLock rf reply.conflictIndex with
    | none => none
    | some x =>
        if reply.conflictTerm ≤ x.term then
          match findDown rf reply.conflictTerm reply.conflictIndex with
          | none => none
          | some i =>
              if i = 0 then some reply.conflictIndex
              else (findUp rf reply.conflictTerm (nextIndex - (i + 1)) i).map (· + 1)
        else some reply.conflictIndex

/-- Lines 617-620. -/
def matched (rf : Raft n C) (u : Fin n) (index : Nat) : Raft n C :=
  if rf.nextIndex u < index + 1 then
    { rf with
      nextIndex := Function.update rf.nextIndex u (index + 1)
      matchIndex := Function.update rf.matchIndex u index }
  else rf

/-! ## 7. Start, apply, snapshots -/

/-- The entry `Start` appends. -/
def newEntry (rf : Raft n C) (command : Option C) : LogEntry C :=
  ⟨rf.snapshot.index + rf.log.length, rf.currentTerm, command⟩

/-- Lines 694-702. -/
def startLog (rf : Raft n C) (command : Option C) (grow : Nat) : Raft n C :=
  persist (appendLog rf rf.log rf.spare [newEntry rf command] grow)

/-- The loop of lines 660-668, `k` entries from `lastApplied + 1` on. -/
def applyLoop (rf : Raft n C) : Nat → Option (Raft n C)
  | 0 => some rf
  | k + 1 =>
      match getLogByIndexUnLock rf ((rf.lastApplied : Int) + 1) with
      | none => none
      | some e =>
          applyLoop
            (send { rf with lastApplied := rf.lastApplied + 1 }
              ⟨true, .value e.log, rf.lastApplied + 1⟩) k

/-- Lines 642-652: a snapshot that is ahead of what was delivered is handed over first. -/
def handSnapshot (rf : Raft n C) : Raft n C :=
  if rf.lastApplied < rf.snapshot.index then
    { send rf ⟨false, .snapshot rf.snapshot, 0⟩ with lastApplied := rf.snapshot.index }
  else rf

def apply (rf : Raft n C) : Option (Raft n C) :=
  let rf := handSnapshot rf
  if rf.commitIndex < rf.snapshot.index then some rf
  else applyLoop rf (rf.commitIndex - rf.lastApplied)

def saveSnapshot (rf : Raft n C) (index : Nat) (storage : List UInt8) : Option (Raft n C) :=
  if rf.snapshot.index < index then
    match getLogByIndexUnLock rf index,
      sliceLog rf ((index : Int) - rf.snapshot.index) rf.log.length with
    | some e, some (log, spare) =>
        some (persist
          { rf with
            snapshot := ⟨index, e.term, storage⟩
            log := log
            spare := spare
            memory := rf.cutOff (rf.log.take (index - rf.snapshot.index)) })
    | _, _ => none
  else some rf

end Raft

end Mit6824
