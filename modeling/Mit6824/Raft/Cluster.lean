/-
  File:      Mit6824/Raft/Cluster.lean
  Subject:   A CLUSTER OF RAFT SERVERS (raft/raft.go over labrpc): goroutines, calls in flight,
             crashes; one step is one section under `rf.mu`.

  A goroutine is where it stands between two sections: `Election` is one `startOneElection` with
  its counter `nVotes` and one `VoteCall` per peer, `StartCall` a `Start` between its two
  sections, `Beat` a `broadcastHeartBeat` between its two, `Cast` one `broadcastAppendEntries`
  with its shared `nReplica` and `isAgree` and one `PeerCall` per peer. `applies` counts the
  `go rf.apply()` that have not run yet.

  One thing a goroutine does outside of `rf.mu` is a step as well: the `Entries` of a request are
  a slice of the array of `rf.Log` (lines 538-545), and `labrpc.Call` reads them, one after the
  other, after `rf.mu` was given back (`encode`). What goes out is what the array holds then. An
  entry is read as a whole: Go gives no meaning to a read that a write meets half way.

  The network is part of the calls: a request that was `sent` is handled at most once, at any
  later moment and in any order, or never (lost, or its caller gave up); so is the reply. A crash
  ends the goroutines of a server (`alive`); its requests in flight survive it. Crash and restart
  are one step: nothing of the server happens in between, and the persister does not change. The
  same step stands for a panic, after which the process is gone: a section that panics has no
  successor.

  `startOneElection` runs at any time (any number of timeouts may have queued up one while the
  server was no leader), and so does a heartbeat; the service calls `Start` at any time and
  `SaveSnapshot` for an index that was delivered to it.

  `hist` is a history of what the sections did, newest first; no section reads it.
-/
import Mathlib.Logic.Function.Basic
import Mit6824.Raft.Server

namespace Mit6824

/-! ## 1. Goroutines and calls -/

/-- The goroutine of lines 779-818 for one peer. `counted` is one that has added to `nVotes`. -/
inductive VoteCall (n : Nat) where
  | idle
  | sent (args : RequestVoteArgs n)
  | replied (args : RequestVoteArgs n) (reply : RequestVoteReply)
  | checked (args : RequestVoteArgs n) (reply : RequestVoteReply)
  | counted (args : RequestVoteArgs n)
  | done

/-- One `startOneElection` after its first section. The loop of lines 762-820 has reached the
    peer `next`. -/
structure Election (n : Nat) where
  owner : Fin n
  alive : Bool
  next : Nat
  nVotes : Nat
  call : Fin n → VoteCall n

/-- The goroutine of lines 519-633 for one peer. `counted` is one that has added to
    `nReplica`. -/
inductive PeerCall (n : Nat) (C : Type) where
  | idle
  | retry
  | ready
  /-- The request is built and not yet sent: `args` has the entries as they were then, `slice` is
      where they stand, and `encoded` are those that were read meanwhile. -/
  | built (args : AppendEntriesArgs n C) (nextIndex : Nat) (slice : Slice)
      (encoded : List (LogEntry C))
  | sent (args : AppendEntriesArgs n C) (nextIndex : Nat)
  | replied (args : AppendEntriesArgs n C) (nextIndex : Nat) (reply : AppendEntriesReply)
  | checked (args : AppendEntriesArgs n C) (nextIndex : Nat) (reply : AppendEntriesReply)
  | counted (args : AppendEntriesArgs n C)
  | done

inductive CastStage where
  | spawned
  | sawLeader
  | running
  | ended
  deriving DecidableEq, Repr

/-- One `broadcastAppendEntries(index, term, commitIndex, nReplica)`. -/
structure Cast (n : Nat) (C : Type) where
  owner : Fin n
  alive : Bool
  index : Nat
  term : Nat
  commitIndex : Nat
  nReplica : Nat
  isAgree : Bool
  stage : CastStage
  peer : Fin n → PeerCall n C

/-- A `Start` that saw itself leader in `term` and has not appended yet. -/
structure StartCall (n : Nat) (C : Type) where
  owner : Fin n
  alive : Bool
  command : Option C
  term : Nat

/-- A `broadcastHeartBeat` that saw itself leader. -/
structure Beat (n : Nat) where
  owner : Fin n
  alive : Bool

/-- What a section did, for the record. -/
inductive Event (n : Nat) (C : Type) where
  /-- `v` voted for `c` in term `t`: `VotedFor = me` in its election, or `VoteGranted`. -/
  | vote (v c : Fin n) (t : Nat)
  /-- `v` set `state = 0` in term `t`, with this log. -/
  | lead (v : Fin n) (t : Nat) (log : List (LogEntry C))
  /-- `Start` appended `entry` on `v` in state `state` and returns `(index, term, true)`. -/
  | append (v : Fin n) (state : Role) (entry : LogEntry C) (index term : Nat)
  /-- `v` sent `args` to `u`. -/
  | send (v u : Fin n) (args : AppendEntriesArgs n C)
  /-- `v` answered `Success` in term `t`, with this log. -/
  | ack (v : Fin n) (t : Nat) (log : List (LogEntry C))
  /-- `v` set `commitIndex = index` at line 626 in term `t`, with this log. -/
  | commit (v : Fin n) (t index : Nat) (log : List (LogEntry C))
  /-- `v` crashed and was made anew, in term `t`. -/
  | restart (v : Fin n) (t : Nat)
  deriving DecidableEq

/-- The cluster. `past v` is what earlier instances of `v` sent on their channels. -/
structure Cluster (n : Nat) (C : Type) where
  rafts : Fin n → Raft n C
  past : Fin n → List (ApplyMsg C)
  elections : List (Election n)
  starts : List (StartCall n C)
  beats : List (Beat n)
  casts : List (Cast n C)
  applies : Fin n → Nat
  hist : List (Event n C)

/-- The sections, each with what it needs to know: whose, which goroutine, which peer, how much
    room an allocation leaves, how many entries are read. -/
inductive Action (n : Nat) (C : Type) where
  | startOneElection (v : Fin n)
  | voteArgs (e : Nat)
  | handleVote (e : Nat) (u : Fin n)
  | voteCheck (e : Nat) (u : Fin n)
  | voteReply (e : Nat) (u : Fin n)
  | startState (v : Fin n) (command : Option C)
  | startAppend (k grow : Nat)
  | beatState (v : Fin n)
  | beatSend (k : Nat)
  | castState (k : Nat)
  | castTerm (k : Nat)
  | peerState (k : Nat) (u : Fin n)
  | peerArgs (k : Nat) (u : Fin n)
  | encode (k : Nat) (u : Fin n) (m : Nat)
  | handleAppend (k : Nat) (u : Fin n) (grow : Nat)
  | peerCheck (k : Nat) (u : Fin n)
  | peerReply (k : Nat) (u : Fin n)
  | apply (v : Fin n)
  | saveSnapshot (v : Fin n) (index : Nat) (storage : List UInt8)
  | restart (v : Fin n) (grow : Nat)

namespace Cluster

variable {n : Nat} {C : Type}

/-- All servers as `Make` returns them on empty persisters. -/
def init (n : Nat) (C : Type) : Cluster n C where
  rafts _ := Raft.make ⟨none, []⟩ 0
  past _ := []
  elections := []
  starts := []
  beats := []
  casts := []
  applies _ := 0
  hist := []

/-- `len(rf.peers)/2 + 1`. -/
def majority (n : Nat) : Nat := n / 2 + 1

def setRaft (s : Cluster n C) (v : Fin n) (rf : Raft n C) : Cluster n C :=
  { s with rafts := Function.update s.rafts v rf }

def setCall (s : Cluster n C) (e : Nat) (E : Election n) (u : Fin n) (c : VoteCall n) :
    Cluster n C :=
  { s with elections := s.elections.set e { E with call := Function.update E.call u c } }

def setPeer (s : Cluster n C) (k : Nat) (B : Cast n C) (u : Fin n) (c : PeerCall n C) :
    Cluster n C :=
  { s with casts := s.casts.set k { B with peer := Function.update B.peer u c } }

def record (s : Cluster n C) (ev : Event n C) : Cluster n C := { s with hist := ev :: s.hist }

def spawnApply (s : Cluster n C) (v : Fin n) : Cluster n C :=
  { s with applies := Function.update s.applies v (s.applies v + 1) }

def spawnCast (s : Cluster n C) (v : Fin n) (index : Nat) : Cluster n C :=
  { s with
    casts := s.casts ++
      [{ owner := v
         alive := true
         index := index
         term := (s.rafts v).currentTerm
         commitIndex := (s.rafts v).commitIndex
         nReplica := 1
         isAgree := false
         stage := .spawned
         peer := fun _ => .idle }] }

/-! ## 2. Elections -/

def startOneElection (s : Cluster n C) (v : Fin n) : Cluster n C :=
  let rf := (s.rafts v).becomeCandidate v
  { (s.setRaft v rf).record (.vote v v rf.currentTerm) with
    elections := s.elections ++ [⟨v, true, 0, 1, fun _ => .idle⟩] }

/-- One turn of the loop over the peers. -/
def voteArgs (s : Cluster n C) (e : Nat) : Option (Cluster n C) :=
  match s.elections[e]? with
  | none => none
  | some E =>
      if h : E.alive = true ∧ E.next < n then
        let call : Fin n → VoteCall n :=
          if (⟨E.next, h.2⟩ : Fin n) = E.owner then E.call
          else Function.update E.call ⟨E.next, h.2⟩ (.sent ((s.rafts E.owner).voteArgs E.owner))
        some { s with elections := s.elections.set e { E with next := E.next + 1, call := call } }
      else none

def handleVote (s : Cluster n C) (e : Nat) (u : Fin n) : Option (Cluster n C) :=
  match s.elections[e]? with
  | none => none
  | some E =>
      match E.call u with
      | .sent args =>
          let r := (s.rafts u).requestVote args
          let s' := (s.setRaft u r.1).setCall e E u (.replied args r.2)
          some (if r.2.voteGranted then s'.record (.vote u args.candidateId r.2.term) else s')
      | _ => none

/-- Lines 783-788. -/
def voteCheck (s : Cluster n C) (e : Nat) (u : Fin n) : Option (Cluster n C) :=
  match s.elections[e]? with
  | none => none
  | some E =>
      match E.alive, E.call u with
      | true, .replied args reply =>
          some (s.setCall e E u
            (if (s.rafts E.owner).currentTerm = args.term then .checked args reply else .done))
      | _, _ => none

/-- Does this vote, counted, make its server the leader? -/
def winsVote (s : Cluster n C) (E : Election n) : Bool :=
  decide ((s.rafts E.owner).state = .candidate ∧ majority n ≤ E.nVotes + 1)

/-- Lines 790-798 for a refused vote, 801-816 for a granted one. -/
def voteReply (s : Cluster n C) (e : Nat) (u : Fin n) : Option (Cluster n C) :=
  match s.elections[e]? with
  | none => none
  | some E =>
      match E.alive, E.call u with
      | true, .checked args reply =>
          let rf := s.rafts E.owner
          if reply.voteGranted then
            let s' := s.setCall e { E with nVotes := E.nVotes + 1 } u (.counted args)
            if s.winsVote E then
              some ((s'.setRaft E.owner (rf.becomeLeader E.owner)).record
                (.lead E.owner rf.currentTerm rf.log))
            else some s'
          else
            let s' := s.setCall e E u .done
            some (if rf.currentTerm < reply.term then s'.setRaft E.owner (rf.stepDown reply.term)
              else s')
      | _, _ => none

/-! ## 3. Start and heartbeats -/

/-- `GetState` inside `Start`. On a server that is no leader `Start` returns here. -/
def startState (s : Cluster n C) (v : Fin n) (command : Option C) : Cluster n C :=
  if (s.rafts v).state = .leader then
    { s with starts := s.starts ++ [⟨v, true, command, (s.rafts v).currentTerm⟩] }
  else s

/-- Lines 693-708. -/
def startAppend (s : Cluster n C) (k grow : Nat) : Option (Cluster n C) :=
  match s.starts[k]? with
  | none => none
  | some S =>
      if S.alive then
        let rf := s.rafts S.owner
        let entry := rf.newEntry S.command
        let s' := (s.setRaft S.owner (rf.startLog S.command grow)).record
          (.append S.owner rf.state entry entry.index S.term)
        some ({ s' with starts := s.starts.set k { S with alive := false } }.spawnCast S.owner
          entry.index)
      else none

def beatState (s : Cluster n C) (v : Fin n) : Cluster n C :=
  if (s.rafts v).state = .leader then { s with beats := s.beats ++ [⟨v, true⟩] } else s

/-- Lines 844-849. -/
def beatSend (s : Cluster n C) (k : Nat) : Option (Cluster n C) :=
  match s.beats[k]? with
  | none => none
  | some b =>
      if b.alive then
        some ({ s with beats := s.beats.set k { b with alive := false } }.spawnCast b.owner
          (s.rafts b.owner).getLastLogUnLock.index)
      else none

/-! ## 4. broadcastAppendEntries -/

/-- Lines 502-504. -/
def castState (s : Cluster n C) (k : Nat) : Option (Cluster n C) :=
  match s.casts[k]? with
  | none => none
  | some B =>
      if B.alive = true ∧ B.stage = .spawned then
        let stage := if (s.rafts B.owner).state = .leader then .sawLeader else .ended
        some { s with casts := s.casts.set k { B with stage := stage } }
      else none

/-- Lines 506-514: one goroutine for every peer, unless the term has changed. -/
def castTerm (s : Cluster n C) (k : Nat) : Option (Cluster n C) :=
  match s.casts[k]? with
  | none => none
  | some B =>
      if B.alive = true ∧ B.stage = .sawLeader then
        let B' : Cast n C :=
          if (s.rafts B.owner).currentTerm = B.term then
            { B with stage := .running, peer := fun i => if i = B.owner then .idle else .retry }
          else { B with stage := .ended }
        some { s with casts := s.casts.set k B' }
      else none

/-- Lines 521-523. -/
def peerState (s : Cluster n C) (k : Nat) (u : Fin n) : Option (Cluster n C) :=
  match s.casts[k]? with
  | none => none
  | some B =>
      match B.alive, B.peer u with
      | true, .retry =>
          some (s.setPeer k B u (if (s.rafts B.owner).state = .leader then .ready else .done))
      | _, _ => none

/-- Lines 525-555. -/
def peerArgs (s : Cluster n C) (k : Nat) (u : Fin n) : Option (Cluster n C) :=
  match s.casts[k]? with
  | none => none
  | some B =>
      match B.alive, B.peer u with
      | true, .ready =>
          let rf := s.rafts B.owner
          if rf.currentTerm ≠ B.term ∨ B.index < rf.lastApplied then some (s.setPeer k B u .done)
          else
            match rf.appendArgs B.owner (rf.nextIndex u) B.index B.term B.commitIndex with
            | none => none
            | some args =>
                some (s.setPeer k B u
                  (.built args (rf.nextIndex u) (rf.entriesSlice (rf.nextIndex u)) []))
      | _, _ => none

/-- `labrpc.Call` encodes `m` more entries, or as many as there are; with the last of them the
    request goes out. -/
def encode (s : Cluster n C) (k : Nat) (u : Fin n) (m : Nat) : Option (Cluster n C) :=
  match s.casts[k]? with
  | none => none
  | some B =>
      match B.alive, B.peer u with
      | true, .built args next slice encoded =>
          let entries := (s.rafts B.owner).readOn slice args.entries.length m encoded
          if encoded.length + m < args.entries.length then
            some (s.setPeer k B u (.built args next slice entries))
          else
            let args : AppendEntriesArgs n C := { args with entries := entries }
            some ((s.setPeer k B u (.sent args next)).record (.send B.owner u args))
      | _, _ => none

def handleAppend (s : Cluster n C) (k : Nat) (u : Fin n) (grow : Nat) : Option (Cluster n C) :=
  match s.casts[k]? with
  | none => none
  | some B =>
      match B.peer u with
      | .sent args next =>
          match (s.rafts u).appendEntries args grow with
          | none => none
          | some (rf, reply, spawn) =>
              let s' := (s.setRaft u rf).setPeer k B u (.replied args next reply)
              let s' := if reply.success then s'.record (.ack u reply.term rf.log) else s'
              some (if spawn then s'.spawnApply u else s')
      | _ => none

/-- Lines 568-573. -/
def peerCheck (s : Cluster n C) (k : Nat) (u : Fin n) : Option (Cluster n C) :=
  match s.casts[k]? with
  | none => none
  | some B =>
      match B.alive, B.peer u with
      | true, .replied args next reply =>
          some (s.setPeer k B u
            (if (s.rafts B.owner).currentTerm = args.term then .checked args next reply else .done))
      | _, _ => none

/-- Lines 576-608. -/
def peerFail (s : Cluster n C) (k : Nat) (B : Cast n C) (u : Fin n) (args : AppendEntriesArgs n C)
    (next : Nat) (reply : AppendEntriesReply) : Option (Cluster n C) :=
  let rf := s.rafts B.owner
  if args.term < reply.term then
    some ((s.setRaft B.owner (rf.stepDown reply.term)).setPeer k B u .done)
  else
    match rf.getNextIndex reply next with
    | none => none
    | some next' =>
        some ((s.setRaft B.owner { rf with nextIndex := Function.update rf.nextIndex u next' }).setPeer
          k B u .retry)

/-- Does this acknowledgement, counted, reach the majority for the first time? -/
def agrees (s : Cluster n C) (B : Cast n C) : Bool :=
  decide (B.isAgree = false ∧ (s.rafts B.owner).state = .leader ∧ majority n ≤ B.nReplica + 1)

/-- Lines 615-632. -/
def peerCount (s : Cluster n C) (k : Nat) (B : Cast n C) (u : Fin n)
    (args : AppendEntriesArgs n C) : Option (Cluster n C) :=
  let rf := (s.rafts B.owner).matched u B.index
  let s' := (s.setRaft B.owner rf).setPeer k
    { B with nReplica := B.nReplica + 1, isAgree := B.isAgree || s.agrees B } u (.counted args)
  if s.agrees B = true ∧ rf.commitIndex < B.index then
    match rf.getLogByIndexUnLock B.index with
    | none => none
    | some e =>
        if e.term = rf.currentTerm then
          some (((s'.setRaft B.owner { rf with commitIndex := B.index }).spawnApply B.owner).record
            (.commit B.owner (s.rafts B.owner).currentTerm B.index (s.rafts B.owner).log))
        else some s'
  else some s'

def peerReply (s : Cluster n C) (k : Nat) (u : Fin n) : Option (Cluster n C) :=
  match s.casts[k]? with
  | none => none
  | some B =>
      match B.alive, B.peer u with
      | true, .checked args next reply =>
          if reply.success then s.peerCount k B u args else s.peerFail k B u args next reply
      | _, _ => none

/-! ## 5. Delivery, snapshots, crashes -/

def apply (s : Cluster n C) (v : Fin n) : Option (Cluster n C) :=
  if 0 < s.applies v then
    ((s.rafts v).apply).map fun rf =>
      { s.setRaft v rf with applies := Function.update s.applies v (s.applies v - 1) }
  else none

/-- The service saves a snapshot of an index that was delivered to it. -/
def saveSnapshot (s : Cluster n C) (v : Fin n) (index : Nat) (storage : List UInt8) :
    Option (Cluster n C) :=
  if index ≤ (s.rafts v).lastApplied then
    ((s.rafts v).saveSnapshot index storage).map fun rf => s.setRaft v rf
  else none

/-- `v` crashes and is made anew from its persister. -/
def restart (s : Cluster n C) (v : Fin n) (grow : Nat) : Cluster n C :=
  { rafts := Function.update s.rafts v (Raft.make (s.rafts v).persister grow)
    past := Function.update s.past v (s.past v ++ (s.rafts v).applyChan)
    elections := s.elections.map fun E => if E.owner = v then { E with alive := false } else E
    starts := s.starts.map fun S => if S.owner = v then { S with alive := false } else S
    beats := s.beats.map fun b => if b.owner = v then { b with alive := false } else b
    casts := s.casts.map fun B => if B.owner = v then { B with alive := false } else B
    applies := Function.update s.applies v 0
    hist := .restart v (s.rafts v).currentTerm :: s.hist }

/-- **One step of the cluster.** -/
def step (s : Cluster n C) : Action n C → Option (Cluster n C)
  | .startOneElection v => some (s.startOneElection v)
  | .voteArgs e => s.voteArgs e
  | .handleVote e u => s.handleVote e u
  | .voteCheck e u => s.voteCheck e u
  | .voteReply e u => s.voteReply e u
  | .startState v command => some (s.startState v command)
  | .startAppend k grow => s.startAppend k grow
  | .beatState v => some (s.beatState v)
  | .beatSend k => s.beatSend k
  | .castState k => s.castState k
  | .castTerm k => s.castTerm k
  | .peerState k u => s.peerState k u
  | .peerArgs k u => s.peerArgs k u
  | .encode k u m => s.encode k u m
  | .handleAppend k u grow => s.handleAppend k u grow
  | .peerCheck k u => s.peerCheck k u
  | .peerReply k u => s.peerReply k u
  | .apply v => s.apply v
  | .saveSnapshot v index storage => s.saveSnapshot v index storage
  | .restart v grow => some (s.restart v grow)

/-- Everything `v` has ever sent on its channels, earlier instances included. -/
def everSent (s : Cluster n C) (v : Fin n) : List (ApplyMsg C) :=
  s.past v ++ (s.rafts v).applyChan

/-- Where the literals 0, 1 and 2 of `Fin 3` in the runs of the later files find their `NeZero 3`.
    It has a name, or every definition with such a literal would get a lemma of its own for it; and
    the zero of `Nat` is written out, or it would depend on the imports. -/
instance servers_ne_zero : @NeZero Nat Zero.ofOfNat0 3 := Nat.instNeZeroSucc

end Cluster

end Mit6824
