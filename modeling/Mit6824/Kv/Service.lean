/-
  File:      Mit6824/Kv/Service.lean
  Subject:   THE KEY/VALUE SERVICE (kvraft/server.go lines 48-171, client.go lines 48-108) without
             snapshots (`maxraftstate = -1`), over a Raft that is taken to be correct.

  Raft is `started`, the commands that were ever passed to `Start`, and `agreed`, the one sequence
  all servers are delivered: it grows at its end, by any command that was started, so a command
  stands behind everything that was agreed on, let alone delivered, before its `Start`. Each server
  takes from it in order and begins anew after a restart.

  One step is one section under `kv.mu`, one event of the network, or one turn of a clerk's loop.
  An `Rpc` is a request with the goroutine that handles it; it is handled at most once, at any
  time, or never, and the clerk may give it up at any time. A command names in `notifyChan` the
  handler that waits for it: the channel is lost when a command goes over the network or to disk,
  so only a handler of the same, still running server can be notified, and only if it waits.

  `hist` records the calls and the returns that come from a reply. Its numbers (`stamp`, `since`,
  `point`: how many commands were agreed on, or written) are read by no step.
-/
import Mit6824.Lib.Runs
import Mit6824.Lib.Linearizable
import Mit6824.Kv.Server

namespace Mit6824.Kv

open Lib

/-! ## 1. What a clerk is asked for -/

/-- `KvInput` of linearizability/models.go. -/
inductive KvInput where
  | get (key : String)
  | put (key value : String)
  | append (key value : String)
  deriving DecidableEq, Repr

/-- **The service as it should be**: one map from keys to strings. -/
def kvModel : SeqObject (String → Option String) KvInput String where
  init _ := none
  step state
    | .get key => (state, (state key).getD "")
    | .put key value => (Function.update state key (some value), "")
    | .append key value =>
        (Function.update state key (some ((state key).getD "" ++ value)), "")

def Op.input : Op → KvInput
  | .get args => .get args.key
  | .putAppend args =>
      match args.op with
      | .put => .put args.key args.value
      | .append => .append args.key args.value

/-! ## 2. Clerks, requests, servers -/

/-- `reply.Err`: `""`, `"NotFoundError"`, `"NotLeaderError"`. -/
inductive Err where
  | none
  | notFoundError
  | notLeaderError
  deriving DecidableEq, Repr

structure Reply where
  err : Err
  value : String
  deriving DecidableEq, Repr

/-- A call of `Clerk.Get`, `Put` or `Append`: whose, what it asks for, and when it was made. -/
structure Call (m : Nat) where
  clerk : Fin m
  req : Op
  stamp : Nat

/-- A turn of the loop in `Clerk.Get` or `Clerk.PutAppend`: `tries` is its `i`. -/
structure Calling where
  call : Nat
  tries : Nat
  rpc : Option Nat

structure Clerk where
  leaderId : Nat
  globalId : Int
  calling : Option Calling

/-- Where the handler of a request stands. -/
inductive Stage where
  | sent
  /-- Past the look for a repeated request (line 116). -/
  | checked
  /-- After `Start`, at the `select` of lines 129-138. -/
  | waiting
  /-- The channel has been read (line 130). -/
  | notified (index : Nat)
  /-- `requestRaft` has returned true. -/
  | granted
  | replied (reply : Reply) (point : Nat)
  | gone
  deriving DecidableEq, Repr

/-- A crash of the server ends its goroutines; what is on the network stays there. -/
def Stage.crash : Stage → Stage
  | .checked | .waiting | .notified _ | .granted => .gone
  | stage => stage

structure Rpc (n : Nat) where
  call : Nat
  server : Fin n
  req : Op
  stage : Stage

/-- A command as it was passed to `Start`. -/
structure Command where
  op : Op
  notifyChan : Nat
  call : Nat
  since : Nat
  deriving DecidableEq

/-- Where `applyLoop` stands: waiting for a message, between the two sections of `apply`, or
    before the sending on the channel (line 106). -/
inductive Loop where
  | idle
  | storing (args : PutAppendArgs)
  | notifying
  deriving DecidableEq, Repr

/-- A `KVServer`; `applied` messages have been taken from `applyCh`. -/
structure Replica where
  kv : Tables
  lastLogIndex : Nat
  applied : Nat
  loop : Loop

/-- How many commands `Storage` has seen. -/
def Replica.written (R : Replica) : Nat :=
  match R.loop with
  | .storing _ => R.applied - 1
  | _ => R.applied

/-- `StartKVServer`. -/
def startKVServer : Replica := ⟨.empty, 0, 0, .idle⟩

/-- An entry of the record. -/
inductive Mark where
  | call (stamp id : Nat) (input : KvInput)
  | wrote (stamp id : Nat)
  | read (stamp id point : Nat) (key value : String)

def Mark.stamp : Mark → Nat
  | .call stamp _ _ | .wrote stamp _ | .read stamp _ _ _ _ => stamp

def Mark.event : Mark → CallEvent Nat KvInput String
  | .call _ id input => .call id input
  | .wrote _ id => .ret id ""
  | .read _ id _ _ value => .ret id value

structure Service (n m : Nat) where
  replicas : Fin n → Replica
  clerks : Fin m → Clerk
  calls : List (Call m)
  rpcs : List (Rpc n)
  started : List Command
  agreed : List Command
  hist : List Mark

inductive Action (n m : Nat) where
  | call (c : Fin m) (input : KvInput)
  | send (c : Fin m)
  | fail (c : Fin m)
  | receive (c : Fin m)
  | exhaust (c : Fin m)
  | check (r : Nat)
  | start (r : Nat) (isLeader : Bool)
  | timeout (r : Nat)
  | confirm (r : Nat)
  | finish (r : Nat)
  | agree (i : Nat)
  | take (v : Fin n)
  | store (v : Fin n)
  | notify (v : Fin n) (received : Bool)
  | restart (v : Fin n)

namespace Service

variable {n m : Nat}

def init (n m : Nat) : Service n m where
  replicas _ := startKVServer
  clerks _ := ⟨0, 0, none⟩
  calls := []
  rpcs := []
  started := []
  agreed := []
  hist := []

def setClerk (s : Service n m) (c : Fin m) (ck : Clerk) : Service n m :=
  { s with clerks := Function.update s.clerks c ck }

def setReplica (s : Service n m) (v : Fin n) (R : Replica) : Service n m :=
  { s with replicas := Function.update s.replicas v R }

def setStage (s : Service n m) (r : Nat) (R : Rpc n) (stage : Stage) : Service n m :=
  { s with rpcs := s.rpcs.set r { R with stage := stage } }

/-! ## 3. The clerk's loop -/

/-- The number of turns of the loop. -/
def attempts : Nat := 8000

/-- What a clerk with this `me` and `globalId` sends, and its next `globalId`. -/
def request (me globalId : Int) : KvInput → Op × Int
  | .get key => (.get ⟨key⟩, globalId)
  | .put key value => (.putAppend ⟨key, value, .put, me, globalId + 1⟩, globalId + 1)
  | .append key value => (.putAppend ⟨key, value, .append, me, globalId + 1⟩, globalId + 1)

def call (me : Fin m → Int) (s : Service n m) (c : Fin m) (input : KvInput) :
    Option (Service n m) :=
  let ck := s.clerks c
  match ck.calling with
  | some _ => none
  | none =>
      let r := request (me c) ck.globalId input
      some { s.setClerk c { ck with
               globalId := r.2
               calling := some ⟨s.calls.length, 0, none⟩ } with
             calls := s.calls ++ [⟨c, r.1, s.agreed.length⟩]
             hist := s.hist ++ [.call s.agreed.length s.calls.length input] }

/-- `ck.servers[ck.leaderId].Call(...)`: the request goes out. -/
def send (s : Service n m) (c : Fin m) : Option (Service n m) :=
  let ck := s.clerks c
  match ck.calling with
  | none => none
  | some K =>
      if h : ck.leaderId < n ∧ K.tries < attempts ∧ K.rpc = none then
        (s.calls[K.call]?).map fun k =>
          { s.setClerk c { ck with calling := some { K with rpc := some s.rpcs.length } } with
            rpcs := s.rpcs ++ [⟨K.call, ⟨ck.leaderId, h.1⟩, k.req, .sent⟩] }
      else none

/-- The turn of the loop after a call that failed. -/
def retry (n : Nat) (ck : Clerk) (K : Calling) : Clerk :=
  { ck with
    leaderId := (ck.leaderId + 1) % n
    calling := some { K with tries := K.tries + 1, rpc := none } }

/-- `Call` returns false: request or reply are lost, or the network has no patience. -/
def fail (s : Service n m) (c : Fin m) : Option (Service n m) :=
  match (s.clerks c).calling with
  | none => none
  | some K => if K.rpc = none then none else some (s.setClerk c (retry n (s.clerks c) K))

/-- `Call` returns true. -/
def receive (s : Service n m) (c : Fin m) : Option (Service n m) :=
  match (s.clerks c).calling with
  | none => none
  | some K =>
      match K.rpc.bind (s.rpcs[·]?), s.calls[K.call]? with
      | some R, some k =>
          match R.stage with
          | .replied reply point =>
              if reply.err = .notLeaderError then some (s.setClerk c (retry n (s.clerks c) K))
              else
                let mark := match k.req with
                  | .get args => Mark.read s.agreed.length K.call point args.key reply.value
                  | .putAppend _ => Mark.wrote s.agreed.length K.call
                some { s.setClerk c { s.clerks c with calling := none } with
                       hist := s.hist ++ [mark] }
          | _ => none
      | _, _ => none

/-- The loop ends without a reply. -/
def exhaust (s : Service n m) (c : Fin m) : Option (Service n m) :=
  match (s.clerks c).calling with
  | none => none
  | some K =>
      if K.rpc = none ∧ ¬ K.tries < attempts then
        some (s.setClerk c { s.clerks c with calling := none })
      else none

/-! ## 4. The handlers -/

/-- Line 116. `Get` passes -1 for both ids. -/
def isAnswered (kv : Tables) : Op → Bool
  | .get _ => false
  | .putAppend args => decide (0 < args.msgId) && (kv.isRepeated args.clientId args.msgId false).1

def check (s : Service n m) (r : Nat) : Option (Service n m) :=
  match s.rpcs[r]? with
  | none => none
  | some R =>
      match R.stage with
      | .sent =>
          some (s.setStage r R
            (if isAnswered (s.replicas R.server).kv R.req then .granted else .checked))
      | _ => none

/-- `kv.rf.Start(op)`. -/
def start (s : Service n m) (r : Nat) (isLeader : Bool) : Option (Service n m) :=
  match s.rpcs[r]? with
  | none => none
  | some R =>
      match R.stage with
      | .checked =>
          if isLeader then
            some { s.setStage r R .waiting with
                   started := s.started ++ [⟨R.req, r, R.call, s.agreed.length⟩] }
          else some (s.setStage r R (.replied ⟨.notLeaderError, ""⟩ 0))
      | _ => none

def timeout (s : Service n m) (r : Nat) : Option (Service n m) :=
  match s.rpcs[r]? with
  | none => none
  | some R =>
      match R.stage with
      | .waiting => some (s.setStage r R (.replied ⟨.notLeaderError, ""⟩ 0))
      | _ => none

/-- Lines 131-135. -/
def confirm (s : Service n m) (r : Nat) : Option (Service n m) :=
  match s.rpcs[r]? with
  | none => none
  | some R =>
      match R.stage with
      | .notified index =>
          some ((s.setReplica R.server { s.replicas R.server with lastLogIndex := index }).setStage
            r R .granted)
      | _ => none

/-- What `Get` and `PutAppend` answer after `requestRaft` has returned true. -/
def answer (kv : Tables) : Op → Reply
  | .get args =>
      match kv.storage args.key with
      | some value => ⟨.none, value⟩
      | none => ⟨.notFoundError, ""⟩
  | .putAppend _ => ⟨.none, ""⟩

def finish (s : Service n m) (r : Nat) : Option (Service n m) :=
  match s.rpcs[r]? with
  | none => none
  | some R =>
      match R.stage with
      | .granted =>
          some (s.setStage r R (.replied (answer (s.replicas R.server).kv R.req)
            (s.replicas R.server).written))
      | _ => none

/-! ## 5. Raft and the apply loop -/

def agree (s : Service n m) (i : Nat) : Option (Service n m) :=
  (s.started[i]?).map fun cmd => { s with agreed := s.agreed ++ [cmd] }

/-- The next message, up to the end of `isRepeated`. -/
def take (s : Service n m) (v : Fin n) : Option (Service n m) :=
  let R := s.replicas v
  match R.loop, s.agreed[R.applied]? with
  | .idle, some cmd =>
      match cmd.op with
      | .get _ => some (s.setReplica v { R with applied := R.applied + 1, loop := .notifying })
      | .putAppend args =>
          let rep := R.kv.isRepeated args.clientId args.msgId true
          some (s.setReplica v { R with
            kv := rep.2
            applied := R.applied + 1
            loop := if rep.1 then .notifying else .storing args })
  | _, _ => none

def store (s : Service n m) (v : Fin n) : Option (Service n m) :=
  let R := s.replicas v
  match R.loop with
  | .storing args => some (s.setReplica v { R with kv := R.kv.store args, loop := .notifying })
  | _ => none

/-- Lines 106-109: somebody reads the channel, or nobody does. -/
def notify (s : Service n m) (v : Fin n) (received : Bool) : Option (Service n m) :=
  let R := s.replicas v
  match R.loop with
  | .notifying =>
      let s' := s.setReplica v { R with loop := .idle }
      match s.agreed[R.applied - 1]? with
      | none => some s'
      | some cmd =>
          match s.rpcs[cmd.notifyChan]? with
          | none => some s'
          | some W =>
              some (if received = true ∧ W.server = v ∧ W.stage = .waiting then
                s'.setStage cmd.notifyChan W (.notified R.applied) else s')
  | _ => none

def restart (s : Service n m) (v : Fin n) : Service n m :=
  { s.setReplica v startKVServer with
    rpcs := s.rpcs.map fun R => if R.server = v then { R with stage := R.stage.crash } else R }

/-- **One step of the service.** -/
def step (me : Fin m → Int) (s : Service n m) : Action n m → Option (Service n m)
  | .call c input => s.call me c input
  | .send c => s.send c
  | .fail c => s.fail c
  | .receive c => s.receive c
  | .exhaust c => s.exhaust c
  | .check r => s.check r
  | .start r isLeader => s.start r isLeader
  | .timeout r => s.timeout r
  | .confirm r => s.confirm r
  | .finish r => s.finish r
  | .agree i => s.agree i
  | .take v => s.take v
  | .store v => s.store v
  | .notify v received => s.notify v received
  | .restart v => some (s.restart v)

/-- The calls and the returns that came from a reply. -/
def history (s : Service n m) : List (CallEvent Nat KvInput String) := s.hist.map Mark.event

/-! ## 6. When a step runs, and what it leaves -/

section Inversion

variable {me : Fin m → Int} {s s' : Service n m} {c : Fin m} {v : Fin n} {r i : Nat}

theorem call_inv {input : KvInput} (h : s.call me c input = some s') :
    (s.clerks c).calling = none ∧
      s' = { s.setClerk c { s.clerks c with
               globalId := (request (me c) (s.clerks c).globalId input).2
               calling := some ⟨s.calls.length, 0, none⟩ } with
             calls := s.calls ++
               [⟨c, (request (me c) (s.clerks c).globalId input).1, s.agreed.length⟩]
             hist := s.hist ++ [.call s.agreed.length s.calls.length input] } := by
  unfold call at h
  dsimp only at h
  split at h
  · cases h
  · rename_i hc
    exact ⟨hc, (Option.some.inj h).symm⟩

theorem send_inv (h : s.send c = some s') :
    ∃ (K : Calling) (hn : (s.clerks c).leaderId < n) (k : Call m),
      (s.clerks c).calling = some K ∧ s.calls[K.call]? = some k ∧
      s' = { s.setClerk c { s.clerks c with
               calling := some { K with rpc := some s.rpcs.length } } with
             rpcs := s.rpcs ++ [⟨K.call, ⟨(s.clerks c).leaderId, hn⟩, k.req, .sent⟩] } := by
  unfold send at h
  dsimp only at h
  split at h
  · cases h
  · rename_i K hK
    split at h
    · rename_i hc
      obtain ⟨k, hk, h⟩ := Option.map_eq_some_iff.mp h
      exact ⟨K, hc.1, k, hK, hk, h.symm⟩
    · cases h

theorem fail_inv (h : s.fail c = some s') :
    ∃ K, (s.clerks c).calling = some K ∧ s' = s.setClerk c (retry n (s.clerks c) K) := by
  unfold fail at h
  split at h
  · cases h
  · rename_i K hK
    split at h
    · cases h
    · exact ⟨K, hK, (Option.some.inj h).symm⟩

/-- A reply sends the clerk to the next server, or ends its call. -/
theorem receive_inv (h : s.receive c = some s') :
    ∃ K r R k reply point, (s.clerks c).calling = some K ∧ K.rpc = some r ∧
      s.rpcs[r]? = some R ∧ s.calls[K.call]? = some k ∧ R.stage = .replied reply point ∧
      (s' = s.setClerk c (retry n (s.clerks c) K) ∨
        (reply.err ≠ .notLeaderError ∧
          s' = { s.setClerk c { s.clerks c with calling := none } with
                 hist := s.hist ++ [match k.req with
                   | .get args => Mark.read s.agreed.length K.call point args.key reply.value
                   | .putAppend _ => Mark.wrote s.agreed.length K.call] })) := by
  unfold receive at h
  split at h
  · cases h
  · rename_i K hK
    split at h
    · rename_i R k hR hk
      obtain ⟨r, hr, hR⟩ := Option.bind_eq_some_iff.mp hR
      split at h
      · rename_i reply point hst
        refine ⟨K, r, R, k, reply, point, hK, hr, hR, hk, hst, ?_⟩
        split at h
        · exact Or.inl (Option.some.inj h).symm
        · rename_i herr
          exact Or.inr ⟨herr, (Option.some.inj h).symm⟩
      · cases h
    · cases h

theorem exhaust_inv (h : s.exhaust c = some s') :
    ∃ K, (s.clerks c).calling = some K ∧
      s' = s.setClerk c { s.clerks c with calling := none } := by
  unfold exhaust at h
  split at h
  · cases h
  · rename_i K hK
    split at h
    · exact ⟨K, hK, (Option.some.inj h).symm⟩
    · cases h

theorem check_inv (h : s.check r = some s') :
    ∃ R, s.rpcs[r]? = some R ∧ R.stage = .sent ∧
      s' = s.setStage r R
        (if isAnswered (s.replicas R.server).kv R.req then .granted else .checked) := by
  unfold check at h
  split at h
  · cases h
  · rename_i R hR
    split at h
    · rename_i hst
      exact ⟨R, hR, hst, (Option.some.inj h).symm⟩
    · cases h

theorem start_inv {isLeader : Bool} (h : s.start r isLeader = some s') :
    ∃ R, s.rpcs[r]? = some R ∧ R.stage = .checked ∧
      (s' = { s.setStage r R .waiting with
              started := s.started ++ [⟨R.req, r, R.call, s.agreed.length⟩] } ∨
        s' = s.setStage r R (.replied ⟨.notLeaderError, ""⟩ 0)) := by
  unfold start at h
  split at h
  · cases h
  · rename_i R hR
    split at h
    · rename_i hst
      refine ⟨R, hR, hst, ?_⟩
      split at h
      · exact Or.inl (Option.some.inj h).symm
      · exact Or.inr (Option.some.inj h).symm
    · cases h

theorem timeout_inv (h : s.timeout r = some s') :
    ∃ R, s.rpcs[r]? = some R ∧ R.stage = .waiting ∧
      s' = s.setStage r R (.replied ⟨.notLeaderError, ""⟩ 0) := by
  unfold timeout at h
  split at h
  · cases h
  · rename_i R hR
    split at h
    · rename_i hst
      exact ⟨R, hR, hst, (Option.some.inj h).symm⟩
    · cases h

theorem confirm_inv (h : s.confirm r = some s') :
    ∃ R index, s.rpcs[r]? = some R ∧ R.stage = .notified index ∧
      s' = (s.setReplica R.server { s.replicas R.server with lastLogIndex := index }).setStage
        r R .granted := by
  unfold confirm at h
  split at h
  · cases h
  · rename_i R hR
    split at h
    · rename_i index hst
      exact ⟨R, index, hR, hst, (Option.some.inj h).symm⟩
    · cases h

theorem finish_inv (h : s.finish r = some s') :
    ∃ R, s.rpcs[r]? = some R ∧ R.stage = .granted ∧
      s' = s.setStage r R (.replied (answer (s.replicas R.server).kv R.req)
        (s.replicas R.server).written) := by
  unfold finish at h
  split at h
  · cases h
  · rename_i R hR
    split at h
    · rename_i hst
      exact ⟨R, hR, hst, (Option.some.inj h).symm⟩
    · cases h

theorem agree_inv (h : s.agree i = some s') :
    ∃ cmd, s.started[i]? = some cmd ∧ s' = { s with agreed := s.agreed ++ [cmd] } := by
  obtain ⟨cmd, hc, h⟩ := Option.map_eq_some_iff.mp h
  exact ⟨cmd, hc, h.symm⟩

/-- The message is a Get, a write that was seen before, or a new one. -/
theorem take_inv (h : s.take v = some s') :
    ∃ cmd, (s.replicas v).loop = .idle ∧ s.agreed[(s.replicas v).applied]? = some cmd ∧
      ((∃ args, cmd.op = .get args ∧ s' = s.setReplica v { s.replicas v with
          applied := (s.replicas v).applied + 1, loop := .notifying }) ∨
        (∃ args, cmd.op = .putAppend args ∧
          (s.replicas v).kv.Noted args.clientId args.msgId ∧
          s' = s.setReplica v { s.replicas v with
            applied := (s.replicas v).applied + 1, loop := .notifying }) ∨
        ∃ args, cmd.op = .putAppend args ∧
          ¬ (s.replicas v).kv.Noted args.clientId args.msgId ∧
          s' = s.setReplica v { s.replicas v with
            kv := ⟨(s.replicas v).kv.storage, Function.update (s.replicas v).kv.clientMsgId
              args.clientId (some args.msgId)⟩
            applied := (s.replicas v).applied + 1
            loop := .storing args }) := by
  unfold take at h
  dsimp only at h
  split at h
  · rename_i cmd hl hcmd
    refine ⟨cmd, hl, hcmd, ?_⟩
    split at h
    · rename_i args hop
      exact Or.inl ⟨args, hop, (Option.some.inj h).symm⟩
    · rename_i args hop
      by_cases hn : (s.replicas v).kv.Noted args.clientId args.msgId
      · rw [Tables.isRepeated_old hn] at h
        exact Or.inr (Or.inl ⟨args, hop, hn, (Option.some.inj h).symm⟩)
      · rw [Tables.isRepeated_new hn] at h
        exact Or.inr (Or.inr ⟨args, hop, hn, (Option.some.inj h).symm⟩)
  · cases h

theorem store_inv (h : s.store v = some s') :
    ∃ args, (s.replicas v).loop = .storing args ∧
      s' = s.setReplica v { s.replicas v with
        kv := (s.replicas v).kv.store args, loop := .notifying } := by
  unfold store at h
  dsimp only at h
  split at h
  · rename_i args hl
    exact ⟨args, hl, (Option.some.inj h).symm⟩
  · cases h

/-- The command was waited for, or the channel is not read. -/
theorem notify_inv {received : Bool} (h : s.notify v received = some s') :
    (s.replicas v).loop = .notifying ∧
      ((∃ cmd W, s.agreed[(s.replicas v).applied - 1]? = some cmd ∧
          s.rpcs[cmd.notifyChan]? = some W ∧ W.server = v ∧ W.stage = .waiting ∧
          s' = (s.setReplica v { s.replicas v with loop := .idle }).setStage cmd.notifyChan W
            (.notified (s.replicas v).applied)) ∨
        s' = s.setReplica v { s.replicas v with loop := .idle }) := by
  unfold notify at h
  dsimp only at h
  split at h
  · rename_i hl
    refine ⟨hl, ?_⟩
    split at h
    · exact Or.inr (Option.some.inj h).symm
    · rename_i cmd hcmd
      split at h
      · exact Or.inr (Option.some.inj h).symm
      · rename_i W hW
        have h' := (Option.some.inj h).symm
        split at h'
        · rename_i hc
          exact Or.inl ⟨cmd, W, hcmd, hW, hc.2.1, hc.2.2, h'⟩
        · exact Or.inr h'
  · cases h

end Inversion

end Service

end Mit6824.Kv
