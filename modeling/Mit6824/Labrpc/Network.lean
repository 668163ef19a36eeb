/-
  File:      Mit6824/Labrpc/Network.lean
  Subject:   THE SIMULATED NETWORK (labrpc/labrpc.go) and the tester that crashes servers on it
             (raft/config.go `crash1`, `start1`; kvraft/config.go `ShutdownServer`, `StartServer`).

  A `Request` is one `Call` with the goroutines it starts: `processReq` (`Stage`) and the one that
  executes the handler (`Handler`). One step is one section under `rn.mu`, `rs.mu` or the lock of a
  server, or one event on a channel. Delays are left out (`LongDelays`, `LongReordering`, the
  sleeps): every step may wait. What `rand` decides is decided by the choice of the step.

  A `*Server` is a number, the place of its `Instance`; `AddServer` is given a fresh one each time.
  An instance that was shut down goes on: `Kill` only sets a flag, its handlers still run, its
  goroutines still write to its Persister. The tester's `saved[i]` is the Persister of the running
  instance, or a copy of its own.

  labgob gives back what it was given, so arguments and replies are values, with their numbers of
  bytes. `log.Fatalf` ends the process: such a step has no successor.

  * `splitMethod`, `Server.method` -- which handler a request is for;
  * `Net.step` -- the network, the servers, the tester;
  * `Net.connectOnce` -- the rule of `Connect`: once in the lifetime of an end;
  * `Net.Move`, `move_of_step` -- what a step can be.
-/
import Mit6824.Lib.Rpc

namespace Mit6824.Labrpc

open Lib

/-! ## 1. Data -/

structure ReqMsg (E A : Type) where
  endname : E
  svcMeth : String
  args : A

/-- What `readEndnameInfo` has found for a request that goes on. -/
structure Route (N : Type) where
  servername : N
  server : Nat
  reliable : Bool

/-- Where a `Call` and its `processReq` stand. -/
inductive Stage (N R : Type) where
  /-- At the `select` of lines 99-105. -/
  | calling
  | accepted
  /-- Lines 290-304. -/
  | refused
  | routed (route : Route N)
  /-- In the loop of lines 248-260. -/
  | waiting (route : Route N)
  | received (route : Route N) (reply : R)
  /-- The loop has ended with `serverDead`. -/
  | abandoned (route : Route N)
  /-- Past the check of line 268. -/
  | checked (route : Route N) (reply : R)
  | returned (reply : Option R)

/-- The goroutine of lines 237-240. -/
inductive Handler (R : Type) where
  | none
  | spawned (server : Nat)
  /-- Inside `dispatch`, counted. -/
  | dispatched (server : Nat)
  | executed (server : Nat) (reply : R)

structure Request (N E A R : Type) where
  req : ReqMsg E A
  stage : Stage N R
  handler : Handler R

structure Network (N E : Type) where
  reliable : Bool
  ends : E → Bool
  enabled : E → Bool
  servers : N → Option Nat
  connections : E → Option N
  /-- `done` is closed. -/
  done : Bool
  /-- The goroutine of `MakeNetwork` still runs. -/
  serving : Bool
  count : Nat
  bytes : Nat

/-- A `labrpc.Server` and what is behind it. -/
structure Instance (N S : Type) where
  name : N
  state : S
  count : Nat

/-- What the tester has for a server: `saved` alone, or an instance whose Persister is `saved`,
    not yet added to the network, added, or deleted again. -/
inductive Power (D : Type) where
  | down (saved : Option D)
  | made (server : Nat)
  | up (server : Nat)
  | deleted (server : Nat)

structure Net (N E S D A R : Type) where
  network : Network N E
  instances : List (Instance N S)
  power : N → Power D
  requests : List (Request N E A R)

/-- What runs behind a server name. `services` holds the methods of its receivers by the name of
    the type, a method takes the arguments and leaves a reply; `none` stands for one that does not
    return. -/
structure Server (S D A R K : Type) where
  makePersister : D
  persister : S → D
  midway : S → K → Option D
  shutdown : D → D
  start : D → K → S
  work : S → K → Option S
  services : String → Option (String → Option (S → A → K → Option (S × R)))

inductive Action (N E A K : Type) where
  | makeEnd (endname : E)
  | connect (endname : E) (servername : N)
  | enable (endname : E) (enabled : Bool)
  | reliable (yes : Bool)
  | cleanup
  | stop
  | call (endname : E) (svcMeth : String) (args : A)
  | giveUp (r : Nat)
  | accept (r : Nat)
  | route (r : Nat)
  | timeout (r : Nat)
  | dropRequest (r : Nat)
  | spawn (r : Nat)
  | dispatch (r : Nat)
  | execute (r : Nat) (c : K)
  | receive (r : Nat)
  | poll (r : Nat)
  | check (r : Nat)
  | dropReply (r : Nat)
  | reply (r : Nat)
  | work (server : Nat) (c : K)
  | deleteServer (servername : N)
  | copy (servername : N) (under : Option K)
  | start (servername : N) (c : K)
  | addServer (servername : N)

/-! ## 2. Names of methods -/

/-- Lines 409-411: at the last dot. Without a dot the slice expression panics. -/
def splitMethod (svcMeth : String) : Option (String × String) :=
  let methodName := svcMeth.toList.reverse.takeWhile (· ≠ '.')
  match svcMeth.toList.reverse.drop methodName.length with
  | [] => none
  | _ :: serviceName => some (String.ofList serviceName.reverse, String.ofList methodName.reverse)

/-- `Raft.AppendEntries` is the method `AppendEntries` of the service `Raft`, and so on. -/
theorem splitMethod_dot (service method : String) (h : '.' ∉ method.toList) :
    splitMethod (service ++ "." ++ method) = some (service, method) := by
  have hrev : (service ++ "." ++ method).toList.reverse =
      method.toList.reverse ++ '.' :: service.toList.reverse := by
    simp [String.toList_append]
  have htake : (method.toList.reverse ++ '.' :: service.toList.reverse).takeWhile (· ≠ '.') =
      method.toList.reverse := by
    rw [List.takeWhile_append_of_pos]
    · simp
    · intro c hc
      have : c ≠ '.' := fun e => h (e ▸ List.mem_reverse.mp hc)
      simpa using this
  unfold splitMethod
  rw [hrev, htake]
  simp only [List.drop_left, List.reverse_reverse, String.ofList_toList]

namespace Server

variable {S D A R K : Type}

/-- `Server.dispatch` and `Service.dispatch`: an unknown service or method is fatal. -/
def method (srv : Server S D A R K) (svcMeth : String) :
    Option (S → A → K → Option (S × R)) :=
  (splitMethod svcMeth).bind fun x => (srv.services x.1).bind fun methods => methods x.2

/-- The server as its clients may think of it. -/
def program (srv : Server S D A R K) : Program S D String A R K where
  blank := srv.makePersister
  disk := srv.persister
  mid := srv.midway
  keep := srv.shutdown
  boot := srv.start
  work := srv.work
  handle svcMeth s args c := (srv.method svcMeth).bind fun f => f s args c

end Server

/-! ## 3. The network -/

variable {N E S D A R K : Type}

namespace Network

def makeNetwork : Network N E where
  reliable := true
  ends _ := false
  enabled _ := false
  servers _ := none
  connections _ := none
  done := false
  serving := true
  count := 0
  bytes := 0

def readEndnameInfo (rn : Network N E) (endname : E) : Option (Route N) :=
  if rn.enabled endname then
    (rn.connections endname).bind fun servername => (rn.servers servername).map fun server =>
      ⟨servername, server, rn.reliable⟩
  else none

def isServerDead (rn : Network N E) (endname : E) (route : Route N) : Bool :=
  rn.enabled endname == false || rn.servers route.servername != some route.server

end Network

namespace Net

def init : Net N E S D A R where
  network := .makeNetwork
  instances := []
  power _ := .down none
  requests := []

def setStage (s : Net N E S D A R) (r : Nat) (q : Request N E A R) (stage : Stage N R) :
    Net N E S D A R :=
  { s with requests := s.requests.set r { q with stage := stage } }

def setHandler (s : Net N E S D A R) (r : Nat) (q : Request N E A R) (handler : Handler R) :
    Net N E S D A R :=
  { s with requests := s.requests.set r { q with handler := handler } }

section Tables

variable [DecidableEq E]

/-- An end that exists already is fatal. -/
def makeEnd (s : Net N E S D A R) (endname : E) : Option (Net N E S D A R) :=
  if s.network.ends endname then none
  else
    some { s with
      network := { s.network with
        ends := Function.update s.network.ends endname true
        enabled := Function.update s.network.enabled endname false
        connections := Function.update s.network.connections endname none } }

def connect (s : Net N E S D A R) (endname : E) (servername : N) : Net N E S D A R :=
  { s with
    network := { s.network with
      connections := Function.update s.network.connections endname (some servername) } }

def enable (s : Net N E S D A R) (endname : E) (enabled : Bool) : Net N E S D A R :=
  { s with
    network := { s.network with enabled := Function.update s.network.enabled endname enabled } }

end Tables

/-! ## 4. One request -/

/-- A `Call` on an end that was made. -/
def call (s : Net N E S D A R) (endname : E) (svcMeth : String) (args : A) :
    Option (Net N E S D A R) :=
  if s.network.ends endname then
    some { s with requests := s.requests ++ [⟨⟨endname, svcMeth, args⟩, .calling, .none⟩] }
  else none

/-- Lines 102-104. -/
def giveUp (s : Net N E S D A R) (r : Nat) : Option (Net N E S D A R) :=
  (s.requests[r]?).bind fun q =>
    match q.stage with
    | .calling => if s.network.done then some (s.setStage r q (.returned none)) else none
    | _ => none

/-- Lines 152-155. -/
def accept (size : A → Nat) (s : Net N E S D A R) (r : Nat) : Option (Net N E S D A R) :=
  (s.requests[r]?).bind fun q =>
    match q.stage with
    | .calling =>
        if s.network.serving then
          some { s.setStage r q .accepted with
                 network := { s.network with
                   count := s.network.count + 1
                   bytes := s.network.bytes + size q.req.args } }
        else none
    | _ => none

/-- Lines 217-219. -/
def route (s : Net N E S D A R) (r : Nat) : Option (Net N E S D A R) :=
  (s.requests[r]?).bind fun q =>
    match q.stage with
    | .accepted =>
        some (s.setStage r q (match s.network.readEndnameInfo q.req.endname with
          | some route => .routed route
          | none => .refused))
    | _ => none

/-- Lines 302-304. -/
def timeout (s : Net N E S D A R) (r : Nat) : Option (Net N E S D A R) :=
  (s.requests[r]?).bind fun q =>
    match q.stage with
    | .refused => some (s.setStage r q (.returned none))
    | _ => none

/-- Lines 226-230. -/
def dropRequest (s : Net N E S D A R) (r : Nat) : Option (Net N E S D A R) :=
  (s.requests[r]?).bind fun q =>
    match q.stage with
    | .routed route => if route.reliable then none else some (s.setStage r q (.returned none))
    | _ => none

/-- Lines 236-240. -/
def spawn (s : Net N E S D A R) (r : Nat) : Option (Net N E S D A R) :=
  (s.requests[r]?).bind fun q =>
    match q.stage with
    | .routed route =>
        some (s.setStage r { q with handler := .spawned route.server } (.waiting route))
    | _ => none

/-- Lines 404-415, on a server that knows the method. -/
def dispatch (srv : N → Server S D A R K) (s : Net N E S D A R) (r : Nat) :
    Option (Net N E S D A R) :=
  (s.requests[r]?).bind fun q =>
    match q.handler with
    | .spawned server =>
        (s.instances[server]?).bind fun I =>
          if ((srv I.name).method q.req.svcMeth).isSome then
            some { s.setHandler r q (.dispatched server) with
                   instances := s.instances.set server { I with count := I.count + 1 } }
          else none
    | _ => none

/-- The handler does its work, under the lock of the server it belongs to. -/
def execute (srv : N → Server S D A R K) (s : Net N E S D A R) (r : Nat) (c : K) :
    Option (Net N E S D A R) :=
  (s.requests[r]?).bind fun q =>
    match q.handler with
    | .dispatched server =>
        (s.instances[server]?).bind fun I =>
          ((srv I.name).program.handle q.req.svcMeth I.state q.req.args c).map fun x =>
            { s.setHandler r q (.executed server x.2) with
              instances := s.instances.set server { I with state := x.1 } }
    | _ => none

/-- Lines 250-251. -/
def receive (s : Net N E S D A R) (r : Nat) : Option (Net N E S D A R) :=
  (s.requests[r]?).bind fun q =>
    match q.stage, q.handler with
    | .waiting route, .executed _ reply => some (s.setStage r q (.received route reply))
    | _, _ => none

/-- Lines 252-259. -/
def poll (s : Net N E S D A R) (r : Nat) : Option (Net N E S D A R) :=
  (s.requests[r]?).bind fun q =>
    match q.stage with
    | .waiting route =>
        some (if s.network.isServerDead q.req.endname route then
          s.setStage r q (.abandoned route) else s)
    | _ => none

/-- Lines 268-272. -/
def check (s : Net N E S D A R) (r : Nat) : Option (Net N E S D A R) :=
  (s.requests[r]?).bind fun q =>
    match q.stage with
    | .received route reply =>
        some (s.setStage r q (if s.network.isServerDead q.req.endname route then .returned none
          else .checked route reply))
    | .abandoned _ => some (s.setStage r q (.returned none))
    | _ => none

/-- Lines 273-275. -/
def dropReply (s : Net N E S D A R) (r : Nat) : Option (Net N E S D A R) :=
  (s.requests[r]?).bind fun q =>
    match q.stage with
    | .checked route _ => if route.reliable then none else some (s.setStage r q (.returned none))
    | _ => none

/-- Lines 276-289, at once or after a while. -/
def reply (size : R → Nat) (s : Net N E S D A R) (r : Nat) : Option (Net N E S D A R) :=
  (s.requests[r]?).bind fun q =>
    match q.stage with
    | .checked _ reply =>
        some { s.setStage r q (.returned (some reply)) with
               network := { s.network with bytes := s.network.bytes + size reply } }
    | _ => none

/-! ## 5. Servers and the tester -/

/-- A section of a goroutine of the instance. -/
def work (srv : N → Server S D A R K) (s : Net N E S D A R) (server : Nat) (c : K) :
    Option (Net N E S D A R) :=
  (s.instances[server]?).bind fun I => ((srv I.name).work I.state c).map fun state =>
    { s with instances := s.instances.set server { I with state := state } }

section Tester

variable [DecidableEq N]

def setPower (s : Net N E S D A R) (servername : N) (power : Power D) : Net N E S D A R :=
  { s with power := Function.update s.power servername power }

def deleteServer (s : Net N E S D A R) (servername : N) : Option (Net N E S D A R) :=
  match s.power servername with
  | .up server =>
      some { s.setPower servername (.deleted server) with
             network := { s.network with
               servers := Function.update s.network.servers servername none } }
  | _ => none

/-- `saved[i] = saved[i].Copy()`, with what the Persister holds then; `Kill` follows. -/
def copy (srv : N → Server S D A R K) (s : Net N E S D A R) (servername : N) (under : Option K) :
    Option (Net N E S D A R) :=
  match s.power servername with
  | .deleted server =>
      (s.instances[server]?).bind fun I =>
        (Rpc.diskAt (srv servername).program I.state under).map fun d =>
          s.setPower servername (.down (some ((srv servername).shutdown d)))
  | _ => none

/-- The instance is made from `saved[i]`, or from a new Persister. -/
def start (srv : N → Server S D A R K) (s : Net N E S D A R) (servername : N) (c : K) :
    Option (Net N E S D A R) :=
  match s.power servername with
  | .down saved =>
      let state := (srv servername).start (saved.getD (srv servername).makePersister) c
      some { s.setPower servername (.made s.instances.length) with
             instances := s.instances ++ [⟨servername, state, 0⟩] }
  | _ => none

def addServer (s : Net N E S D A R) (servername : N) : Option (Net N E S D A R) :=
  match s.power servername with
  | .made server =>
      some { s.setPower servername (.up server) with
             network := { s.network with
               servers := Function.update s.network.servers servername (some server) } }
  | _ => none

variable [DecidableEq E]

/-- **One step.** -/
def step (srv : N → Server S D A R K) (argsSize : A → Nat) (replySize : R → Nat)
    (s : Net N E S D A R) : Action N E A K → Option (Net N E S D A R)
  | .makeEnd endname => s.makeEnd endname
  | .connect endname servername => some (s.connect endname servername)
  | .enable endname enabled => some (s.enable endname enabled)
  | .reliable yes => some { s with network := { s.network with reliable := yes } }
  | .cleanup =>
      if s.network.done then none else some { s with network := { s.network with done := true } }
  | .stop =>
      if s.network.done then some { s with network := { s.network with serving := false } } else none
  | .call endname svcMeth args => s.call endname svcMeth args
  | .giveUp r => s.giveUp r
  | .accept r => s.accept argsSize r
  | .route r => s.route r
  | .timeout r => s.timeout r
  | .dropRequest r => s.dropRequest r
  | .spawn r => s.spawn r
  | .dispatch r => s.dispatch srv r
  | .execute r c => s.execute srv r c
  | .receive r => s.receive r
  | .poll r => s.poll r
  | .check r => s.check r
  | .dropReply r => s.dropReply r
  | .reply r => s.reply replySize r
  | .work server c => s.work srv server c
  | .deleteServer servername => s.deleteServer servername
  | .copy servername under => s.copy srv servername under
  | .start servername c => s.start srv servername c
  | .addServer servername => s.addServer servername

end Tester

/-- **A `ClientEnd` can only be connected once in its lifetime.** -/
def connectOnce (s : Net N E S D A R) : Action N E A K → Bool
  | .connect endname _ => s.network.ends endname && (s.network.connections endname).isNone
  | _ => true

/-! ## 6. What a step can be -/

/-- **What a step can be**, for a request with the stage it is in. -/
inductive Move [DecidableEq N] [DecidableEq E] (srv : N → Server S D A R K) (argsSize : A → Nat)
    (replySize : R → Nat) (s : Net N E S D A R) : Action N E A K → Net N E S D A R → Prop where
  | makeEnd (e : E) (he : s.network.ends e = false) :
      Move srv argsSize replySize s (.makeEnd e)
        { s with
          network := { s.network with
            ends := Function.update s.network.ends e true
            enabled := Function.update s.network.enabled e false
            connections := Function.update s.network.connections e none } }
  | connect (e : E) (v : N) : Move srv argsSize replySize s (.connect e v) (s.connect e v)
  | enable (e : E) (b : Bool) : Move srv argsSize replySize s (.enable e b) (s.enable e b)
  | reliable (b : Bool) :
      Move srv argsSize replySize s (.reliable b)
        { s with network := { s.network with reliable := b } }
  | cleanup : Move srv argsSize replySize s .cleanup
      { s with network := { s.network with done := true } }
  | stop : Move srv argsSize replySize s .stop
      { s with network := { s.network with serving := false } }
  | call (e : E) (m : String) (a : A) :
      Move srv argsSize replySize s (.call e m a)
        { s with requests := s.requests ++ [⟨⟨e, m, a⟩, .calling, .none⟩] }
  | giveUp (r : Nat) (q : Request N E A R) (hq : s.requests[r]? = some q)
      (hst : q.stage = .calling) :
      Move srv argsSize replySize s (.giveUp r) (s.setStage r q (.returned none))
  | accept (r : Nat) (q : Request N E A R) (hq : s.requests[r]? = some q)
      (hst : q.stage = .calling) :
      Move srv argsSize replySize s (.accept r)
        { s.setStage r q .accepted with
          network := { s.network with
            count := s.network.count + 1
            bytes := s.network.bytes + argsSize q.req.args } }
  | route (r : Nat) (q : Request N E A R) (route : Route N) (hq : s.requests[r]? = some q)
      (hst : q.stage = .accepted) (henabled : s.network.enabled q.req.endname = true)
      (hconn : s.network.connections q.req.endname = some route.servername)
      (hserver : s.network.servers route.servername = some route.server) :
      Move srv argsSize replySize s (.route r) (s.setStage r q (.routed route))
  | refuse (r : Nat) (q : Request N E A R) (hq : s.requests[r]? = some q)
      (hst : q.stage = .accepted) :
      Move srv argsSize replySize s (.route r) (s.setStage r q .refused)
  | timeout (r : Nat) (q : Request N E A R) (hq : s.requests[r]? = some q)
      (hst : q.stage = .refused) :
      Move srv argsSize replySize s (.timeout r) (s.setStage r q (.returned none))
  | dropRequest (r : Nat) (q : Request N E A R) (route : Route N) (hq : s.requests[r]? = some q)
      (hst : q.stage = .routed route) :
      Move srv argsSize replySize s (.dropRequest r) (s.setStage r q (.returned none))
  | spawn (r : Nat) (q : Request N E A R) (route : Route N) (hq : s.requests[r]? = some q)
      (hst : q.stage = .routed route) :
      Move srv argsSize replySize s (.spawn r)
        (s.setStage r { q with handler := .spawned route.server } (.waiting route))
  | dispatch (r : Nat) (q : Request N E A R) (server : Nat) (I : Instance N S)
      (hq : s.requests[r]? = some q) (hh : q.handler = .spawned server)
      (hI : s.instances[server]? = some I) :
      Move srv argsSize replySize s (.dispatch r)
        { s.setHandler r q (.dispatched server) with
          instances := s.instances.set server { I with count := I.count + 1 } }
  | execute (r : Nat) (q : Request N E A R) (server : Nat) (I : Instance N S) (c : K) (state : S)
      (reply : R) (hq : s.requests[r]? = some q) (hh : q.handler = .dispatched server)
      (hI : s.instances[server]? = some I)
      (hx : (srv I.name).program.handle q.req.svcMeth I.state q.req.args c =
        some (state, reply)) :
      Move srv argsSize replySize s (.execute r c)
        { s.setHandler r q (.executed server reply) with
          instances := s.instances.set server { I with state := state } }
  | receive (r : Nat) (q : Request N E A R) (route : Route N) (server : Nat) (reply : R)
      (hq : s.requests[r]? = some q) (hst : q.stage = .waiting route)
      (hh : q.handler = .executed server reply) :
      Move srv argsSize replySize s (.receive r) (s.setStage r q (.received route reply))
  | alive (r : Nat) : Move srv argsSize replySize s (.poll r) s
  | dead (r : Nat) (q : Request N E A R) (route : Route N) (hq : s.requests[r]? = some q)
      (hst : q.stage = .waiting route)
      (hdead : s.network.isServerDead q.req.endname route = true) :
      Move srv argsSize replySize s (.poll r) (s.setStage r q (.abandoned route))
  | killed (r : Nat) (q : Request N E A R) (route : Route N) (reply : R)
      (hq : s.requests[r]? = some q) (hst : q.stage = .received route reply) :
      Move srv argsSize replySize s (.check r) (s.setStage r q (.returned none))
  | check (r : Nat) (q : Request N E A R) (route : Route N) (reply : R)
      (hq : s.requests[r]? = some q) (hst : q.stage = .received route reply)
      (hserver : s.network.servers route.servername = some route.server) :
      Move srv argsSize replySize s (.check r) (s.setStage r q (.checked route reply))
  | abandon (r : Nat) (q : Request N E A R) (route : Route N) (hq : s.requests[r]? = some q)
      (hst : q.stage = .abandoned route) :
      Move srv argsSize replySize s (.check r) (s.setStage r q (.returned none))
  | dropReply (r : Nat) (q : Request N E A R) (route : Route N) (reply : R)
      (hq : s.requests[r]? = some q) (hst : q.stage = .checked route reply) :
      Move srv argsSize replySize s (.dropReply r) (s.setStage r q (.returned none))
  | reply (r : Nat) (q : Request N E A R) (route : Route N) (reply : R)
      (hq : s.requests[r]? = some q) (hst : q.stage = .checked route reply) :
      Move srv argsSize replySize s (.reply r)
        { s.setStage r q (.returned (some reply)) with
          network := { s.network with bytes := s.network.bytes + replySize reply } }
  | work (server : Nat) (I : Instance N S) (c : K) (state : S) (hI : s.instances[server]? = some I)
      (hw : (srv I.name).work I.state c = some state) :
      Move srv argsSize replySize s (.work server c)
        { s with instances := s.instances.set server { I with state := state } }
  | deleteServer (v : N) (server : Nat) (hp : s.power v = .up server) :
      Move srv argsSize replySize s (.deleteServer v)
        { s.setPower v (.deleted server) with
          network := { s.network with servers := Function.update s.network.servers v none } }
  | copy (v : N) (server : Nat) (I : Instance N S) (under : Option K) (d : D)
      (hp : s.power v = .deleted server) (hI : s.instances[server]? = some I)
      (hd : Rpc.diskAt (srv v).program I.state under = some d) :
      Move srv argsSize replySize s (.copy v under)
        (s.setPower v (.down (some ((srv v).shutdown d))))
  | start (v : N) (saved : Option D) (c : K) (hp : s.power v = .down saved) :
      Move srv argsSize replySize s (.start v c)
        { s.setPower v (.made s.instances.length) with
          instances := s.instances ++
            [⟨v, (srv v).start (saved.getD (srv v).makePersister) c, 0⟩] }
  | addServer (v : N) (server : Nat) (hp : s.power v = .made server) :
      Move srv argsSize replySize s (.addServer v)
        { s.setPower v (.up server) with
          network := { s.network with
            servers := Function.update s.network.servers v (some server) } }

theorem readEndnameInfo_some {rn : Network N E} {e : E} {route : Route N}
    (h : rn.readEndnameInfo e = some route) :
    rn.enabled e = true ∧ rn.connections e = some route.servername ∧
      rn.servers route.servername = some route.server := by
  unfold Network.readEndnameInfo at h
  split at h
  · rename_i he
    obtain ⟨v, hv, h⟩ := Option.bind_eq_some_iff.mp h
    obtain ⟨i, hi, rfl⟩ := Option.map_eq_some_iff.mp h
    exact ⟨he, hv, hi⟩
  · cases h

theorem isServerDead_false [DecidableEq N] {rn : Network N E} {e : E} {route : Route N}
    (h : rn.isServerDead e route = false) : rn.servers route.servername = some route.server := by
  simp only [Network.isServerDead, Bool.or_eq_false_iff, bne_eq_false_iff_eq] at h
  exact h.2

section Inversion

variable [DecidableEq N] [DecidableEq E] {srv : N → Server S D A R K} {argsSize : A → Nat}
  {replySize : R → Nat} {s s' : Net N E S D A R} {r : Nat}

theorem move_of_route (h : s.route r = some s') :
    Move srv argsSize replySize s (.route r) s' := by
  obtain ⟨q, hq, h⟩ := Option.bind_eq_some_iff.mp h
  split at h
  · rename_i hst
    cases Option.some.inj h
    split
    · rename_i route hr
      obtain ⟨he, hc, hv⟩ := readEndnameInfo_some hr
      exact .route r q route hq hst he hc hv
    · exact .refuse r q hq hst
  · cases h

theorem move_of_dispatch (h : s.dispatch srv r = some s') :
    Move srv argsSize replySize s (.dispatch r) s' := by
  obtain ⟨q, hq, h⟩ := Option.bind_eq_some_iff.mp h
  split at h
  · rename_i server hh
    obtain ⟨I, hI, h⟩ := Option.bind_eq_some_iff.mp h
    split at h
    · cases Option.some.inj h
      exact .dispatch r q server I hq hh hI
    · cases h
  · cases h

theorem move_of_execute {c : K} (h : s.execute srv r c = some s') :
    Move srv argsSize replySize s (.execute r c) s' := by
  obtain ⟨q, hq, h⟩ := Option.bind_eq_some_iff.mp h
  split at h
  · rename_i server hh
    obtain ⟨I, hI, h⟩ := Option.bind_eq_some_iff.mp h
    obtain ⟨x, hx, rfl⟩ := Option.map_eq_some_iff.mp h
    exact .execute r q server I c x.1 x.2 hq hh hI hx
  · cases h

theorem move_of_poll (h : s.poll r = some s') :
    Move srv argsSize replySize s (.poll r) s' := by
  obtain ⟨q, hq, h⟩ := Option.bind_eq_some_iff.mp h
  split at h
  · rename_i route hst
    cases Option.some.inj h
    split
    · rename_i hdead
      exact .dead r q route hq hst hdead
    · exact .alive r
  · cases h

theorem move_of_check (h : s.check r = some s') :
    Move srv argsSize replySize s (.check r) s' := by
  obtain ⟨q, hq, h⟩ := Option.bind_eq_some_iff.mp h
  split at h
  · rename_i route reply hst
    cases Option.some.inj h
    split
    · exact .killed r q route reply hq hst
    · rename_i hlive
      exact .check r q route reply hq hst (isServerDead_false (Bool.eq_false_iff.mpr hlive))
  · rename_i route hst
    cases Option.some.inj h
    exact .abandon r q route hq hst
  · cases h

theorem move_of_step {a : Action N E A K} (h : s.step srv argsSize replySize a = some s') :
    Move srv argsSize replySize s a s' := by
  cases a with
  | makeEnd e =>
      simp only [step, makeEnd] at h
      split at h
      · cases h
      · rename_i he
        cases Option.some.inj h
        exact .makeEnd e (Bool.eq_false_iff.mpr he)
  | connect e v =>
      cases Option.some.inj h
      exact .connect e v
  | enable e b =>
      cases Option.some.inj h
      exact .enable e b
  | reliable b =>
      cases Option.some.inj h
      exact .reliable b
  | cleanup =>
      simp only [step] at h
      split at h
      · cases h
      · cases Option.some.inj h
        exact .cleanup
  | stop =>
      simp only [step] at h
      split at h
      · cases Option.some.inj h
        exact .stop
      · cases h
  | call e m a =>
      simp only [step, call] at h
      split at h
      · cases Option.some.inj h
        exact .call e m a
      · cases h
  | giveUp r =>
      obtain ⟨q, hq, h⟩ := Option.bind_eq_some_iff.mp h
      split at h
      · rename_i hst
        split at h
        · cases Option.some.inj h
          exact .giveUp r q hq hst
        · cases h
      · cases h
  | accept r =>
      obtain ⟨q, hq, h⟩ := Option.bind_eq_some_iff.mp h
      split at h
      · rename_i hst
        split at h
        · cases Option.some.inj h
          exact .accept r q hq hst
        · cases h
      · cases h
  | route r => exact move_of_route h
  | timeout r =>
      obtain ⟨q, hq, h⟩ := Option.bind_eq_some_iff.mp h
      split at h
      · rename_i hst
        cases Option.some.inj h
        exact .timeout r q hq hst
      · cases h
  | dropRequest r =>
      obtain ⟨q, hq, h⟩ := Option.bind_eq_some_iff.mp h
      split at h
      · rename_i route hst
        split at h
        · cases h
        · cases Option.some.inj h
          exact .dropRequest r q route hq hst
      · cases h
  | spawn r =>
      obtain ⟨q, hq, h⟩ := Option.bind_eq_some_iff.mp h
      split at h
      · rename_i route hst
        cases Option.some.inj h
        exact .spawn r q route hq hst
      · cases h
  | dispatch r => exact move_of_dispatch h
  | execute r c => exact move_of_execute h
  | receive r =>
      obtain ⟨q, hq, h⟩ := Option.bind_eq_some_iff.mp h
      split at h
      · rename_i route server reply hst hh
        cases Option.some.inj h
        exact .receive r q route server reply hq hst hh
      · cases h
  | poll r => exact move_of_poll h
  | check r => exact move_of_check h
  | dropReply r =>
      obtain ⟨q, hq, h⟩ := Option.bind_eq_some_iff.mp h
      split at h
      · rename_i route reply hst
        split at h
        · cases h
        · cases Option.some.inj h
          exact .dropReply r q route reply hq hst
      · cases h
  | reply r =>
      obtain ⟨q, hq, h⟩ := Option.bind_eq_some_iff.mp h
      split at h
      · rename_i route reply hst
        cases Option.some.inj h
        exact .reply r q route reply hq hst
      · cases h
  | work server c =>
      obtain ⟨I, hI, h⟩ := Option.bind_eq_some_iff.mp h
      obtain ⟨state, hw, rfl⟩ := Option.map_eq_some_iff.mp h
      exact .work server I c state hI hw
  | deleteServer v =>
      simp only [step, deleteServer] at h
      split at h
      · rename_i server hp
        cases Option.some.inj h
        exact .deleteServer v server hp
      · cases h
  | copy v under =>
      simp only [step, copy] at h
      split at h
      · rename_i server hp
        obtain ⟨I, hI, h⟩ := Option.bind_eq_some_iff.mp h
        obtain ⟨d, hd, rfl⟩ := Option.map_eq_some_iff.mp h
        exact .copy v server I under d hp hI hd
      · cases h
  | start v c =>
      simp only [step, start] at h
      split at h
      · rename_i saved hp
        cases Option.some.inj h
        exact .start v saved c hp
      · cases h
  | addServer v =>
      simp only [step, addServer] at h
      split at h
      · rename_i server hp
        cases Option.some.inj h
        exact .addServer v server hp
      · cases h

end Inversion

end Net

end Mit6824.Labrpc
