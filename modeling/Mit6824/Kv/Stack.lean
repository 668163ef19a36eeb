/-
  File:      Mit6824/Kv/Stack.lean
  Subject:   THE KEY/VALUE SERVICE ON THE RAFT IT RUNS ON (kvraft/server.go over raft/raft.go),
             without snapshots: the two models put together.

  `Kv.Service` takes Raft to be one growing sequence. Here the servers have a `Cluster` below them:
  `requestRaft` calls `Start` on the Raft server of its own process, which answers from its own
  state and appends in a second section; `applyLoop` takes the messages of that server's channel, as
  they come; a crash takes both down, and the new `KVServer` begins with a new channel.

  The record in `kv` (`started`, `agreed`, the numbers in `hist`) is read by no step. `agreed` grows
  when a server delivers more than any server has delivered before.

  A message that makes the service look at the size of the state passes through `applyLoop` without
  effect (`maxraftstate = -1`). No message carries a snapshot, since none is ever made
  (`Fed.values`).

  * `Stack.step` -- one section, on either level;
  * `Stands` -- where one `applyLoop` stands; `Fits` -- what holds between the two levels;
  * `Fed` -- what Raft has was given to it by the handlers, in any run (`fed_step`);
  * `fits_step` -- one lemma for each kind of step: the service over one sequence can follow it;
  * `stack_refines` -- **the service on this Raft is the service on a correct one**: every run in
    which Raft keeps to its four guards and sends requests as they were built is, above, a run of
    `Kv.Service`;
  * `take_ready` -- no message makes `apply` panic;
  * `replicas_agree` -- and servers that have applied equally many commands hold the same maps.
-/
import Mit6824.Kv.Books
import Mit6824.Raft.Sequence

namespace Mit6824.Kv

open Lib

/-! ## 1. Two levels -/

/-- `taken v` messages of the channel of `v` have been taken by its `applyLoop`. -/
structure Stack (n m : Nat) where
  raft : Cluster n Command
  kv : Service n m
  taken : Fin n → Nat

/-- The sections that Raft takes by itself. -/
def isRafts {n : Nat} {C : Type} : Mit6824.Action n C → Bool
  | .startState _ _ | .saveSnapshot _ _ _ | .restart _ _ => false
  | _ => true

/-- The sections of clerks, handlers and servers that do not touch Raft. -/
def isServices {n m : Nat} : Action n m → Bool
  | .call _ _ | .send _ | .fail _ | .receive _ | .exhaust _ | .check _ | .confirm _ | .finish _
  | .store _ => true
  | _ => false

inductive StackAction (n m : Nat) where
  | raft (a : Mit6824.Action n Command)
  | kv (a : Action n m)
  | start (r : Nat)
  | timeout (r : Nat)
  | take (v : Fin n)
  | notify (v : Fin n) (received : Bool)
  | restart (v : Fin n) (grow : Nat)

/-- The first section of `apply`, on a message with this command. -/
def Replica.takes (R : Replica) : Op → Replica
  | .get _ => { R with applied := R.applied + 1, loop := .notifying }
  | .putAppend args =>
      let rep := R.kv.isRepeated args.clientId args.msgId true
      { R with
        kv := rep.2
        applied := R.applied + 1
        loop := if rep.1 then .notifying else .storing args }

namespace Stack

variable {n m : Nat}

def init (n m : Nat) : Stack n m := ⟨Cluster.init n Command, Service.init n m, fun _ => 0⟩

/-- What a step of Raft has delivered for the first time goes on record. -/
def noted (a : Mit6824.Action n Command) (raft : Cluster n Command) (kv : Service n m) :
    Service n m :=
  match a with
  | .apply v =>
      { kv with
        agreed := kv.agreed ++
          ((sequence (raft.rafts v).applyChan).drop kv.agreed.length).filterMap id }
  | _ => kv

def raftStep (s : Stack n m) (a : Mit6824.Action n Command) : Option (Stack n m) :=
  if isRafts a then
    (s.raft.step a).map fun raft => { s with raft := raft, kv := noted a raft s.kv }
  else none

/-- The handler `r` is inside `Start`, between its two sections. -/
def starting (s : Stack n m) (r : Nat) : Bool :=
  s.raft.starts.any fun S => S.alive && S.command.any fun cmd => cmd.notifyChan == r

/-- `kv.rf.Start(op)`, up to the end of `GetState`. -/
def start (s : Stack n m) (r : Nat) : Option (Stack n m) :=
  match s.kv.rpcs[r]? with
  | none => none
  | some R =>
      (s.kv.start r (decide ((s.raft.rafts R.server).state = .leader))).map fun kv =>
        { s with
          raft := s.raft.startState R.server (some ⟨R.req, r, R.call, s.kv.agreed.length⟩)
          kv := kv }

def timeout (s : Stack n m) (r : Nat) : Option (Stack n m) :=
  if s.starting r then none else (s.kv.timeout r).map fun kv => { s with kv := kv }

/-- One message from `applyCh`. On a command that is no `Op` the type assertion panics. -/
def take (s : Stack n m) (v : Fin n) : Option (Stack n m) :=
  match (s.kv.replicas v).loop, (s.raft.rafts v).applyChan[s.taken v]? with
  | .idle, some msg =>
      if msg.commandValid then
        match msg.command with
        | .value (some cmd) =>
            some { s with
              kv := s.kv.setReplica v ((s.kv.replicas v).takes cmd.op)
              taken := Function.update s.taken v (s.taken v + 1) }
        | _ => none
      else
        match msg.command with
        | .value _ => some { s with taken := Function.update s.taken v (s.taken v + 1) }
        | .snapshot _ => none
  | _, _ => none

/-- Lines 106-109: the handler named by the message in hand is at its `select`, or it is not. -/
def notify (s : Stack n m) (v : Fin n) (received : Bool) : Option (Stack n m) :=
  match (s.kv.replicas v).loop, (s.raft.rafts v).applyChan[s.taken v - 1]? with
  | .notifying, some msg =>
      let kv := s.kv.setReplica v { s.kv.replicas v with loop := .idle }
      match msg.command with
      | .value (some cmd) =>
          match s.kv.rpcs[cmd.notifyChan]? with
          | none => some { s with kv := kv }
          | some W =>
              some { s with
                kv := if (received && !s.starting cmd.notifyChan) = true ∧ W.server = v ∧
                    W.stage = .waiting then
                  kv.setStage cmd.notifyChan W (.notified (s.kv.replicas v).applied) else kv }
      | _ => none
  | _, _ => none

def restart (s : Stack n m) (v : Fin n) (grow : Nat) : Stack n m where
  raft := s.raft.restart v grow
  kv := s.kv.restart v
  taken := Function.update s.taken v 0

/-- **One step**, on either level. -/
def step (me : Fin m → Int) (s : Stack n m) : StackAction n m → Option (Stack n m)
  | .raft a => s.raftStep a
  | .kv a => if isServices a then (s.kv.step me a).map fun kv => { s with kv := kv } else none
  | .start r => s.start r
  | .timeout r => s.timeout r
  | .take v => s.take v
  | .notify v received => s.notify v received
  | .restart v grow => some (s.restart v grow)

/-- ... and its requests go out as they were built. -/
def Intact (s : Stack n m) : StackAction n m → Prop
  | .raft a => Cluster.IntactStep s.raft a
  | _ => True

/-! ## 2. What holds between the two levels -/

/-- **Where an `applyLoop` stands**: it has taken `taken` messages of the channel, and applied the
    commands among them; the last one is in its hand. -/
structure Stands (chan : List (ApplyMsg Command)) (taken : Nat) (R : Replica) : Prop where
  bound : taken ≤ chan.length
  applied : R.applied = (sequence (chan.take taken)).length
  hand : R.loop ≠ .idle → ∃ k cmd i, taken = k + 1 ∧
    chan[k]? = some ⟨true, .value (some cmd), i⟩

section Stands

variable {chan : List (ApplyMsg Command)} {taken : Nat} {R R' : Replica}

theorem stands_fresh (chan : List (ApplyMsg Command)) : Stands chan 0 startKVServer :=
  ⟨Nat.zero_le _, rfl, absurd rfl⟩

theorem Stands.grow (h : Stands chan taken R) (ms : List (ApplyMsg Command)) :
    Stands (chan ++ ms) taken R := by
  have hle := h.bound
  refine ⟨by rw [List.length_append]; omega, ?_, fun hne => ?_⟩
  · rw [List.take_append_of_le_length hle]
    exact h.applied
  · obtain ⟨k, cmd, i, hk, hmsg⟩ := h.hand hne
    exact ⟨k, cmd, i, hk, by rw [List.getElem?_append_left (by omega)]; exact hmsg⟩

theorem Stands.stay (h : Stands chan taken R) (ha : R'.applied = R.applied)
    (hl : R'.loop ≠ .idle → R.loop ≠ .idle) : Stands chan taken R' :=
  ⟨h.bound, ha.trans h.applied, fun hne => h.hand (hl hne)⟩

theorem takes_applied (R : Replica) (op : Op) : (R.takes op).applied = R.applied + 1 := by
  cases op <;> rfl

theorem sequence_take_command {cmd : Command} {k i : Nat}
    (hk : chan[k]? = some ⟨true, .value (some cmd), i⟩) :
    sequence (chan.take (k + 1)) = sequence (chan.take k) ++ [some cmd] := by
  rw [List.take_add_one, hk, sequence_append]
  rfl

theorem Stands.take (h : Stands chan taken R) {cmd : Command} {i : Nat}
    (hmsg : chan[taken]? = some ⟨true, .value (some cmd), i⟩) :
    Stands chan (taken + 1) (R.takes cmd.op) := by
  refine ⟨(List.getElem?_eq_some_iff.mp hmsg).1, ?_, fun _ => ⟨taken, cmd, i, rfl, hmsg⟩⟩
  rw [takes_applied, sequence_take_command hmsg, List.length_append, h.applied]
  rfl

theorem Stands.skip (h : Stands chan taken R) {msg : ApplyMsg Command}
    (hmsg : chan[taken]? = some msg) (hv : msg.commandValid = false) (hl : R.loop = .idle) :
    Stands chan (taken + 1) R := by
  refine ⟨(List.getElem?_eq_some_iff.mp hmsg).1, ?_, fun hne => absurd hl hne⟩
  have hnone : sequence (some msg).toList = [] := sequence_invalid (by simpa using hv)
  rw [List.take_add_one, hmsg, sequence_append, hnone, List.append_nil]
  exact h.applied

end Stands

/-- **What Raft has was given to it by the handlers**, and it makes no snapshots. -/
structure Fed (s : Stack n m) : Prop where
  run : Reach Cluster.step (fun _ a => a.saves = false) (Cluster.init n Command) s.raft
  starts : ∀ S ∈ s.raft.starts, ∃ cmd ∈ s.kv.started, S.command = some cmd
  appended : ∀ e, Appended s.raft.hist e → ∃ cmd ∈ s.kv.started, e.log = some cmd
  values : ∀ v, ∀ msg ∈ (s.raft.rafts v).applyChan, ∃ c, msg.command = .value c

/-- **The two levels fit**: what the servers were delivered is the record. -/
structure Fits (s : Stack n m) : Prop where
  run : Reach Cluster.step Cluster.IntactStep (Cluster.init n Command) s.raft
  agreed : ∀ (i : Nat) (cmd : Command), s.kv.agreed[i]? = some cmd →
    ∃ v, ⟨true, .value (some cmd), i + 1⟩ ∈ s.raft.everSent v
  sent : ∀ v, sequence (s.raft.rafts v).applyChan <+: s.kv.agreed.map some
  stands : ∀ v, Stands (s.raft.rafts v).applyChan (s.taken v) (s.kv.replicas v)

theorem init_rafts (v : Fin n) : (init n m).raft.rafts v = Raft.fresh ⟨none, []⟩ 0 :=
  Raft.make_none (p := ⟨none, []⟩) rfl 0

theorem fed_init : Fed (init n m) where
  run := .start
  starts S h := absurd h List.not_mem_nil
  appended := by
    rintro e ⟨v, st, i, t, h⟩
    exact absurd h List.not_mem_nil
  values v msg h := by
    rw [init_rafts] at h
    exact absurd h List.not_mem_nil

theorem fits_init : Fits (init n m) where
  run := .start
  agreed i cmd h := by cases h
  sent v := by
    rw [init_rafts]
    exact List.nil_prefix
  stands v := stands_fresh _

/-- The command in message `k` is the next one of the record. -/
theorem Fits.next {s : Stack n m} (h : Fits s) {v : Fin n} {k i : Nat} {cmd : Command}
    (hk : (s.raft.rafts v).applyChan[k]? = some ⟨true, .value (some cmd), i⟩) :
    s.kv.agreed[(sequence ((s.raft.rafts v).applyChan.take k)).length]? = some cmd := by
  have hpre : sequence ((s.raft.rafts v).applyChan.take (k + 1)) <+: s.kv.agreed.map some := by
    refine List.IsPrefix.trans ?_ (h.sent v)
    refine ⟨sequence ((s.raft.rafts v).applyChan.drop (k + 1)), ?_⟩
    rw [← sequence_append, List.take_append_drop]
  rw [sequence_take_command hk] at hpre
  have hget := get_of_begins hpre (i := (sequence ((s.raft.rafts v).applyChan.take k)).length)
    List.getElem?_concat_length
  rw [List.getElem?_map] at hget
  obtain ⟨cmd', hcmd', e⟩ := Option.map_eq_some_iff.mp hget
  cases e
  exact hcmd'

/-! ## 3. The steps above Raft -/

/-- The service has done something that neither Raft nor the record sees. -/
theorem Fits.above {s : Stack n m} (h : Fits s) {kv : Service n m} (ha : kv.agreed = s.kv.agreed)
    (hr : ∀ v, (kv.replicas v).applied = (s.kv.replicas v).applied ∧
      ((kv.replicas v).loop ≠ .idle → (s.kv.replicas v).loop ≠ .idle)) :
    Fits { s with kv := kv } where
  run := h.run
  agreed := by rw [ha]; exact h.agreed
  sent := by rw [ha]; exact h.sent
  stands v := (h.stands v).stay (hr v).1 (hr v).2

/-- One server has changed, and it stands where it stood. -/
theorem replicas_setReplica {kv : Service n m} (v : Fin n) (R : Replica)
    (ha : R.applied = (kv.replicas v).applied)
    (hl : R.loop ≠ .idle → (kv.replicas v).loop ≠ .idle) (w : Fin n) :
    ((kv.setReplica v R).replicas w).applied = (kv.replicas w).applied ∧
      (((kv.setReplica v R).replicas w).loop ≠ .idle → (kv.replicas w).loop ≠ .idle) := by
  by_cases hw : w = v
  · subst hw
    rw [show (kv.setReplica w R).replicas w = R from Function.update_self _ _ _]
    exact ⟨ha, hl⟩
  · rw [show (kv.setReplica v R).replicas w = kv.replicas w from Function.update_of_ne hw _ _]
    exact ⟨rfl, id⟩

theorem services_frame {me : Fin m → Int} {kv kv' : Service n m} {a : Action n m}
    (ha : isServices a = true) (h : kv.step me a = some kv') :
    kv'.agreed = kv.agreed ∧ kv'.started = kv.started ∧
      ∀ v, (kv'.replicas v).applied = (kv.replicas v).applied ∧
        ((kv'.replicas v).loop ≠ .idle → (kv.replicas v).loop ≠ .idle) := by
  cases a with
  | call c input =>
      obtain ⟨_, rfl⟩ := Service.call_inv h
      exact ⟨rfl, rfl, fun v => ⟨rfl, id⟩⟩
  | send c =>
      obtain ⟨K, hn, k, _, _, rfl⟩ := Service.send_inv h
      exact ⟨rfl, rfl, fun v => ⟨rfl, id⟩⟩
  | fail c =>
      obtain ⟨K, _, rfl⟩ := Service.fail_inv h
      exact ⟨rfl, rfl, fun v => ⟨rfl, id⟩⟩
  | receive c =>
      obtain ⟨K, r, R, k, reply, point, _, _, _, _, _, rfl | ⟨_, rfl⟩⟩ := Service.receive_inv h
      · exact ⟨rfl, rfl, fun v => ⟨rfl, id⟩⟩
      · exact ⟨rfl, rfl, fun v => ⟨rfl, id⟩⟩
  | exhaust c =>
      obtain ⟨K, _, rfl⟩ := Service.exhaust_inv h
      exact ⟨rfl, rfl, fun v => ⟨rfl, id⟩⟩
  | check r =>
      obtain ⟨R, _, _, rfl⟩ := Service.check_inv h
      exact ⟨rfl, rfl, fun v => ⟨rfl, id⟩⟩
  | confirm r =>
      obtain ⟨R, index, _, _, rfl⟩ := Service.confirm_inv h
      exact ⟨rfl, rfl, replicas_setReplica R.server _ rfl id⟩
  | finish r =>
      obtain ⟨R, _, _, rfl⟩ := Service.finish_inv h
      exact ⟨rfl, rfl, fun v => ⟨rfl, id⟩⟩
  | store v =>
      obtain ⟨args, hl, rfl⟩ := Service.store_inv h
      exact ⟨rfl, rfl, replicas_setReplica v _ rfl fun _ => by rw [hl]; nofun⟩
  | start r isLeader => cases ha
  | timeout r => cases ha
  | agree i => cases ha
  | take v => cases ha
  | notify v received => cases ha
  | restart v => cases ha

/-- One step of the service, alone. -/
theorem reach_one {me : Fin m → Int} {kv kv' : Service n m} (a : Action n m)
    (h : kv.step me a = some kv') : Reach (Service.step me) AnyStep kv kv' :=
  .move _ _ a .start trivial h

theorem timeout_fits {me : Fin m → Int} {s s' : Stack n m} {r : Nat} (hI : Fits s)
    (h : s.timeout r = some s') : Reach (Service.step me) AnyStep s.kv s'.kv ∧ Fits s' := by
  unfold timeout at h
  split at h
  · cases h
  · obtain ⟨kv, hkv, rfl⟩ := Option.map_eq_some_iff.mp h
    refine ⟨reach_one (.timeout r) hkv, ?_⟩
    obtain ⟨R, _, _, rfl⟩ := Service.timeout_inv hkv
    exact hI.above rfl fun v => ⟨rfl, id⟩

/-- `take`, on the record, is `take` on the channel. -/
theorem service_take {kv : Service n m} {v : Fin n} {cmd : Command}
    (hl : (kv.replicas v).loop = .idle)
    (hcmd : kv.agreed[(kv.replicas v).applied]? = some cmd) :
    kv.take v = some (kv.setReplica v ((kv.replicas v).takes cmd.op)) := by
  unfold Service.take
  simp only [hl, hcmd]
  cases cmd.op <;> rfl

/-- What `take` can find on the channel: a command, or nothing to do. -/
theorem take_cases {s s' : Stack n m} {v : Fin n} (h : s.take v = some s') :
    (s.kv.replicas v).loop = .idle ∧
      ((∃ cmd i, (s.raft.rafts v).applyChan[s.taken v]? = some ⟨true, .value (some cmd), i⟩ ∧
          s' = { s with
            kv := s.kv.setReplica v ((s.kv.replicas v).takes cmd.op)
            taken := Function.update s.taken v (s.taken v + 1) }) ∨
        ∃ msg, (s.raft.rafts v).applyChan[s.taken v]? = some msg ∧ msg.commandValid = false ∧
          s' = { s with taken := Function.update s.taken v (s.taken v + 1) }) := by
  unfold take at h
  split at h
  · rename_i msg hl hmsg
    refine ⟨hl, ?_⟩
    obtain ⟨valid, command, i⟩ := msg
    split at h
    · rename_i hv
      obtain rfl : valid = true := hv
      dsimp only at h
      split at h
      · rename_i cmd
        exact Or.inl ⟨cmd, i, hmsg, (Option.some.inj h).symm⟩
      · cases h
    · rename_i hv
      dsimp only at h
      split at h
      · exact Or.inr ⟨_, hmsg, Bool.eq_false_iff.mpr hv, (Option.some.inj h).symm⟩
      · cases h
  · cases h

/-- One more message is taken from the channel of `v`. -/
theorem Fits.advance {s : Stack n m} (h : Fits s) {v : Fin n} {R : Replica}
    (hR : Stands (s.raft.rafts v).applyChan (s.taken v + 1) R) :
    Fits { s with
      kv := s.kv.setReplica v R
      taken := Function.update s.taken v (s.taken v + 1) } where
  run := h.run
  agreed := h.agreed
  sent := h.sent
  stands w := by
    dsimp only [Service.setReplica]
    by_cases hw : w = v
    · subst hw
      rw [Function.update_self, Function.update_self]
      exact hR
    · rw [Function.update_of_ne hw, Function.update_of_ne hw]
      exact h.stands w

theorem take_fits {me : Fin m → Int} {s s' : Stack n m} {v : Fin n} (hI : Fits s)
    (h : s.take v = some s') : Reach (Service.step me) AnyStep s.kv s'.kv ∧ Fits s' := by
  obtain ⟨hl, ⟨cmd, i, hmsg, rfl⟩ | ⟨msg, hmsg, hv, rfl⟩⟩ := take_cases h
  · have hnext := hI.next hmsg
    rw [← (hI.stands v).applied] at hnext
    exact ⟨reach_one (.take v) (service_take hl hnext), hI.advance ((hI.stands v).take hmsg)⟩
  · have hfit := hI.advance ((hI.stands v).skip hmsg hv hl)
    rw [show s.kv.setReplica v (s.kv.replicas v) = s.kv by
      rw [Service.setReplica, Function.update_eq_self]] at hfit
    exact ⟨.start, hfit⟩

/-- `notify` finds the command on the record that the server finds in its hand. -/
theorem notify_fits {me : Fin m → Int} {s s' : Stack n m} {v : Fin n} {received : Bool}
    (hI : Fits s) (h : s.notify v received = some s') :
    Reach (Service.step me) AnyStep s.kv s'.kv ∧ Fits s' := by
  unfold notify at h
  split at h
  · rename_i msg hl hmsg
    obtain ⟨k, cmd, i, hk, hcmd⟩ := (hI.stands v).hand (by rw [hl]; nofun)
    rw [hk, Nat.add_sub_cancel, hcmd] at hmsg
    cases hmsg
    have hlast : s.kv.agreed[(s.kv.replicas v).applied - 1]? = some cmd := by
      rw [(hI.stands v).applied, hk, sequence_take_command hcmd, List.length_append]
      exact hI.next hcmd
    have hrep := replicas_setReplica v { s.kv.replicas v with loop := .idle } rfl
      (absurd rfl)
    dsimp only at h
    split at h
    · rename_i hW
      cases h
      refine ⟨reach_one (.notify v received) ?_, hI.above rfl hrep⟩
      simp only [Service.step, Service.notify, hl, hlast, hW]
    · rename_i W hW
      cases h
      refine ⟨reach_one (.notify v (received && !s.starting cmd.notifyChan)) ?_, ?_⟩
      · simp only [Service.step, Service.notify, hl, hlast, hW]
      · split
        · exact hI.above rfl hrep
        · exact hI.above rfl hrep
  · cases h

/-! ## 4. The steps that reach Raft -/

/-- `Start` answers from the state of the Raft server. -/
theorem start_cases {s s' : Stack n m} {r : Nat} (h : s.start r = some s') :
    ∃ R isLeader, s.kv.start r isLeader = some s'.kv ∧
      ((∃ cmd t, s' = { s with
          raft := { s.raft with starts := s.raft.starts ++ [⟨R.server, true, some cmd, t⟩] }
          kv := { s.kv.setStage r R .waiting with started := s.kv.started ++ [cmd] } } ∧
          s.raft.step (.startState R.server (some cmd)) = some s'.raft) ∨
        ∃ stage, s' = { s with kv := s.kv.setStage r R stage }) := by
  unfold start at h
  split at h
  · cases h
  · rename_i R hR
    obtain ⟨kv, hkv, rfl⟩ := Option.map_eq_some_iff.mp h
    refine ⟨R, _, hkv, ?_⟩
    unfold Service.start at hkv
    rw [hR] at hkv
    by_cases hlead : (s.raft.rafts R.server).state = .leader
    · rw [decide_eq_true hlead] at hkv
      dsimp only at hkv
      split at hkv
      · cases hkv
        refine Or.inl ⟨⟨R.req, r, R.call, s.kv.agreed.length⟩, (s.raft.rafts R.server).currentTerm,
          ?_, rfl⟩
        rw [Cluster.startState, if_pos hlead]
      · cases hkv
    · rw [decide_eq_false hlead] at hkv
      dsimp only at hkv
      split at hkv
      · cases hkv
        rw [Cluster.startState, if_neg hlead]
        exact Or.inr ⟨_, rfl⟩
      · cases hkv

theorem start_fits {me : Fin m → Int} {s s' : Stack n m} {r : Nat} (hI : Fits s)
    (h : s.start r = some s') : Reach (Service.step me) AnyStep s.kv s'.kv ∧ Fits s' := by
  obtain ⟨R, isLeader, hkv, ⟨cmd, t, rfl, hraft⟩ | ⟨stage, rfl⟩⟩ := start_cases h
  · refine ⟨reach_one (.start r isLeader) hkv, ?_, hI.agreed, hI.sent, hI.stands⟩
    exact .move _ _ (.startState R.server _) hI.run ⟨⟨rfl, rfl, rfl, rfl, rfl⟩, nofun⟩ hraft
  · exact ⟨reach_one (.start r isLeader) hkv, hI.above rfl fun v => ⟨rfl, id⟩⟩

/-- A restarted server has nothing on its channel. -/
theorem restart_chan {G : Cluster n Command → Mit6824.Action n Command → Prop}
    (hG : ∀ s a, G s a → a.saves = false) {raft : Cluster n Command}
    (hr : Reach Cluster.step G (Cluster.init n Command) raft) (v : Fin n) (grow : Nat) :
    (Raft.make (raft.rafts v).persister grow).applyChan = [] :=
  Raft.make_unsnapped (Cluster.saved_reach hr v).1 (Cluster.saved_reach hr v).2
    ((Cluster.unsnapped_reach hG hr).snap v) grow

/-- A crash takes both levels down; nothing that was delivered is forgotten. -/
theorem restart_fits {me : Fin m → Int} {s : Stack n m} (hI : Fits s) (v : Fin n) (grow : Nat) :
    Reach (Service.step me) AnyStep s.kv (s.restart v grow).kv ∧ Fits (s.restart v grow) := by
  have hs : s.raft.step (.restart v grow) = some (s.raft.restart v grow) := rfl
  have hchan := restart_chan (fun _ _ hg => hg.plain) hI.run v grow
  refine ⟨reach_one (.restart v) rfl, .move _ _ (.restart v grow) hI.run
    ⟨⟨rfl, rfl, rfl, rfl, rfl⟩, nofun⟩ hs, fun i cmd hi => ?_, fun w => ?_, fun w => ?_⟩
  · obtain ⟨w, hw⟩ := hI.agreed i cmd hi
    obtain ⟨ms, e, _⟩ := Cluster.everSent_step hs w
    refine ⟨w, ?_⟩
    rw [show (s.restart v grow).raft = s.raft.restart v grow from rfl, e]
    exact List.mem_append_left _ hw
  · by_cases hw : w = v
    · subst hw
      rw [show (s.restart w grow).raft.rafts w = Raft.make (s.raft.rafts w).persister grow from
        Function.update_self _ _ _, hchan]
      exact List.nil_prefix
    · rw [show (s.restart v grow).raft.rafts w = s.raft.rafts w from Function.update_of_ne hw _ _]
      exact hI.sent w
  · by_cases hw : w = v
    · subst hw
      rw [show (s.restart w grow).taken w = 0 from Function.update_self _ _ _,
        show (s.restart w grow).kv.replicas w = startKVServer from Function.update_self _ _ _]
      exact stands_fresh _
    · rw [show (s.restart v grow).raft.rafts w = s.raft.rafts w from Function.update_of_ne hw _ _,
        show (s.restart v grow).taken w = s.taken w from Function.update_of_ne hw _ _,
        show (s.restart v grow).kv.replicas w = s.kv.replicas w from Function.update_of_ne hw _ _]
      exact hI.stands w

/-! ## 5. What Raft is given -/

section Fed

variable {s : Stack n m} {raft : Cluster n Command} {a : Mit6824.Action n Command}

theorem isRafts_restart (ha : isRafts a = true) (v : Fin n) (grow : Nat) : a ≠ .restart v grow := by
  rintro rfl
  cases ha

theorem isRafts_saves (ha : isRafts a = true) : a.saves = false := by
  cases a with
  | saveSnapshot v index storage => cases ha
  | _ => rfl

/-- No section of Raft invents a command. -/
theorem Fed.starts_step (hI : Fed s) (ha : isRafts a = true) (h : s.raft.step a = some raft) :
    ∀ S ∈ raft.starts, ∃ cmd ∈ s.kv.started, S.command = some cmd := by
  by_cases hs : ∃ k grow, a = .startAppend k grow
  · obtain ⟨k, grow, rfl⟩ := hs
    obtain ⟨S, hS, _, rfl⟩ := Cluster.startAppend_inv h
    intro S' hS'
    rcases List.mem_or_eq_of_mem_set hS' with hS' | rfl
    · exact hI.starts S' hS'
    · exact hI.starts S (List.mem_of_getElem? hS)
  · have hno : a.starts = false := by
      cases a with
      | startAppend k grow => exact absurd ⟨k, grow, rfl⟩ hs
      | startState v command => cases ha
      | restart v grow => cases ha
      | _ => rfl
    rw [(Cluster.step_frame h).starts hno]
    exact hI.starts

theorem Fed.appended_step (hI : Fed s) (h : s.raft.step a = some raft) :
    ∀ e, Appended raft.hist e → ∃ cmd ∈ s.kv.started, e.log = some cmd := by
  rintro e ⟨v, st, i, t, he⟩
  obtain ⟨w, evs, hA⟩ := Cluster.step_acts h
  rw [hA.hist] at he
  rcases List.mem_append.mp he with hnew | hold
  · rcases hA.change with hc | ⟨_, _, rfl, _⟩
    · obtain ⟨_, k, grow, rfl⟩ := hc.append_by_start hnew
      obtain ⟨S, hS, _, rfl⟩ := Cluster.startAppend_inv h
      rw [hA.evs_one rfl, List.mem_singleton, Event.append.injEq] at hnew
      rw [hnew.2.2.1]
      exact hI.starts S (List.mem_of_getElem? hS)
    · exact absurd hnew List.not_mem_nil
  · exact hI.appended e ⟨v, st, i, t, hold⟩

/-- Without snapshots a channel gets commands and messages that look at the size of the state. -/
theorem Fed.values_step (hI : Fed s) (ha : isRafts a = true) (h : s.raft.step a = some raft)
    (v : Fin n) : ∀ msg ∈ (raft.rafts v).applyChan, ∃ c, msg.command = .value c := by
  have hres : ∀ grow, a ≠ .restart v grow := isRafts_restart ha v
  have hsnap := (Cluster.unsnapped_reach (fun _ _ hg => hg) hI.run).snap v
  suffices hnew : ∃ ms, (raft.rafts v).applyChan = (s.raft.rafts v).applyChan ++ ms ∧
      ∀ msg ∈ ms, ∃ c, msg.command = .value c by
    obtain ⟨ms, hms, hval⟩ := hnew
    rw [hms]
    intro msg hm
    rcases List.mem_append.mp hm with hm | hm
    · exact hI.values v msg hm
    · exact hval msg hm
  by_cases hap : a = .apply v
  · subst hap
    obtain ⟨rf, hrf, rfl⟩ := Cluster.apply_inv h
    rw [show ({ s.raft.setRaft v rf with applies := _ } : Cluster n Command).rafts v = rf from
      Function.update_self _ _ _]
    exact Raft.apply_values hsnap hrf
  · obtain ⟨ms, hms, hq⟩ := ((Cluster.chan_step h hres).2 hap).sends
    exact ⟨ms, hms, fun msg hm => ⟨none, by rw [hq msg hm]; rfl⟩⟩

/-- Raft and what it was given are as they were. -/
theorem Fed.above (hI : Fed s) {s' : Stack n m} (hr : s'.raft = s.raft)
    (hs : s'.kv.started = s.kv.started) : Fed s' where
  run := by rw [hr]; exact hI.run
  starts := by rw [hr, hs]; exact hI.starts
  appended := by rw [hr, hs]; exact hI.appended
  values := by rw [hr]; exact hI.values

theorem Fed.start {s' : Stack n m} {r : Nat} (hI : Fed s) (h : s.start r = some s') : Fed s' := by
  obtain ⟨R, isLeader, _, ⟨cmd, t, rfl, hraft⟩ | ⟨stage, rfl⟩⟩ := start_cases h
  · refine ⟨.move _ _ (.startState R.server _) hI.run rfl hraft, fun S hS => ?_, fun e he => ?_,
      hI.values⟩
    · rcases List.mem_append.mp hS with hS | hS
      · obtain ⟨cmd, hcmd, e⟩ := hI.starts S hS
        exact ⟨cmd, List.mem_append_left _ hcmd, e⟩
      · rw [List.mem_singleton.mp hS]
        exact ⟨_, List.mem_append_right _ List.mem_cons_self, rfl⟩
    · obtain ⟨cmd, hcmd, e⟩ := hI.appended e he
      exact ⟨cmd, List.mem_append_left _ hcmd, e⟩
  · exact hI.above rfl rfl

theorem Fed.restart (hI : Fed s) (v : Fin n) (grow : Nat) : Fed (s.restart v grow) := by
  refine ⟨.move _ _ (.restart v grow) hI.run rfl rfl, fun S hS => ?_, ?_, fun w msg hm => ?_⟩
  · obtain ⟨S', hS', rfl⟩ := List.mem_map.mp hS
    obtain ⟨cmd, hcmd, e⟩ := hI.starts S' hS'
    exact ⟨cmd, hcmd, by split <;> exact e⟩
  · rintro e ⟨w, st, i, t, he⟩
    rcases List.mem_cons.mp he with he | he
    · cases he
    · exact hI.appended e ⟨w, st, i, t, he⟩
  · by_cases hw : w = v
    · subst hw
      rw [show (s.restart w grow).raft.rafts w = Raft.make (s.raft.rafts w).persister grow from
        Function.update_self _ _ _, restart_chan (fun _ _ hg => hg) hI.run] at hm
      exact absurd hm List.not_mem_nil
    · rw [show (s.restart v grow).raft.rafts w = s.raft.rafts w from
        Function.update_of_ne hw _ _] at hm
      exact hI.values w msg hm

theorem noted_started (a : Mit6824.Action n Command) (raft : Cluster n Command)
    (kv : Service n m) : (noted a raft kv).started = kv.started := by
  cases a <;> rfl

theorem notify_frame {s' : Stack n m} {v : Fin n} {received : Bool}
    (h : s.notify v received = some s') :
    s'.raft = s.raft ∧ s'.kv.started = s.kv.started := by
  unfold notify at h
  split at h
  · dsimp only at h
    split at h
    · split at h
      · cases h
        exact ⟨rfl, rfl⟩
      · cases h
        split <;> exact ⟨rfl, rfl⟩
    · cases h
  · cases h

/-- **Every step keeps it**, with no condition on Raft. -/
theorem fed_step {me : Fin m → Int} {s' : Stack n m} {a : StackAction n m} (hI : Fed s)
    (h : s.step me a = some s') : Fed s' := by
  cases a with
  | raft a =>
      simp only [step, raftStep] at h
      split at h
      · rename_i ha
        obtain ⟨raft, hraft, rfl⟩ := Option.map_eq_some_iff.mp h
        refine ⟨.move _ _ a hI.run (isRafts_saves ha) hraft, ?_, ?_, hI.values_step ha hraft⟩
        · rw [noted_started]
          exact hI.starts_step ha hraft
        · rw [noted_started]
          exact hI.appended_step hraft
      · cases h
  | kv a =>
      simp only [step] at h
      split at h
      · rename_i ha
        obtain ⟨kv, hkv, rfl⟩ := Option.map_eq_some_iff.mp h
        exact hI.above rfl (services_frame ha hkv).2.1
      · cases h
  | start r => exact hI.start h
  | timeout r =>
      simp only [step, timeout] at h
      split at h
      · cases h
      · obtain ⟨kv, hkv, rfl⟩ := Option.map_eq_some_iff.mp h
        obtain ⟨R, _, _, rfl⟩ := Service.timeout_inv hkv
        exact hI.above rfl rfl
  | take v =>
      obtain ⟨_, ⟨cmd, i, _, rfl⟩ | ⟨msg, _, _, rfl⟩⟩ := take_cases h
      · exact hI.above rfl rfl
      · exact hI.above rfl rfl
  | notify v received => exact hI.above (notify_frame h).1 (notify_frame h).2
  | restart v grow =>
      cases Option.some.inj h
      exact hI.restart v grow

theorem fed_reach {me : Fin m → Int} {G : Stack n m → StackAction n m → Prop}
    (h : Reach (step me) G (init n m) s) : Fed s :=
  Reach.inv fed_init (fun _ _ _ hI _ hs => fed_step hI hs) h

/-- **A command on a channel was started.** -/
theorem Fed.delivered (hI : Fed s) {v : Fin n} {msg : ApplyMsg Command}
    (hm : msg ∈ s.raft.everSent v) (hv : msg.commandValid = true) :
    ∃ cmd ∈ s.kv.started, msg.command = .value (some cmd) := by
  obtain ⟨e, he, rfl⟩ := Cluster.delivered_appended (fun _ _ hg => hg) hI.run hm hv
  obtain ⟨cmd, hcmd, hlog⟩ := hI.appended e he
  exact ⟨cmd, hcmd, by rw [hlog]⟩

end Fed

/-! ## 6. Raft's own steps -/

/-- Commands that were started can be agreed on, one after the other. -/
theorem reach_agree {me : Fin m → Int} {cmds : List Command} : ∀ {kv : Service n m},
    (∀ cmd ∈ cmds, cmd ∈ kv.started) →
    Reach (Service.step me) AnyStep kv { kv with agreed := kv.agreed ++ cmds } := by
  induction cmds with
  | nil =>
      intro kv _
      rw [List.append_nil]
      exact .start
  | cons cmd cmds ih =>
      intro kv h
      obtain ⟨i, hi⟩ := List.mem_iff_getElem?.mp (h cmd List.mem_cons_self)
      have hone : kv.step me (.agree i) = some { kv with agreed := kv.agreed ++ [cmd] } := by
        simp only [Service.step, Service.agree, hi, Option.map_some]
      refine (reach_one (.agree i) hone).trans ?_
      have hrest : Reach (Service.step me) AnyStep { kv with agreed := kv.agreed ++ [cmd] }
          { kv with agreed := kv.agreed ++ [cmd] ++ cmds } :=
        ih fun c hc => h c (List.mem_cons_of_mem _ hc)
      rw [List.append_assoc] at hrest
      exact hrest

theorem map_some_commands {seq : List (Option Command)} (h : ∀ c ∈ seq, ∃ cmd, c = some cmd) :
    (seq.filterMap id).map some = seq := by
  induction seq with
  | nil => rfl
  | cons c seq ih =>
      obtain ⟨cmd, rfl⟩ := h c List.mem_cons_self
      exact congrArg (some cmd :: ·) (ih fun c hc => h c (List.mem_cons_of_mem _ hc))

/-- A sequence of commands that is comparable with the record, put on record. -/
theorem noted_agreed {old : List Command} {seq : List (Option Command)}
    (hsome : ∀ c ∈ seq, ∃ cmd, c = some cmd)
    (hcmp : seq <+: old.map some ∨ old.map some <+: seq) :
    (old ++ (seq.drop old.length).filterMap id = old ∧ seq <+: old.map some) ∨
      (old ++ (seq.drop old.length).filterMap id).map some = seq := by
  rcases hcmp with hpre | ⟨rest, rfl⟩
  · have hle : seq.length ≤ old.length := by simpa using hpre.length_le
    exact Or.inl ⟨by rw [List.drop_eq_nil_of_le hle, List.filterMap_nil, List.append_nil], hpre⟩
  · have hrest : ∀ c ∈ rest, ∃ cmd, c = some cmd := fun c hc =>
      hsome c (List.mem_append_right _ hc)
    rw [List.drop_left' (List.length_map _), List.map_append, map_some_commands hrest]
    exact Or.inr rfl

section Raft

variable {s : Stack n m} {raft : Cluster n Command} {a : Mit6824.Action n Command}

/-- Nothing new is delivered by a section that is no `apply`. -/
theorem sequence_step (ha : isRafts a = true) (h : s.raft.step a = some raft) {v : Fin n}
    (hap : a ≠ .apply v) :
    sequence (raft.rafts v).applyChan = sequence (s.raft.rafts v).applyChan := by
  obtain ⟨ms, hms, hq⟩ := ((Cluster.chan_step h (isRafts_restart ha v)).2 hap).sends
  have hnone : sequence ms = [] := sequence_invalid fun m hm => by rw [hq m hm]; rfl
  rw [hms, sequence_append, hnone, List.append_nil]

/-- What a server was delivered, after a section of Raft: commands that were started, in the order
    of the record as far as it goes. -/
theorem Fits.delivered (hI : Fits s) (hF : Fed s) (hg : Cluster.IntactStep s.raft a)
    (h : s.raft.step a = some raft) (v : Fin n) :
    (∀ (j : Nat) (c : Option Command), (sequence (raft.rafts v).applyChan)[j]? = some c →
      ⟨true, .value c, j + 1⟩ ∈ raft.everSent v ∧ ∃ cmd ∈ s.kv.started, c = some cmd) ∧
    (sequence (raft.rafts v).applyChan <+: s.kv.agreed.map some ∨
      s.kv.agreed.map some <+: sequence (raft.rafts v).applyChan) := by
  have hrun : Reach Cluster.step Cluster.IntactStep s.raft raft := .move _ _ a .start hg h
  have hsent : ∀ (j : Nat) (c : Option Command), (sequence (raft.rafts v).applyChan)[j]? = some c →
      ⟨true, .value c, j + 1⟩ ∈ raft.everSent v := fun j c hc =>
    List.mem_append_right _ ((Cluster.numbered_reach (fun _ _ hg => hg.plain)
      (hI.run.trans hrun) v).counted.get hc)
  refine ⟨fun j c hc => ⟨hsent j c hc, ?_⟩, begins_or_begins fun j c c' hc hc' => ?_⟩
  · obtain ⟨e, he, hm⟩ := Cluster.delivered_appended (fun _ _ hg => hg.plain)
      (hI.run.trans hrun) (hsent j c hc) rfl
    obtain ⟨cmd, hcmd, hlog⟩ := hF.appended_step h e he
    simp only [ApplyMsg.mk.injEq, Payload.value.injEq, true_and] at hm
    exact ⟨cmd, hcmd, hm.1.trans hlog⟩
  · rw [List.getElem?_map] at hc'
    obtain ⟨cmd, hcmd, rfl⟩ := Option.map_eq_some_iff.mp hc'
    obtain ⟨w, hw⟩ := hI.agreed j cmd hcmd
    exact (Cluster.delivered_same hI.run hrun hw (hsent j c hc)).symm

/-- A section of Raft, with what it puts on record. -/
theorem Fits.below (hI : Fits s) (hg : Cluster.IntactStep s.raft a) (ha : isRafts a = true)
    (h : s.raft.step a = some raft) (cmds : List Command)
    (hnew : ∀ (i : Nat) (cmd : Command), s.kv.agreed.length ≤ i →
      (s.kv.agreed ++ cmds)[i]? = some cmd →
      ∃ v, ⟨true, .value (some cmd), i + 1⟩ ∈ raft.everSent v)
    (hsent : ∀ v, sequence (raft.rafts v).applyChan <+: (s.kv.agreed ++ cmds).map some) :
    Fits { s with raft := raft, kv := { s.kv with agreed := s.kv.agreed ++ cmds } } where
  run := .move _ _ a hI.run hg h
  agreed i cmd hi := by
    rcases Nat.lt_or_ge i s.kv.agreed.length with hlt | hge
    · rw [List.getElem?_append_left hlt] at hi
      obtain ⟨v, hv⟩ := hI.agreed i cmd hi
      exact ⟨v, Cluster.everSent_mono (.move _ _ a .start hg h) hv⟩
    · exact hnew i cmd hge hi
  sent := hsent
  stands v := by
    obtain ⟨ms, hms, _⟩ := (Cluster.chan_step h (isRafts_restart ha v)).1
    dsimp only
    rw [hms]
    exact (hI.stands v).grow ms

/-- `apply` brings the record up to what the server has delivered. -/
theorem apply_fits {me : Fin m → Int} {v : Fin n} (hI : Fits s) (hF : Fed s)
    (hg : Cluster.IntactStep s.raft (.apply v)) (h : s.raft.step (.apply v) = some raft) :
    Reach (Service.step me) AnyStep s.kv (noted (.apply v) raft s.kv) ∧
      Fits { s with raft := raft, kv := noted (.apply v) raft s.kv } := by
  obtain ⟨hdel, hcmp⟩ := hI.delivered hF hg h v
  have hsome : ∀ c ∈ sequence (raft.rafts v).applyChan, ∃ cmd ∈ s.kv.started, c = some cmd := by
    intro c hc
    obtain ⟨j, hj⟩ := List.mem_iff_getElem?.mp hc
    exact (hdel j c hj).2
  refine ⟨reach_agree fun cmd hcmd => ?_, hI.below hg rfl h _ ?_ fun w => ?_⟩
  · obtain ⟨c, hc, e⟩ := List.mem_filterMap.mp hcmd
    obtain ⟨cmd', hcmd', rfl⟩ := hsome c (List.mem_of_mem_drop hc)
    cases e
    exact hcmd'
  all_goals
    have hcases := noted_agreed (fun c hc => (hsome c hc).imp fun _ h => h.2) hcmp
  · intro i cmd hi hcmd
    rcases hcases with ⟨e, _⟩ | e
    · rw [e] at hcmd
      exact absurd (List.getElem?_eq_some_iff.mp hcmd).1 (by omega)
    · refine ⟨v, (hdel i (some cmd) ?_).1⟩
      rw [← e, List.getElem?_map, hcmd]
      rfl
  · by_cases hw : w = v
    · subst hw
      rcases hcases with ⟨e, hpre⟩ | e
      · rw [e]
        exact hpre
      · rw [e]
    · rw [sequence_step rfl h fun e => hw (by cases e; rfl), List.map_append]
      exact (hI.sent w).trans (List.prefix_append _ _)

theorem raft_fits {me : Fin m → Int} {s' : Stack n m} (hI : Fits s) (hF : Fed s)
    (hg : Cluster.IntactStep s.raft a) (h : s.raftStep a = some s') :
    Reach (Service.step me) AnyStep s.kv s'.kv ∧ Fits s' := by
  unfold raftStep at h
  split at h
  · rename_i ha
    obtain ⟨raft, hraft, rfl⟩ := Option.map_eq_some_iff.mp h
    by_cases hap : ∃ v, a = .apply v
    · obtain ⟨v, rfl⟩ := hap
      exact apply_fits hI hF hg hraft
    · have hnoted : noted a raft s.kv = s.kv := by
        cases a with
        | apply v => exact absurd ⟨v, rfl⟩ hap
        | _ => rfl
      rw [hnoted]
      refine ⟨.start, ?_⟩
      have hfit := hI.below hg ha hraft [] (fun i cmd hi hcmd => ?_) fun w => ?_
      · rw [List.append_nil] at hfit
        exact hfit
      · rw [List.append_nil] at hcmd
        exact absurd (List.getElem?_eq_some_iff.mp hcmd).1 (by omega)
      · rw [sequence_step ha hraft fun e => hap ⟨w, e⟩, List.append_nil]
        exact hI.sent w
  · cases h

end Raft

/-! ## 7. Every run -/

variable {me : Fin m → Int}

/-- **Every step is followed above**, and the levels go on to fit. -/
theorem fits_step {s s' : Stack n m} {a : StackAction n m} (hI : Fits s) (hF : Fed s)
    (hg : s.Intact a) (h : s.step me a = some s') :
    Reach (Service.step me) AnyStep s.kv s'.kv ∧ Fits s' := by
  cases a with
  | raft a => exact raft_fits hI hF hg h
  | kv a =>
      simp only [step] at h
      split at h
      · rename_i ha
        obtain ⟨kv, hkv, rfl⟩ := Option.map_eq_some_iff.mp h
        obtain ⟨hagreed, _, hrep⟩ := services_frame ha hkv
        exact ⟨reach_one a hkv, hI.above hagreed hrep⟩
      · cases h
  | start r => exact start_fits hI h
  | timeout r => exact timeout_fits hI h
  | take v => exact take_fits hI h
  | notify v received => exact notify_fits hI h
  | restart v grow =>
      cases Option.some.inj h
      exact restart_fits hI v grow

theorem fits_reach {s : Stack n m} (h : Reach (step me) Intact (init n m) s) :
    Fits s ∧ Reach (Service.step me) AnyStep (Service.init n m) s.kv := by
  induction h with
  | start => exact ⟨fits_init, .start⟩
  | move s s' a hr hg hs ih =>
      obtain ⟨hrun, hfit⟩ := fits_step ih.1 (fed_reach hr) hg hs
      exact ⟨hfit, ih.2.trans hrun⟩

/-- **The service on this Raft is the service on a correct one**: whatever the sections of the two
    levels do in whatever order, with crashes of whole servers at any time, the servers, handlers
    and clerks do what they do over one sequence that all servers are delivered, as long as Raft
    keeps to its four guards and sends its requests as they were built. -/
theorem stack_refines {s : Stack n m} (h : Reach (step me) Intact (init n m) s) :
    Reach (Service.step me) AnyStep (Service.init n m) s.kv :=
  (fits_reach h).2

/-- The guards, evaluated. -/
def intactB (s : Stack n m) : StackAction n m → Bool
  | .raft a => s.raft.intactGuard a
  | _ => true

theorem intact_of_intactB (s : Stack n m) (a : StackAction n m) (h : s.intactB a = true) :
    s.Intact a := by
  cases a with
  | raft a => exact Cluster.intact_of_guard h
  | _ => trivial

/-- Raft elects server 0; a clerk puts; the entry is on server 1 and committed; server 0 has written
    and notifies the handler. -/
def onePut : List (StackAction 3 1) :=
  ([.startOneElection 0, .voteArgs 0, .voteArgs 0, .handleVote 0 1, .voteCheck 0 1,
      .voteReply 0 1] : List (Mit6824.Action 3 Command)).map .raft ++
    ([.kv (.call 0 (.put "x" "1")), .kv (.send 0), .kv (.check 0), .start 0] :
      List (StackAction 3 1)) ++
    ([.startAppend 0 0, .castState 0, .castTerm 0, .peerState 0 1, .peerArgs 0 1, .encode 0 1 9,
      .handleAppend 0 1 0, .peerCheck 0 1, .peerReply 0 1, .apply 0] :
      List (Mit6824.Action 3 Command)).map .raft ++
    ([.take 0, .take 0, .take 0, .take 0, .kv (.store 0), .notify 0 true] :
      List (StackAction 3 1))

theorem stack_refines_put : ∃ s : Stack 3 1,
    s.kv.history = [.call 0 (.put "x" "1"), .ret 0 ""] ∧
    Reach (Service.step fun c => (c : Int)) AnyStep (Service.init 3 1) s.kv := by
  have run : (exec (step fun c => (c : Int)) intactB (init 3 1)
      (onePut ++ ([.kv (.confirm 0), .kv (.finish 0), .kv (.receive 0)] :
        List (StackAction 3 1)))).any (fun s => decide (s.kv.history =
          [.call 0 (.put "x" "1"), .ret 0 ""])) = true := by decide +kernel
  obtain ⟨s, hr, run⟩ := exists_of_exec run
  exact ⟨s, of_decide_eq_true run, stack_refines (hr.mono intact_of_intactB)⟩

theorem agreed_step {kv kv' : Service n m} {a : Action n m} (h : kv.step me a = some kv') :
    kv.agreed <+: kv'.agreed := by
  by_cases ha : isServices a = true
  · rw [(services_frame ha h).1]
  · cases a with
    | start r isLeader =>
        obtain ⟨R, _, _, rfl | rfl⟩ := Service.start_inv h
        · exact List.prefix_rfl
        · exact List.prefix_rfl
    | timeout r =>
        obtain ⟨R, _, _, rfl⟩ := Service.timeout_inv h
        exact List.prefix_rfl
    | agree i =>
        obtain ⟨cmd, _, rfl⟩ := Service.agree_inv h
        exact List.prefix_append _ _
    | take v =>
        obtain ⟨cmd, _, _, ⟨_, _, rfl⟩ | ⟨_, _, _, rfl⟩ | ⟨_, _, _, rfl⟩⟩ := Service.take_inv h
        · exact List.prefix_rfl
        · exact List.prefix_rfl
        · exact List.prefix_rfl
    | notify v received =>
        obtain ⟨_, ⟨cmd, W, _, _, _, _, rfl⟩ | rfl⟩ := Service.notify_inv h
        · exact List.prefix_rfl
        · exact List.prefix_rfl
    | restart v =>
        cases Option.some.inj h
        exact List.prefix_rfl
    | _ => exact absurd rfl ha

theorem agreed_mono {s s' : Stack n m} (h : Reach (step me) Intact (init n m) s)
    (h' : Reach (step me) Intact s s') : s.kv.agreed <+: s'.kv.agreed := by
  induction h' with
  | start => exact List.prefix_rfl
  | move s₁ s₂ a hr hg hs ih =>
      have hr' := h.trans hr
      obtain ⟨hrun, _⟩ := fits_step (fits_reach hr').1 (fed_reach hr') hg hs
      exact ih.trans (Reach.inv (I := fun kv => s₁.kv.agreed <+: kv.agreed) List.prefix_rfl
        (fun _ _ _ hp _ h' => hp.trans (agreed_step h')) hrun)

/-- **Replicas agree**: two servers that have applied equally many commands hold the same maps, be
    it at one moment or at two, and however often they were restarted. -/
theorem replicas_agree (hme : Function.Injective me) {s₁ s₂ : Stack n m}
    (h₁ : Reach (step me) Intact (init n m) s₁) (h₂ : Reach (step me) Intact s₁ s₂) (v w : Fin n)
    (hv : ∀ args, (s₁.kv.replicas v).loop ≠ .storing args)
    (hw : ∀ args, (s₂.kv.replicas w).loop ≠ .storing args)
    (heq : (s₁.kv.replicas v).applied = (s₂.kv.replicas w).applied) :
    (s₁.kv.replicas v).kv = (s₂.kv.replicas w).kv := by
  have ok₁ := (Service.inv_reach hme (fits_reach h₁).2).replica v
  have ok₂ := (Service.inv_reach hme (fits_reach (h₁.trans h₂)).2).replica w
  have hops : s₁.kv.ops <+: s₂.kv.ops := Service.ops_begins (agreed_mono h₁ h₂)
  have htake := take_of_begins hops ok₁.le
  refine Tables.ext ?_ ?_
  · rw [ok₁.data, ok₂.data, Replica.written_eq hv, Replica.written_eq hw, htake, heq]
  · rw [ok₁.ids, ok₂.ids, htake, heq]

/-- Server 0 has written when it crashes; server 1 writes later. -/
theorem replicas_agree_restarted : ∃ s₁ s₂ : Stack 3 1,
    (s₁.kv.replicas 0).kv.storage "x" = some "1" ∧ (s₂.kv.replicas 0).applied = 0 ∧
    (s₁.kv.replicas 0).kv = (s₂.kv.replicas 1).kv := by
  have run : (exec (step fun c => (c : Int)) intactB (init 3 1) onePut).any (fun s₁ =>
      (exec (step fun c => (c : Int)) intactB s₁
        (([.beatState 0, .beatSend 0, .castState 1, .castTerm 1, .peerState 1 1, .peerArgs 1 1,
            .encode 1 1 9, .handleAppend 1 1 0, .apply 1] :
            List (Mit6824.Action 3 Command)).map .raft ++
          ([.restart 0 0, .take 1, .take 1, .take 1, .take 1, .take 1, .kv (.store 1)] :
            List (StackAction 3 1)))).any fun s₂ =>
        decide ((s₁.kv.replicas 0).kv.storage "x" = some "1" ∧ (s₂.kv.replicas 0).applied = 0 ∧
          (s₁.kv.replicas 0).loop = .idle ∧ (s₂.kv.replicas 1).loop = .notifying ∧
          (s₁.kv.replicas 0).applied = (s₂.kv.replicas 1).applied)) = true := by decide +kernel
  obtain ⟨s₁, h₁, run⟩ := exists_of_exec run
  obtain ⟨s₂, h₂, run⟩ := exists_of_exec run
  obtain ⟨hx, h0, hl₁, hl₂, heq⟩ := of_decide_eq_true run
  have hme : Function.Injective fun c : Fin 1 => (c : Int) := fun a b _ => Subsingleton.elim a b
  exact ⟨s₁, s₂, hx, h0, replicas_agree hme (h₁.mono intact_of_intactB)
    (h₂.mono intact_of_intactB) 0 1 (by rw [hl₁]; nofun) (by rw [hl₂]; nofun) heq⟩

end Stack

end Mit6824.Kv
