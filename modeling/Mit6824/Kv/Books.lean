/-
  File:      Mit6824/Kv/Books.lean
  Subject:   WHAT HOLDS IN EVERY STATE OF THE SERVICE.

  * `ReplicaOk` -- a server's maps are those after a beginning of the agreed sequence, `Storage`
    one command behind `ClientMsgId` between the two sections of `apply`;
  * `StageOk`, `Answered` -- what a handler that was notified, or has answered, may rely on;
  * `MarkOk` -- what a return on record stands for: a write has taken effect by then, a Get has read
    the state after `point` commands, all later than its call;
  * `Inv` -- all of it; `Grows` -- what no step takes back, and the parts of `Inv` that rest on
    nothing else; `inv_reach` -- in every run.
-/
import Mit6824.Lib.TermLog
import Mit6824.Kv.Service

namespace Mit6824.Kv

open Lib

/-! ## 1. Servers -/

/-- **A server is where the agreed sequence says**, after `applied` of its commands. -/
structure ReplicaOk (ops : List Op) (R : Replica) : Prop where
  le : R.applied ≤ ops.length
  ids : R.kv.clientMsgId = (replay (ops.take R.applied)).clientMsgId
  data : R.kv.storage = (replay (ops.take R.written)).storage
  storing : ∀ args, R.loop = .storing args → ∃ q, R.applied = q + 1 ∧ Effective ops q args
  notifying : R.loop = .notifying → 0 < R.applied

theorem Replica.written_le (R : Replica) : R.written ≤ R.applied := by
  unfold Replica.written
  split <;> omega

theorem Replica.written_eq {R : Replica} (h : ∀ args, R.loop ≠ .storing args) :
    R.written = R.applied := by
  unfold Replica.written
  split
  · rename_i args hl
    exact absurd hl (h args)
  · rfl

theorem replicaOk_start (ops : List Op) : ReplicaOk ops startKVServer :=
  ⟨Nat.zero_le _, rfl, rfl, nofun, nofun⟩

namespace ReplicaOk

variable {ops ops' : List Op} {R : Replica}

theorem grow (h : ReplicaOk ops R) (hb : ops <+: ops') : ReplicaOk ops' R where
  le := le_trans h.le hb.length_le
  ids := by
    rw [← take_of_begins hb h.le]
    exact h.ids
  data := by
    rw [← take_of_begins hb (le_trans R.written_le h.le)]
    exact h.data
  storing args hl := by
    obtain ⟨q, hq, he⟩ := h.storing args hl
    exact ⟨q, hq, he.grow hb⟩
  notifying := h.notifying

/-- Outside the two sections of a write both maps are up to date. -/
theorem kv_eq (h : ReplicaOk ops R) (hl : ∀ args, R.loop ≠ .storing args) :
    R.kv = replay (ops.take R.applied) := by
  refine Tables.ext ?_ h.ids
  rw [h.data, Replica.written_eq hl]

/-- The message is a Get, or a write that is noted already. -/
theorem passes (h : ReplicaOk ops R) (hl : R.loop = .idle) {op : Op}
    (hop : ops[R.applied]? = some op)
    (hsame : (replay (ops.take R.applied)).apply op = replay (ops.take R.applied)) :
    ReplicaOk ops { R with applied := R.applied + 1, loop := .notifying } := by
  have hkv := h.kv_eq (by rw [hl]; nofun)
  have hnext : replay (ops.take (R.applied + 1)) = replay (ops.take R.applied) := by
    rw [replay_take_succ hop, hsame]
  refine ⟨(List.getElem?_eq_some_iff.mp hop).1, ?_, ?_, nofun, fun _ => Nat.succ_pos _⟩
  · rw [hnext]
    exact h.ids
  · show R.kv.storage = (replay (ops.take (R.applied + 1))).storage
    rw [hnext, hkv]

/-- A new write is noted and not yet stored. -/
theorem notes (h : ReplicaOk ops R) (hl : R.loop = .idle) {args : PutAppendArgs}
    (hop : ops[R.applied]? = some (.putAppend args)) (hn : ¬ R.kv.Noted args.clientId args.msgId) :
    ReplicaOk ops { R with
      kv := ⟨R.kv.storage, Function.update R.kv.clientMsgId args.clientId (some args.msgId)⟩
      applied := R.applied + 1
      loop := .storing args } := by
  have hkv := h.kv_eq (by rw [hl]; nofun)
  rw [hkv] at hn
  refine ⟨(List.getElem?_eq_some_iff.mp hop).1, ?_, ?_, ?_, nofun⟩
  · rw [replay_take_succ hop, Tables.apply_new hn, ← hkv]
  · show R.kv.storage = (replay (ops.take R.applied)).storage
    rw [hkv]
  · intro args' hargs
    cases hargs
    exact ⟨R.applied, rfl, hop, hn⟩

/-- The second section. -/
theorem stores (h : ReplicaOk ops R) {args : PutAppendArgs} (hl : R.loop = .storing args) :
    ReplicaOk ops { R with kv := R.kv.store args, loop := .notifying } := by
  obtain ⟨q, hq, hop, hn⟩ := h.storing args hl
  have hw : R.written = q := by
    unfold Replica.written
    rw [hl]
    show R.applied - 1 = q
    omega
  have hd := h.data
  rw [hw] at hd
  refine ⟨h.le, h.ids, ?_, nofun, fun _ => by show 0 < R.applied; omega⟩
  show (R.kv.store args).storage = (replay (ops.take R.applied)).storage
  rw [hq, replay_take_succ hop, Tables.apply_new hn]
  simp only [Tables.store, hd]

theorem rests (h : ReplicaOk ops R) (hl : R.loop = .notifying) :
    ReplicaOk ops { R with loop := .idle } := by
  refine ⟨h.le, h.ids, ?_, nofun, nofun⟩
  have hd := h.data
  rwa [Replica.written_eq (by rw [hl]; nofun)] at hd

end ReplicaOk

/-- The call that returned. -/
def Mark.returned : Mark → Option Nat
  | .call _ _ _ => none
  | .wrote _ id | .read _ id _ _ _ => some id

namespace Service

variable {n m : Nat} {me : Fin m → Int} {s s' : Service n m}

/-! ## 2. Handlers and returns -/

/-- The commands agreed on. -/
def ops (s : Service n m) : List Op := s.agreed.map (·.op)

/-- A command of this request's call has been agreed on at place `i`, and its server has it. -/
def Reaches (s : Service n m) (R : Rpc n) (i : Nat) : Prop :=
  ∃ cmd, s.agreed[i]? = some cmd ∧ cmd.call = R.call ∧ i < (s.replicas R.server).written

/-- A call may be answered so: a Get with a value it had after its call, a write after it was
    noted. -/
def Answered (s : Service n m) (k : Call m) (point : Nat) (value : String) : Prop :=
  match k.req with
  | .get args => k.stamp < point ∧ point ≤ s.agreed.length ∧
      value = ((replay (s.ops.take point)).storage args.key).getD ""
  | .putAppend args => (replay s.ops).Noted args.clientId args.msgId ∧ value = ""

def StageOk (s : Service n m) (k : Call m) (R : Rpc n) : Prop :=
  match R.stage with
  | .notified _ => ∃ i, s.Reaches R i
  | .granted =>
      match k.req with
      | .get _ => ∃ i, s.Reaches R i
      | .putAppend args => (replay s.ops).Noted args.clientId args.msgId
  | .replied reply point => reply.err ≠ .notLeaderError → s.Answered k point reply.value
  | _ => True

/-- **What an entry of the record stands for.** -/
def MarkOk (s : Service n m) : Mark → Prop
  | .call stamp id input => ∃ k, s.calls[id]? = some k ∧ k.stamp = stamp ∧ k.req.input = input
  | .wrote stamp id => ∃ k args q cmd, s.calls[id]? = some k ∧ k.req = .putAppend args ∧
      s.agreed[q]? = some cmd ∧ cmd.call = id ∧ Effective s.ops q args ∧ q < stamp
  | .read stamp id point key value => ∃ k, s.calls[id]? = some k ∧ k.req = .get ⟨key⟩ ∧
      k.stamp < point ∧ point ≤ stamp ∧
      value = ((replay (s.ops.take point)).storage key).getD ""

/-- **The books of the service.** -/
structure Inv (me : Fin m → Int) (s : Service n m) : Prop where
  replica : ∀ v, ReplicaOk s.ops (s.replicas v)
  call : ∀ (id : Nat) (k : Call m), s.calls[id]? = some k →
    k.stamp ≤ s.agreed.length ∧ Mark.call k.stamp id k.req.input ∈ s.hist
  write : ∀ (id : Nat) (k : Call m) (args : PutAppendArgs), s.calls[id]? = some k →
    k.req = .putAppend args →
    args.clientId = me k.clerk ∧ args.msgId ≤ (s.clerks k.clerk).globalId
  unique : ∀ (id id' : Nat) (k k' : Call m) (args args' : PutAppendArgs),
    s.calls[id]? = some k → s.calls[id']? = some k' → k.req = .putAppend args →
    k'.req = .putAppend args' → k.clerk = k'.clerk → args.msgId = args'.msgId → id = id'
  clerk : ∀ (c : Fin m) (K : Calling), (s.clerks c).calling = some K →
    (∃ k, s.calls[K.call]? = some k ∧ k.clerk = c ∧
      ∀ args, k.req = .putAppend args → args.msgId = (s.clerks c).globalId) ∧
    ∀ mk ∈ s.hist, mk.returned ≠ some K.call
  asked : ∀ (c : Fin m) (K : Calling) (r : Nat), (s.clerks c).calling = some K → K.rpc = some r →
    ∃ R, s.rpcs[r]? = some R ∧ R.call = K.call
  rpc : ∀ (r : Nat) (R : Rpc n), s.rpcs[r]? = some R →
    ∃ k, s.calls[R.call]? = some k ∧ k.req = R.req ∧ s.StageOk k R
  command : ∀ cmd ∈ s.started,
    (∃ k, s.calls[cmd.call]? = some k ∧ k.req = cmd.op ∧ k.stamp ≤ cmd.since) ∧
    cmd.since ≤ s.agreed.length ∧ ∃ R, s.rpcs[cmd.notifyChan]? = some R ∧ R.call = cmd.call
  agreed : ∀ (p : Nat) (cmd : Command), s.agreed[p]? = some cmd →
    cmd ∈ s.started ∧ cmd.since ≤ p
  mark : ∀ mk ∈ s.hist, mk.stamp ≤ s.agreed.length ∧ s.MarkOk mk
  mono : s.hist.Pairwise fun a b => a.stamp ≤ b.stamp
  once : s.hist.Pairwise fun a b => ∀ id, a.returned = some id → b.returned ≠ some id

theorem inv_init : Inv me (init n m) := by
  have nocall : ∀ (id : Nat) (k : Call m), (init n m).calls[id]? ≠ some k := by simp [init]
  have norpc : ∀ (r : Nat) (R : Rpc n), (init n m).rpcs[r]? ≠ some R := by simp [init]
  have nocmd : ∀ (p : Nat) (cmd : Command), (init n m).agreed[p]? ≠ some cmd := by simp [init]
  have noclerk : ∀ (c : Fin m) (K : Calling), ((init n m).clerks c).calling ≠ some K := by
    simp [init]
  exact {
    replica := fun v => replicaOk_start _
    call := fun id k hk => absurd hk (nocall id k)
    write := fun id k _ hk => absurd hk (nocall id k)
    unique := fun id _ k _ _ _ hk => absurd hk (nocall id k)
    clerk := fun c K hK => absurd hK (noclerk c K)
    asked := fun c K _ hK => absurd hK (noclerk c K)
    rpc := fun r R hR => absurd hR (norpc r R)
    command := fun _ hcmd => absurd hcmd List.not_mem_nil
    agreed := fun p cmd hp => absurd hp (nocmd p cmd)
    mark := fun _ hmk => absurd hmk List.not_mem_nil
    mono := List.Pairwise.nil
    once := List.Pairwise.nil }

theorem ops_length (s : Service n m) : s.ops.length = s.agreed.length := List.length_map _

theorem ops_get {p : Nat} {cmd : Command} (h : s.agreed[p]? = some cmd) :
    s.ops[p]? = some cmd.op := by
  unfold ops
  rw [List.getElem?_map, h]
  rfl

/-- The call of an agreed command. -/
theorem Inv.call_of (h : Inv me s) {p : Nat} {cmd : Command} (hp : s.agreed[p]? = some cmd) :
    ∃ k, s.calls[cmd.call]? = some k ∧ k.req = cmd.op ∧ k.stamp ≤ p := by
  obtain ⟨hst, hle⟩ := h.agreed p cmd hp
  obtain ⟨⟨k, hk, hreq, hs⟩, _⟩ := h.command cmd hst
  exact ⟨k, hk, hreq, le_trans hs hle⟩

/-! ## 3. What stays true while the sequence and the servers go on -/

theorem ops_begins (h : s.agreed <+: s'.agreed) : s.ops <+: s'.ops := h.map _

theorem Reaches.mono {R : Rpc n} {i : Nat} (h : s.Reaches R i) (ha : s.agreed <+: s'.agreed)
    (hw : (s.replicas R.server).written ≤ (s'.replicas R.server).written) : s'.Reaches R i := by
  obtain ⟨cmd, hc, hcall, hlt⟩ := h
  exact ⟨cmd, get_of_begins ha hc, hcall, by omega⟩

theorem Answered.mono {k : Call m} {point : Nat} {value : String} (h : s.Answered k point value)
    (ha : s.agreed <+: s'.agreed) : s'.Answered k point value := by
  unfold Answered at h ⊢
  split
  · rename_i args hreq
    simp only [hreq] at h
    obtain ⟨h1, h2, h3⟩ := h
    refine ⟨h1, le_trans h2 ha.length_le, ?_⟩
    rw [← take_of_begins (ops_begins ha) (by rw [ops_length]; exact h2)]
    exact h3
  · rename_i args hreq
    simp only [hreq] at h
    exact ⟨noted_mono (ops_begins ha) h.1, h.2⟩

theorem StageOk.mono {k : Call m} {R : Rpc n} (h : s.StageOk k R) (ha : s.agreed <+: s'.agreed)
    (hw : (s.replicas R.server).written ≤ (s'.replicas R.server).written) : s'.StageOk k R := by
  unfold StageOk at h ⊢
  split
  · rename_i index hst
    simp only [hst] at h
    obtain ⟨i, hi⟩ := h
    exact ⟨i, hi.mono ha hw⟩
  · rename_i hst
    simp only [hst] at h
    split
    · rename_i args hreq
      simp only [hreq] at h
      obtain ⟨i, hi⟩ := h
      exact ⟨i, hi.mono ha hw⟩
    · rename_i args hreq
      simp only [hreq] at h
      exact noted_mono (ops_begins ha) h
  · rename_i reply point hst
    simp only [hst] at h
    exact fun herr => (h herr).mono ha
  · trivial

theorem MarkOk.mono {mk : Mark} (h : s.MarkOk mk) (ha : s.agreed <+: s'.agreed)
    (hc : s.calls <+: s'.calls) (hle : mk.stamp ≤ s.agreed.length) : s'.MarkOk mk := by
  cases mk with
  | call stamp id input =>
      obtain ⟨k, hk, hrest⟩ := h
      exact ⟨k, get_of_begins hc hk, hrest⟩
  | wrote stamp id =>
      obtain ⟨k, args, q, cmd, hk, hreq, hq, hcall, he, hlt⟩ := h
      exact ⟨k, args, q, cmd, get_of_begins hc hk, hreq, get_of_begins ha hq, hcall,
        he.grow (ops_begins ha), hlt⟩
  | read stamp id point key value =>
      obtain ⟨k, hk, hreq, h1, h2, h3⟩ := h
      refine ⟨k, get_of_begins hc hk, hreq, h1, h2, ?_⟩
      rw [← take_of_begins (ops_begins ha) (by rw [ops_length]; exact le_trans h2 hle)]
      exact h3

/-- **What no step takes back**: the calls, the agreed sequence, and which call a request is of. -/
structure Grows (s s' : Service n m) : Prop where
  calls : s.calls <+: s'.calls
  agreed : s.agreed <+: s'.agreed
  rpcs : ∀ (i : Nat) (W : Rpc n), s.rpcs[i]? = some W →
    ∃ W', s'.rpcs[i]? = some W' ∧ W'.call = W.call

section Growth

variable (hg : Grows s s')
include hg

theorem Inv.asked_grows (h : Inv me s) {c : Fin m} {K : Calling} {r : Nat}
    (hK : (s.clerks c).calling = some K) (hr : K.rpc = some r) :
    ∃ R, s'.rpcs[r]? = some R ∧ R.call = K.call := by
  obtain ⟨W, hW, hcall⟩ := h.asked c K r hK hr
  obtain ⟨W', hW', hcall'⟩ := hg.rpcs r W hW
  exact ⟨W', hW', hcall'.trans hcall⟩

/-- A request whose server has not lost anything. -/
theorem Inv.rpc_grows (h : Inv me s) {r : Nat} {R : Rpc n} (hR : s.rpcs[r]? = some R)
    (hw : (s.replicas R.server).written ≤ (s'.replicas R.server).written) :
    ∃ k, s'.calls[R.call]? = some k ∧ k.req = R.req ∧ s'.StageOk k R := by
  obtain ⟨k, hk, hreq, hst⟩ := h.rpc r R hR
  exact ⟨k, get_of_begins hg.calls hk, hreq, hst.mono hg.agreed hw⟩

theorem Inv.command_grows (h : Inv me s) {cmd : Command} (hcmd : cmd ∈ s.started) :
    (∃ k, s'.calls[cmd.call]? = some k ∧ k.req = cmd.op ∧ k.stamp ≤ cmd.since) ∧
    cmd.since ≤ s'.agreed.length ∧ ∃ R, s'.rpcs[cmd.notifyChan]? = some R ∧ R.call = cmd.call := by
  obtain ⟨⟨k, hk, hrest⟩, hle, W, hW, hcall⟩ := h.command cmd hcmd
  obtain ⟨W', hW', hcall'⟩ := hg.rpcs cmd.notifyChan W hW
  exact ⟨⟨k, get_of_begins hg.calls hk, hrest⟩, le_trans hle hg.agreed.length_le,
    W', hW', hcall'.trans hcall⟩

theorem Inv.mark_grows (h : Inv me s) {mk : Mark} (hmk : mk ∈ s.hist) :
    mk.stamp ≤ s'.agreed.length ∧ s'.MarkOk mk := by
  obtain ⟨hle, hok⟩ := h.mark mk hmk
  exact ⟨le_trans hle hg.agreed.length_le, hok.mono hg.agreed hg.calls hle⟩

end Growth

theorem setStage_self {r : Nat} {R : Rpc n} (stage : Stage) (hr : s.rpcs[r]? = some R) :
    (s.setStage r R stage).rpcs[r]? = some { R with stage := stage } :=
  List.getElem?_set_self (List.getElem?_eq_some_iff.mp hr).1

theorem setStage_of_ne {r i : Nat} {R : Rpc n} {stage : Stage} (hir : i ≠ r) :
    (s.setStage r R stage).rpcs[i]? = s.rpcs[i]? :=
  List.getElem?_set_ne (Ne.symm hir)

theorem setStage_grows {r : Nat} {R : Rpc n} (stage : Stage) (hr : s.rpcs[r]? = some R) :
    Grows s (s.setStage r R stage) := by
  refine ⟨List.prefix_rfl, List.prefix_rfl, fun i W hW => ?_⟩
  by_cases hir : i = r
  · subst hir
    obtain rfl : R = W := Option.some.inj (hr.symm.trans hW)
    exact ⟨_, setStage_self stage hr, rfl⟩
  · exact ⟨W, by rw [setStage_of_ne hir]; exact hW, rfl⟩

theorem setReplica_self {v : Fin n} {R : Replica} : (s.setReplica v R).replicas v = R :=
  Function.update_self _ _ _

theorem setReplica_of_ne {v w : Fin n} {R : Replica} (hwv : w ≠ v) :
    (s.setReplica v R).replicas w = s.replicas w :=
  Function.update_of_ne hwv _ _

theorem setClerk_self {c : Fin m} {ck : Clerk} : (s.setClerk c ck).clerks c = ck :=
  Function.update_self _ _ _

theorem setClerk_of_ne {c c' : Fin m} {ck : Clerk} (hc : c' ≠ c) :
    (s.setClerk c ck).clerks c' = s.clerks c' :=
  Function.update_of_ne hc _ _

/-- **A handler moves on.** -/
theorem Inv.setStage (h : Inv me s) {r : Nat} {R : Rpc n} (hr : s.rpcs[r]? = some R)
    {stage : Stage} (hst : ∀ k, s.calls[R.call]? = some k → k.req = R.req →
      s.StageOk k { R with stage := stage }) : Inv me (s.setStage r R stage) where
  replica := h.replica
  call := h.call
  write := h.write
  unique := h.unique
  clerk := h.clerk
  asked _ _ _ hK hi := h.asked_grows (setStage_grows stage hr) hK hi
  rpc i W hW := by
    by_cases hir : i = r
    · subst hir
      rw [setStage_self stage hr] at hW
      cases hW
      obtain ⟨k, hk, hreq, _⟩ := h.rpc i R hr
      exact ⟨k, hk, hreq, hst k hk hreq⟩
    · rw [setStage_of_ne hir] at hW
      exact h.rpc i W hW
  command _ hcmd := h.command_grows (setStage_grows stage hr) hcmd
  agreed := h.agreed
  mark := h.mark
  mono := h.mono
  once := h.once

/-- **A server goes on.** -/
theorem Inv.setReplica (h : Inv me s) {v : Fin n} {R : Replica} (hR : ReplicaOk s.ops R)
    (hw : (s.replicas v).written ≤ R.written) : Inv me (s.setReplica v R) where
  replica w := by
    by_cases hwv : w = v
    · subst hwv; rw [setReplica_self]; exact hR
    · rw [setReplica_of_ne hwv]; exact h.replica w
  call := h.call
  write := h.write
  unique := h.unique
  clerk := h.clerk
  asked := h.asked
  rpc i W hW := by
    have hg : Grows s (s.setReplica v R) :=
      ⟨List.prefix_rfl, List.prefix_rfl, fun _ W hW => ⟨W, hW, rfl⟩⟩
    refine h.rpc_grows hg hW ?_
    by_cases hwv : W.server = v
    · rw [hwv, setReplica_self]; exact hw
    · rw [setReplica_of_ne hwv]
  command := h.command
  agreed := h.agreed
  mark := h.mark
  mono := h.mono
  once := h.once

/-- **A clerk goes on with its call**, or stops it without a return. -/
theorem Inv.setClerk (h : Inv me s) {c : Fin m} {ck : Clerk}
    (hid : ck.globalId = (s.clerks c).globalId)
    (hK : ∀ K', ck.calling = some K' → K'.rpc = none ∧
      ∃ K, (s.clerks c).calling = some K ∧ K'.call = K.call) : Inv me (s.setClerk c ck) := by
  have hg : ∀ c', ((s.setClerk c ck).clerks c').globalId = (s.clerks c').globalId := by
    intro c'
    by_cases hc : c' = c
    · subst hc; rw [setClerk_self]; exact hid
    · rw [setClerk_of_ne hc]
  -- whoever is in a call was in that call before
  have hcall : ∀ c' K', ((s.setClerk c ck).clerks c').calling = some K' →
      (∃ K, (s.clerks c').calling = some K ∧ K'.call = K.call) ∧
      ∀ r, K'.rpc = some r → (s.clerks c').calling = some K' := by
    intro c' K' hK'
    by_cases hc : c' = c
    · subst hc
      rw [setClerk_self] at hK'
      obtain ⟨hnone, hold⟩ := hK K' hK'
      refine ⟨hold, fun r hr => ?_⟩
      rw [hnone] at hr
      cases hr
    · rw [setClerk_of_ne hc] at hK'
      exact ⟨⟨K', hK', rfl⟩, fun _ _ => hK'⟩
  exact {
    replica := h.replica
    call := h.call
    write := fun id k args hk hreq => by
      rw [hg]
      exact h.write id k args hk hreq
    unique := h.unique
    clerk := fun c' K' hK' => by
      obtain ⟨⟨K, hold, he⟩, _⟩ := hcall c' K' hK'
      rw [hg, he]
      exact h.clerk c' K hold
    asked := fun c' K' r hK' hr => h.asked c' K' r ((hcall c' K' hK').2 r hr) hr
    rpc := h.rpc
    command := h.command
    agreed := h.agreed
    mark := h.mark
    mono := h.mono
    once := h.once }

/-! ## 4. The steps of a clerk -/

theorem request_input (me globalId : Int) (input : KvInput) :
    (request me globalId input).1.input = input := by
  cases input <;> rfl

/-- A write takes the next number. -/
theorem request_write {me globalId : Int} {input : KvInput} {args : PutAppendArgs}
    (h : (request me globalId input).1 = .putAppend args) :
    args.clientId = me ∧ args.msgId = globalId + 1 ∧
      (request me globalId input).2 = globalId + 1 := by
  cases input with
  | get key => cases h
  | put key value =>
      cases h
      exact ⟨rfl, rfl, rfl⟩
  | append key value =>
      cases h
      exact ⟨rfl, rfl, rfl⟩

theorem request_le (me globalId : Int) (input : KvInput) :
    globalId ≤ (request me globalId input).2 := by
  cases input with
  | get key => exact Int.le_refl _
  | put key value => exact Int.le_add_one (Int.le_refl _)
  | append key value => exact Int.le_add_one (Int.le_refl _)

/-- The record with one more entry, made now. -/
theorem Inv.mono_concat (h : Inv me s) {mk : Mark} (hs : mk.stamp = s.agreed.length) :
    (s.hist ++ [mk]).Pairwise fun a b => a.stamp ≤ b.stamp := by
  refine List.pairwise_append.mpr ⟨h.mono, List.pairwise_singleton _ _, fun a ha b hb => ?_⟩
  rw [List.mem_singleton.mp hb, hs]
  exact (h.mark a ha).1

theorem Inv.once_concat (h : Inv me s) {mk : Mark}
    (hnew : ∀ a ∈ s.hist, ∀ id, a.returned = some id → mk.returned ≠ some id) :
    (s.hist ++ [mk]).Pairwise fun a b => ∀ id, a.returned = some id → b.returned ≠ some id := by
  refine List.pairwise_append.mpr ⟨h.once, List.pairwise_singleton _ _, fun a ha b hb => ?_⟩
  rw [List.mem_singleton.mp hb]
  exact hnew a ha

/-- What has returned was called. -/
theorem MarkOk.called {mk : Mark} (h : s.MarkOk mk) {id : Nat} (hret : mk.returned = some id) :
    id < s.calls.length := by
  cases mk with
  | call stamp id input => cases hret
  | wrote stamp id =>
      cases hret
      obtain ⟨k, _, _, _, hk, _⟩ := h
      exact (List.getElem?_eq_some_iff.mp hk).1
  | read stamp id point key value =>
      cases hret
      obtain ⟨k, hk, _⟩ := h
      exact (List.getElem?_eq_some_iff.mp hk).1

/-- **The step of a new call**: its clerk takes it up, and it is on record. -/
structure Called (me : Fin m → Int) (s s' : Service n m) (c : Fin m) (input : KvInput) : Prop where
  self : s'.clerks c = { s.clerks c with
    globalId := (request (me c) (s.clerks c).globalId input).2
    calling := some ⟨s.calls.length, 0, none⟩ }
  others : ∀ c', c' ≠ c → s'.clerks c' = s.clerks c'
  calls : s'.calls = s.calls ++
    [⟨c, (request (me c) (s.clerks c).globalId input).1, s.agreed.length⟩]
  hist : s'.hist = s.hist ++ [.call s.agreed.length s.calls.length input]
  agreed : s'.agreed = s.agreed
  replicas : s'.replicas = s.replicas
  rpcs : s'.rpcs = s.rpcs
  started : s'.started = s.started

namespace Called

variable {c : Fin m} {input : KvInput} (h : Called me s s' c input)
include h

theorem grows : Grows s s' := by
  refine ⟨?_, ?_, fun i W hW => ⟨W, ?_, rfl⟩⟩
  · rw [h.calls]; exact List.prefix_append _ _
  · rw [h.agreed]
  · rw [h.rpcs]; exact hW

theorem last : s'.calls[s.calls.length]? =
    some ⟨c, (request (me c) (s.clerks c).globalId input).1, s.agreed.length⟩ := by
  rw [h.calls]
  exact List.getElem?_concat_length

/-- No number falls. -/
theorem globalId_le (c' : Fin m) : (s.clerks c').globalId ≤ (s'.clerks c').globalId := by
  by_cases hc : c' = c
  · subst hc; rw [h.self]; exact request_le _ _ _
  · exact Int.le_of_eq (congrArg Clerk.globalId (h.others c' hc).symm)

theorem write (hI : Inv me s) {id : Nat} {k : Call m} {args : PutAppendArgs}
    (hk : s'.calls[id]? = some k) (hreq : k.req = .putAppend args) :
    args.clientId = me k.clerk ∧ args.msgId ≤ (s'.clerks k.clerk).globalId := by
  rw [h.calls] at hk
  rcases get_concat hk with hk | ⟨rfl, rfl⟩
  · obtain ⟨h1, h2⟩ := hI.write id k args hk hreq
    exact ⟨h1, Int.le_trans h2 (h.globalId_le _)⟩
  · obtain ⟨h1, h2, h3⟩ := request_write hreq
    refine ⟨h1, ?_⟩
    rw [h.self, h2]
    exact Int.le_of_eq h3.symm

omit h in
/-- The number a write takes now is above those its clerk has used. -/
theorem number_new (hI : Inv me s) {j : Nat} {k : Call m} {old new : PutAppendArgs}
    (hk : s.calls[j]? = some k) (hold : k.req = .putAppend old) (hc : k.clerk = c)
    (hnew : (request (me c) (s.clerks c).globalId input).1 = .putAppend new) :
    old.msgId ≠ new.msgId := by
  have h1 := (hI.write j k old hk hold).2
  have h2 := (request_write hnew).2.1
  rw [hc] at h1
  omega

theorem unique (hI : Inv me s) {id id' : Nat} {k k' : Call m} {args args' : PutAppendArgs}
    (hk : s'.calls[id]? = some k) (hk' : s'.calls[id']? = some k')
    (hreq : k.req = .putAppend args) (hreq' : k'.req = .putAppend args')
    (hc : k.clerk = k'.clerk) (hm : args.msgId = args'.msgId) : id = id' := by
  rw [h.calls] at hk hk'
  rcases get_concat hk with hk | ⟨rfl, rfl⟩ <;> rcases get_concat hk' with hk' | ⟨rfl, rfl⟩
  · exact hI.unique id id' k k' args args' hk hk' hreq hreq' hc hm
  · exact absurd hm (number_new hI hk hreq hc hreq')
  · exact absurd hm.symm (number_new hI hk' hreq' hc.symm hreq)
  · rfl

/-- The new call has not returned, and no other call returns by it. -/
theorem returned (hI : Inv me s) {mk : Mark} (hmk : mk ∈ s'.hist) {id : Nat}
    (hid : id = s.calls.length ∨ ∀ mk ∈ s.hist, mk.returned ≠ some id) : mk.returned ≠ some id := by
  rw [h.hist] at hmk
  rcases List.mem_append.mp hmk with hmk | hmk
  · rcases hid with rfl | hno
    · exact fun hret => absurd ((hI.mark mk hmk).2.called hret) (lt_irrefl _)
    · exact hno mk hmk
  · rw [List.mem_singleton.mp hmk]
    nofun

theorem clerk (hI : Inv me s) {c' : Fin m} {K : Calling} (hK : (s'.clerks c').calling = some K) :
    (∃ k, s'.calls[K.call]? = some k ∧ k.clerk = c' ∧
      ∀ args, k.req = .putAppend args → args.msgId = (s'.clerks c').globalId) ∧
    ∀ mk ∈ s'.hist, mk.returned ≠ some K.call := by
  by_cases hc : c' = c
  · subst hc
    rw [h.self] at hK ⊢
    cases hK
    refine ⟨⟨_, h.last, rfl, fun args hreq => ?_⟩, fun mk hmk => h.returned hI hmk (Or.inl rfl)⟩
    obtain ⟨_, h2, h3⟩ := request_write hreq
    exact h2.trans h3.symm
  · rw [h.others c' hc] at hK ⊢
    obtain ⟨⟨k, hk, hrest⟩, hno⟩ := hI.clerk c' K hK
    exact ⟨⟨k, get_of_begins h.grows.calls hk, hrest⟩,
      fun mk hmk => h.returned hI hmk (Or.inr hno)⟩

theorem inv (hI : Inv me s) : Inv me s' := by
  have hg := h.grows
  refine {
    replica := fun v => by rw [h.replicas]; exact (hI.replica v).grow (ops_begins hg.agreed)
    call := fun id k hk => ?_
    write := fun _ _ _ hk hreq => h.write hI hk hreq
    unique := fun _ _ _ _ _ _ hk hk' hreq hreq' hc hm => h.unique hI hk hk' hreq hreq' hc hm
    clerk := fun _ _ hK => h.clerk hI hK
    asked := fun c' K r hK hr => ?_
    rpc := fun r R hR => hI.rpc_grows hg (h.rpcs ▸ hR) (by rw [h.replicas])
    command := fun cmd hcmd => hI.command_grows hg (h.started ▸ hcmd)
    agreed := by rw [h.agreed, h.started]; exact hI.agreed
    mark := fun mk hmk => ?_
    mono := by rw [h.hist]; exact hI.mono_concat rfl
    once := by rw [h.hist]; exact hI.once_concat fun _ _ _ _ => nofun }
  · rw [h.calls] at hk
    rw [h.agreed, h.hist]
    rcases get_concat hk with hk | ⟨rfl, rfl⟩
    · exact ⟨(hI.call id k hk).1, List.mem_append_left _ (hI.call id k hk).2⟩
    · refine ⟨le_refl _, List.mem_append_right _ (List.mem_singleton.mpr ?_)⟩
      rw [request_input]
  · by_cases hc : c' = c
    · subst hc
      rw [h.self] at hK
      cases hK
      cases hr
    · rw [h.others c' hc] at hK
      exact hI.asked_grows hg hK hr
  · rw [h.hist] at hmk
    rcases List.mem_append.mp hmk with hmk | hmk
    · exact hI.mark_grows hg hmk
    · rw [List.mem_singleton.mp hmk, h.agreed]
      exact ⟨le_refl _, _, h.last, rfl, request_input _ _ _⟩

end Called

theorem inv_call {c : Fin m} {input : KvInput} (h : s.call me c input = some s')
    (hI : Inv me s) : Inv me s' := by
  obtain ⟨_, hs'⟩ := call_inv h
  have hcall : Called me s s' c input := by
    rw [hs']
    exact ⟨setClerk_self, fun _ hc => setClerk_of_ne hc, rfl, rfl, rfl, rfl, rfl, rfl⟩
  exact hcall.inv hI

/-- A clerk in a call notes the request it has sent. -/
theorem inv_send {c : Fin m} (h : s.send c = some s') (hI : Inv me s) : Inv me s' := by
  obtain ⟨K, hn, k, hK, hk, hs'⟩ := send_inv h
  have hself : s'.clerks c = { s.clerks c with
      calling := some { K with rpc := some s.rpcs.length } } := by rw [hs']; exact setClerk_self
  have hothers : ∀ c', c' ≠ c → s'.clerks c' = s.clerks c' := fun c' hc => by
    rw [hs']; exact setClerk_of_ne hc
  have hid : ∀ c', (s'.clerks c').globalId = (s.clerks c').globalId := by
    intro c'
    by_cases hc : c' = c
    · subst hc; rw [hself]
    · rw [hothers c' hc]
  have hrp : s'.rpcs = s.rpcs ++ [⟨K.call, ⟨(s.clerks c).leaderId, hn⟩, k.req, .sent⟩] := by
    rw [hs']
  have hg : Grows s s' := by
    refine ⟨by rw [hs']; exact List.prefix_rfl, by rw [hs']; exact List.prefix_rfl,
      fun i W hW => ⟨W, get_of_begins ?_ hW, rfl⟩⟩
    rw [hrp]
    exact List.prefix_append _ _
  refine {
    replica := by rw [hs']; exact hI.replica
    call := by rw [hs']; exact hI.call
    write := fun id k args hk hreq => ?_
    unique := by rw [hs']; exact hI.unique
    clerk := fun c' K' hK' => ?_
    asked := fun c' K' r hK' hr => ?_
    rpc := fun r R hR => ?_
    command := fun cmd hcmd => hI.command_grows hg (by rw [hs'] at hcmd; exact hcmd)
    agreed := by rw [hs']; exact hI.agreed
    mark := fun mk hmk => hI.mark_grows hg (by rw [hs'] at hmk; exact hmk)
    mono := by rw [hs']; exact hI.mono
    once := by rw [hs']; exact hI.once }
  · rw [hid]
    exact hI.write id k args (by rw [hs'] at hk; exact hk) hreq
  · have hold : ∃ K₀, (s.clerks c').calling = some K₀ ∧ K₀.call = K'.call := by
      by_cases hc : c' = c
      · subst hc; rw [hself] at hK'; cases hK'; exact ⟨K, hK, rfl⟩
      · rw [hothers c' hc] at hK'; exact ⟨K', hK', rfl⟩
    obtain ⟨K₀, hK₀, hcall⟩ := hold
    rw [hid, ← hcall, hs']
    exact hI.clerk c' K₀ hK₀
  · by_cases hc : c' = c
    · subst hc
      rw [hself] at hK'
      cases hK'
      cases hr
      rw [hrp]
      exact ⟨_, List.getElem?_concat_length, rfl⟩
    · rw [hothers c' hc] at hK'
      exact hI.asked_grows hg hK' hr
  · rw [hrp] at hR
    rcases get_concat hR with hR | ⟨rfl, rfl⟩
    · exact hI.rpc_grows hg hR (by rw [hs']; exact le_refl _)
    · exact ⟨k, get_of_begins hg.calls hk, rfl, trivial⟩

/-- The loop turns: another attempt for the same call. -/
theorem inv_retry {c : Fin m} {K : Calling} (hK : (s.clerks c).calling = some K)
    (hI : Inv me s) : Inv me (s.setClerk c (retry n (s.clerks c) K)) := by
  refine hI.setClerk rfl fun K' hK' => ?_
  cases hK'
  exact ⟨rfl, K, hK, rfl⟩

/-- **A write that is noted has taken effect**: its clerk has no later one. -/
theorem Inv.effective_of_noted (hI : Inv me s) (hme : Function.Injective me) {c : Fin m}
    {K : Calling} (hK : (s.clerks c).calling = some K) {k : Call m}
    (hk : s.calls[K.call]? = some k) {args : PutAppendArgs} (hreq : k.req = .putAppend args)
    (hn : (replay s.ops).Noted args.clientId args.msgId) :
    ∃ q cmd, s.agreed[q]? = some cmd ∧ cmd.call = K.call ∧ Effective s.ops q args := by
  obtain ⟨⟨k₁, hk₁, hc, hmsg⟩, _⟩ := hI.clerk c K hK
  obtain rfl : k₁ = k := Option.some.inj (hk₁.symm.trans hk)
  obtain ⟨last, hlast, hle⟩ := hn
  obtain ⟨q, args', he, hcid, hmid⟩ := noted_source hlast
  -- the command that was noted, and its call
  obtain ⟨cmd, hcmd, hop⟩ : ∃ cmd, s.agreed[q]? = some cmd ∧ cmd.op = .putAppend args' := by
    have hq := he.1
    unfold ops at hq
    rw [List.getElem?_map] at hq
    exact Option.map_eq_some_iff.mp hq
  obtain ⟨k', hk', hreq', _⟩ := hI.call_of hcmd
  rw [hop] at hreq'
  obtain ⟨hcl', hle'⟩ := hI.write cmd.call k' args' hk' hreq'
  obtain ⟨hcl, _⟩ := hI.write K.call k₁ args hk hreq
  have hclerk : k'.clerk = k₁.clerk := hme (by rw [← hcl', ← hcl, hcid])
  have hsame : args'.msgId = args.msgId := by
    rw [hclerk, hc, ← hmsg args hreq] at hle'
    omega
  have hcall := hI.unique cmd.call K.call k' k₁ args' args hk' hk hreq' hreq hclerk hsame
  rw [hcall] at hk'
  obtain rfl : k' = k₁ := Option.some.inj (hk'.symm.trans hk)
  rw [hreq] at hreq'
  cases hreq'
  exact ⟨q, cmd, hcmd, hcall, he⟩

theorem inv_receive {c : Fin m} (h : s.receive c = some s') (hme : Function.Injective me)
    (hI : Inv me s) : Inv me s' := by
  obtain ⟨K, r, R, k, reply, point, hK, hr, hR, hk, hst, h⟩ := receive_inv h
  rcases h with rfl | ⟨herr, hs'⟩
  · exact inv_retry hK hI
  obtain ⟨mk, hmk, hs'⟩ : ∃ mk, (mk = match k.req with
      | .get args => Mark.read s.agreed.length K.call point args.key reply.value
      | .putAppend _ => Mark.wrote s.agreed.length K.call) ∧
      s' = { s.setClerk c { s.clerks c with calling := none } with hist := s.hist ++ [mk] } :=
    ⟨_, rfl, hs'⟩
  have hans : s.Answered k point reply.value := by
    obtain ⟨W, hW, hcall⟩ := hI.asked c K r hK hr
    obtain rfl : W = R := Option.some.inj (hW.symm.trans hR)
    obtain ⟨k', hk', _, hok⟩ := hI.rpc r W hR
    rw [hcall] at hk'
    obtain rfl : k' = k := Option.some.inj (hk'.symm.trans hk)
    simp only [StageOk, hst] at hok
    exact hok herr
  have hret : mk.returned = some K.call := by
    rw [hmk]
    split <;> rfl
  have hstamp : mk.stamp = s.agreed.length := by
    rw [hmk]
    split <;> rfl
  have hok : s.MarkOk mk := by
    rw [hmk]
    unfold Answered at hans
    split
    · rename_i args hreq
      simp only [hreq] at hans
      exact ⟨k, hk, hreq, hans.1, hans.2.1, hans.2.2⟩
    · rename_i args hreq
      simp only [hreq] at hans
      obtain ⟨q, cmd, hcmd, hcall, he⟩ := hI.effective_of_noted hme hK hk hreq hans.1
      exact ⟨k, args, q, cmd, hk, hreq, hcmd, hcall, he, (List.getElem?_eq_some_iff.mp hcmd).1⟩
  -- the clerk is idle, and one more entry is on record
  have hI' : Inv me (s.setClerk c { s.clerks c with calling := none }) := hI.setClerk rfl nofun
  subst hs'
  refine { hI' with
    call := fun id k hk => ⟨(hI'.call id k hk).1, List.mem_append_left _ (hI'.call id k hk).2⟩
    clerk := fun c' K' hK' => ⟨(hI'.clerk c' K' hK').1, fun mk' hmk' => ?_⟩
    mark := fun mk' hmk' => ?_
    mono := hI.mono_concat hstamp
    once := hI.once_concat fun a ha id hid he => ?_ }
  · rcases List.mem_append.mp hmk' with hmk' | hmk'
    · exact (hI'.clerk c' K' hK').2 mk' hmk'
    · rw [List.mem_singleton.mp hmk', hret]
      intro he
      -- two clerks are never in one call
      obtain ⟨⟨k₁, hk₁, hc₁, _⟩, _⟩ := hI.clerk c K hK
      obtain ⟨⟨k₂, hk₂, hc₂, _⟩, _⟩ := hI'.clerk c' K' hK'
      rw [← Option.some.inj he] at hk₂
      obtain rfl : k₂ = k₁ := Option.some.inj (hk₂.symm.trans hk₁)
      rw [hc₁] at hc₂
      subst hc₂
      simp only [setClerk, Function.update_self] at hK'
      cases hK'
  · rcases List.mem_append.mp hmk' with hmk' | hmk'
    · exact hI'.mark mk' hmk'
    · rw [List.mem_singleton.mp hmk']
      exact ⟨hstamp.le, hok⟩
  · exact (hI.clerk c K hK).2 a ha (hid.trans (he.symm.trans hret))

/-! ## 5. The steps of the servers -/

theorem inv_check {r : Nat} (h : s.check r = some s') (hI : Inv me s) : Inv me s' := by
  obtain ⟨R, hR, _, rfl⟩ := check_inv h
  refine hI.setStage hR fun k _ hreq => ?_
  split
  · rename_i hans
    -- the fast path: the server has noted the message
    unfold StageOk
    simp only [hreq]
    cases hop : R.req with
    | get args =>
        rw [hop] at hans
        cases hans
    | putAppend args =>
        simp only [hop, isAnswered, Bool.and_eq_true] at hans
        have hn := ((s.replicas R.server).kv.isRepeated_iff _ _ _).mp hans.2
        have hok := hI.replica R.server
        have hn' : (replay (s.ops.take (s.replicas R.server).applied)).Noted args.clientId
            args.msgId := by
          unfold Tables.Noted at hn ⊢
          rwa [hok.ids] at hn
        have hearlier := List.take_prefix (s.replicas R.server).applied s.ops
        exact noted_mono hearlier hn'
  · trivial

theorem inv_start {r : Nat} {isLeader : Bool} (h : s.start r isLeader = some s')
    (hI : Inv me s) : Inv me s' := by
  obtain ⟨R, hR, _, h⟩ := start_inv h
  rcases h with rfl | rfl
  · have hI' : Inv me (s.setStage r R .waiting) := hI.setStage hR fun _ _ _ => trivial
    refine { hI' with
      command := fun cmd hcmd => ?_
      agreed := fun p cmd hp => ?_ }
    · rcases List.mem_append.mp hcmd with hcmd | hcmd
      · exact hI'.command cmd hcmd
      · rw [List.mem_singleton.mp hcmd]
        obtain ⟨k, hk, hreq, _⟩ := hI.rpc r R hR
        obtain ⟨W, hW, hcall⟩ := (setStage_grows .waiting hR).rpcs r R hR
        exact ⟨⟨k, hk, hreq, (hI.call R.call k hk).1⟩, le_refl _, W, hW, hcall⟩
    · obtain ⟨hst, hle⟩ := hI'.agreed p cmd hp
      exact ⟨List.mem_append_left _ hst, hle⟩
  · exact hI.setStage hR fun _ _ _ herr => absurd rfl herr

theorem inv_confirm {r : Nat} (h : s.confirm r = some s') (hI : Inv me s) : Inv me s' := by
  obtain ⟨R, index, hR, hst, rfl⟩ := confirm_inv h
  have hok := hI.replica R.server
  have hI' : Inv me (s.setReplica R.server
      { s.replicas R.server with lastLogIndex := index }) :=
    hI.setReplica ⟨hok.le, hok.ids, hok.data, hok.storing, hok.notifying⟩ (le_refl _)
  refine hI'.setStage hR fun k hk hreq => ?_
  obtain ⟨k', hk', _, hstage⟩ := hI'.rpc r R hR
  obtain rfl : k' = k := Option.some.inj (hk'.symm.trans hk)
  simp only [StageOk, hst] at hstage
  obtain ⟨i, cmd, hcmd, hcall, hlt⟩ := hstage
  unfold StageOk
  dsimp only
  split
  · exact ⟨i, cmd, hcmd, hcall, hlt⟩
  · rename_i args hop
    -- the write was applied, so it is noted
    obtain ⟨k₁, hk₁, hreq₁, _⟩ := hI'.call_of hcmd
    rw [hcall] at hk₁
    obtain rfl : k₁ = k' := Option.some.inj (hk₁.symm.trans hk)
    have hget := ops_get hcmd
    rw [← hreq₁, hop] at hget
    have := noted_after hget (List.getElem?_eq_some_iff.mp hget).1
    rwa [List.take_length] at this

theorem inv_finish {r : Nat} (h : s.finish r = some s') (hI : Inv me s) : Inv me s' := by
  obtain ⟨R, hR, hst, rfl⟩ := finish_inv h
  refine hI.setStage hR fun k hk hreq => ?_
  obtain ⟨k', hk', _, hstage⟩ := hI.rpc r R hR
  obtain rfl : k' = k := Option.some.inj (hk'.symm.trans hk)
  simp only [StageOk, hst] at hstage
  unfold StageOk Answered
  intro _
  rw [← hreq]
  cases hop : k'.req with
  | get args =>
      simp only [hop] at hstage
      obtain ⟨i, cmd, hcmd, hcall, hlt⟩ := hstage
      obtain ⟨k₁, hk₁, _, hle⟩ := hI.call_of hcmd
      rw [hcall] at hk₁
      obtain rfl : k₁ = k' := Option.some.inj (hk₁.symm.trans hk)
      have hok := hI.replica R.server
      have hlen := le_trans (s.replicas R.server).written_le hok.le
      rw [ops_length] at hlen
      refine ⟨by omega, hlen, ?_⟩
      show (answer (s.replicas R.server).kv (.get args)).value = _
      rw [← hok.data]
      unfold answer
      dsimp only
      cases (s.replicas R.server).kv.storage args.key <;> rfl
  | putAppend args =>
      simp only [hop] at hstage
      exact ⟨hstage, rfl⟩

theorem inv_agree {i : Nat} (h : s.agree i = some s') (hI : Inv me s) : Inv me s' := by
  obtain ⟨cmd, hcmd, rfl⟩ := agree_inv h
  have hpre : s.agreed <+: s.agreed ++ [cmd] := List.prefix_append _ _
  have hlen : s.agreed.length ≤ (s.agreed ++ [cmd]).length := hpre.length_le
  have hst := List.mem_of_getElem? hcmd
  have hg : Grows s { s with agreed := s.agreed ++ [cmd] } :=
    ⟨List.prefix_rfl, hpre, fun _ W hW => ⟨W, hW, rfl⟩⟩
  refine { hI with
    replica := fun v => (hI.replica v).grow (hpre.map _)
    call := fun id k hk => ⟨le_trans (hI.call id k hk).1 hlen, (hI.call id k hk).2⟩
    rpc := fun _ _ hR => hI.rpc_grows hg hR (le_refl _)
    command := fun _ hx => hI.command_grows hg hx
    agreed := fun p x hp => ?_
    mark := fun _ hmk => hI.mark_grows hg hmk }
  rcases get_concat hp with hp | ⟨rfl, rfl⟩
  · exact hI.agreed p x hp
  · exact ⟨hst, (hI.command x hst).2.1⟩

theorem inv_take {v : Fin n} (h : s.take v = some s') (hI : Inv me s) : Inv me s' := by
  obtain ⟨cmd, hl, hcmd, h⟩ := take_inv h
  have hok := hI.replica v
  have hkv := hok.kv_eq (by rw [hl]; nofun)
  have hop := ops_get hcmd
  have hw : (s.replicas v).written = (s.replicas v).applied :=
    Replica.written_eq (by rw [hl]; nofun)
  rcases h with ⟨args, e, rfl⟩ | ⟨args, e, hn, rfl⟩ | ⟨args, e, hn, rfl⟩
  · refine hI.setReplica (hok.passes hl hop (by rw [e]; rfl)) ?_
    rw [hw]
    exact Nat.le_succ _
  · refine hI.setReplica (hok.passes hl hop ?_) ?_
    · rw [e, Tables.apply_old (by rwa [hkv] at hn)]
    · rw [hw]
      exact Nat.le_succ _
  · rw [e] at hop
    refine hI.setReplica (hok.notes hl hop hn) ?_
    rw [hw]
    exact le_refl _

theorem inv_store {v : Fin n} (h : s.store v = some s') (hI : Inv me s) : Inv me s' := by
  obtain ⟨args, hl, rfl⟩ := store_inv h
  exact hI.setReplica ((hI.replica v).stores hl) (s.replicas v).written_le

theorem inv_notify {v : Fin n} {received : Bool} (h : s.notify v received = some s')
    (hI : Inv me s) : Inv me s' := by
  obtain ⟨hl, h⟩ := notify_inv h
  have hok := hI.replica v
  have hw : (s.replicas v).written = (s.replicas v).applied :=
    Replica.written_eq (by rw [hl]; nofun)
  have hI' : Inv me (s.setReplica v { s.replicas v with loop := .idle }) :=
    hI.setReplica (hok.rests hl) (s.replicas v).written_le
  rcases h with ⟨cmd, W, hcmd, hW, hv, _, rfl⟩ | rfl
  · refine hI'.setStage hW fun k _ _ => ?_
    -- the command that was just applied is one of this handler's call
    obtain ⟨_, _, W', hW', hcall⟩ := hI.command cmd (hI.agreed _ cmd hcmd).1
    obtain rfl : W' = W := Option.some.inj (hW'.symm.trans hW)
    have hpos := hok.notifying hl
    refine ⟨(s.replicas v).applied - 1, cmd, hcmd, hcall.symm, ?_⟩
    rw [show ({ W' with stage := Stage.notified (s.replicas v).applied } : Rpc n).server = v
      from hv, setReplica_self]
    show (s.replicas v).applied - 1 < (s.replicas v).applied
    omega
  · exact hI'

/-- A crash changes no answer that is on its way. -/
theorem StageOk.crash {k : Call m} {R : Rpc n} (h : s.StageOk k R) (ha : s'.agreed = s.agreed) :
    s'.StageOk k { R with stage := R.stage.crash } := by
  cases hst : R.stage with
  | replied reply point =>
      simp only [StageOk, hst] at h
      simp only [StageOk, Stage.crash]
      exact fun herr => (h herr).mono (by rw [ha])
  | _ => trivial

theorem inv_restart (v : Fin n) (hI : Inv me s) : Inv me (s.restart v) := by
  have hmap : ∀ {i : Nat} {W : Rpc n}, s.rpcs[i]? = some W → (s.restart v).rpcs[i]? = some
      (if W.server = v then { W with stage := W.stage.crash } else W) := by
    intro i W hW
    show (s.rpcs.map _)[i]? = _
    rw [List.getElem?_map, hW]
    rfl
  have hcall : ∀ W : Rpc n, (if W.server = v then { W with stage := W.stage.crash } else W).call =
      W.call := by
    intro W
    split <;> rfl
  have hg : Grows s (s.restart v) :=
    ⟨List.prefix_rfl, List.prefix_rfl, fun _ W hW => ⟨_, hmap hW, hcall W⟩⟩
  refine { hI with
    replica := fun w => ?_
    asked := fun _ _ _ hK hr => hI.asked_grows hg hK hr
    rpc := fun i W hW => ?_
    command := fun _ hcmd => hI.command_grows hg hcmd }
  · by_cases hw : w = v
    · subst hw
      rw [show (s.restart w).replicas w = startKVServer from Function.update_self _ _ _]
      exact replicaOk_start _
    · rw [show (s.restart v).replicas w = s.replicas w from Function.update_of_ne hw _ _]
      exact hI.replica w
  · obtain ⟨W₀, hW₀, rfl⟩ : ∃ W₀, s.rpcs[i]? = some W₀ ∧
        (if W₀.server = v then { W₀ with stage := W₀.stage.crash } else W₀) = W := by
      have hW' : (s.rpcs.map _)[i]? = some W := hW
      rw [List.getElem?_map] at hW'
      exact Option.map_eq_some_iff.mp hW'
    split
    · obtain ⟨k, hk, hreq, hst⟩ := hI.rpc i W₀ hW₀
      exact ⟨k, hk, hreq, hst.crash rfl⟩
    · rename_i hne
      refine hI.rpc_grows hg hW₀ ?_
      rw [show (s.restart v).replicas W₀.server = s.replicas W₀.server from
        Function.update_of_ne hne _ _]

/-! ## 6. Runs -/

theorem inv_step {a : Action n m} (h : s.step me a = some s') (hme : Function.Injective me)
    (hI : Inv me s) : Inv me s' := by
  cases a with
  | call c input => exact inv_call h hI
  | send c => exact inv_send h hI
  | fail c =>
      obtain ⟨K, hK, rfl⟩ := fail_inv h
      exact inv_retry hK hI
  | receive c => exact inv_receive h hme hI
  | exhaust c =>
      obtain ⟨K, hK, rfl⟩ := exhaust_inv h
      exact hI.setClerk rfl nofun
  | check r => exact inv_check h hI
  | start r isLeader => exact inv_start h hI
  | timeout r =>
      obtain ⟨R, hR, _, rfl⟩ := timeout_inv h
      exact hI.setStage hR fun _ _ _ herr => absurd rfl herr
  | confirm r => exact inv_confirm h hI
  | finish r => exact inv_finish h hI
  | agree i => exact inv_agree h hI
  | take v => exact inv_take h hI
  | store v => exact inv_store h hI
  | notify v received => exact inv_notify h hI
  | restart v =>
      cases Option.some.inj h
      exact inv_restart v hI

/-- **The books are in order in every run.** -/
theorem inv_reach {G : Service n m → Action n m → Prop} (hme : Function.Injective me)
    (h : Reach (step me) G (init n m) s) : Inv me s :=
  Reach.inv inv_init (fun _ _ _ hI _ hs => inv_step hs hme hI) h

end Service

end Mit6824.Kv
