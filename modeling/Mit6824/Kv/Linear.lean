/-
  File:      Mit6824/Kv/Linear.lean
  Subject:   THE SERVICE IS LINEARIZABLE.

  The order: bucket `q + 1` holds the write at place `q` of the agreed sequence, if it takes effect,
  and then the Gets that read the state after `q + 1` commands. Every call lies below its bucket
  and every return at or above it, counted in commands agreed on, so the bucket rule applies.

  * `order s` -- the operations of a state in that order;
  * `order_legal` -- one map, used in that order, gives the values that were returned;
  * `linearizable` -- **every history of the service is linearizable**.
-/
import Mit6824.Kv.Books

namespace Mit6824.Kv

open Lib

namespace Service

variable {n m : Nat} {me : Fin m → Int} {s : Service n m}

/-! ## 1. The order -/

/-- The write of a command, if it takes effect in this state. -/
def writeOf (kv : Tables) (cmd : Command) : List (Operation Nat KvInput String) :=
  match cmd.op with
  | .get _ => []
  | .putAppend args =>
      if (kv.isRepeated args.clientId args.msgId false).1 then []
      else [⟨cmd.call, cmd.op.input, ""⟩]

def writesAt (s : Service n m) : Nat → List (Operation Nat KvInput String)
  | 0 => []
  | q + 1 =>
      match s.agreed[q]? with
      | none => []
      | some cmd => writeOf (replay (s.ops.take q)) cmd

/-- The Get of an entry of the record, if it read in this bucket. -/
def readOf (p : Nat) : Mark → Option (Operation Nat KvInput String)
  | .read _ id point key value => if point = p then some ⟨id, .get key, value⟩ else none
  | _ => none

def readsAt (s : Service n m) (p : Nat) : List (Operation Nat KvInput String) :=
  s.hist.filterMap (readOf p)

def bucket (s : Service n m) (p : Nat) : List (Operation Nat KvInput String) :=
  s.writesAt p ++ s.readsAt p

/-- **The operations in their order.** -/
def order (s : Service n m) : List (Operation Nat KvInput String) :=
  (List.range (s.agreed.length + 1)).flatMap s.bucket

theorem mem_writesAt {p : Nat} {x : Operation Nat KvInput String} (h : x ∈ s.writesAt p) :
    ∃ q cmd args, p = q + 1 ∧ s.agreed[q]? = some cmd ∧ cmd.op = .putAppend args ∧
      Effective s.ops q args ∧ x = ⟨cmd.call, cmd.op.input, ""⟩ := by
  cases p with
  | zero => cases h
  | succ q =>
      simp only [writesAt] at h
      split at h
      · cases h
      · rename_i cmd hcmd
        simp only [writeOf] at h
        split at h
        · cases h
        · rename_i args hop
          split at h
          · cases h
          · rename_i hnew
            rw [Bool.not_eq_true, Tables.isRepeated_eq_false] at hnew
            refine ⟨q, cmd, args, rfl, hcmd, hop, ⟨?_, hnew⟩, List.mem_singleton.mp h⟩
            rw [ops_get hcmd, hop]

theorem writesAt_of_effective {q : Nat} {cmd : Command} {args : PutAppendArgs}
    (hq : s.agreed[q]? = some cmd) (hop : cmd.op = .putAppend args)
    (he : Effective s.ops q args) : s.writesAt (q + 1) = [⟨cmd.call, cmd.op.input, ""⟩] := by
  have hnew := (Tables.isRepeated_eq_false _ _ _ false).mpr he.2
  simp only [writesAt, hq, writeOf, hop, hnew, Bool.false_eq_true, if_false]

theorem mem_readsAt {p : Nat} {x : Operation Nat KvInput String} (h : x ∈ s.readsAt p) :
    ∃ stamp key, Mark.read stamp x.id p key x.output ∈ s.hist ∧ x.input = .get key := by
  obtain ⟨mk, hmk, hx⟩ := List.mem_filterMap.mp h
  cases mk with
  | call stamp id input => cases hx
  | wrote stamp id => cases hx
  | read stamp id point key value =>
      simp only [readOf] at hx
      split at hx
      · rename_i hp
        subst hp
        cases hx
        exact ⟨stamp, key, hmk, rfl⟩
      · cases hx

/-! ## 2. What an operation of the order is -/

/-- A write of the order, with its call. -/
theorem Inv.write_call (h : Inv me s) {q : Nat} {cmd : Command} (hq : s.agreed[q]? = some cmd) :
    ∃ k, s.calls[cmd.call]? = some k ∧ k.req = cmd.op ∧ k.stamp ≤ q ∧
      Mark.call k.stamp cmd.call cmd.op.input ∈ s.hist := by
  obtain ⟨k, hk, hreq, hle⟩ := h.call_of hq
  have := (h.call cmd.call k hk).2
  rw [hreq] at this
  exact ⟨k, hk, hreq, hle, this⟩

/-- A Get of the order, with its call. -/
theorem Inv.read_call (h : Inv me s) {stamp id point : Nat} {key value : String}
    (hmk : Mark.read stamp id point key value ∈ s.hist) :
    ∃ k, s.calls[id]? = some k ∧ k.req = .get ⟨key⟩ ∧ k.stamp < point ∧ point ≤ stamp ∧
      value = ((replay (s.ops.take point)).storage key).getD "" := (h.mark _ hmk).2

/-- A call that is a write in one place of the order is no Get in another. -/
theorem Inv.write_ne_read (h : Inv me s) {q : Nat} {cmd : Command} {args : PutAppendArgs}
    (hq : s.agreed[q]? = some cmd) (hop : cmd.op = .putAppend args) {stamp id point : Nat}
    {key value : String} (hmk : Mark.read stamp id point key value ∈ s.hist) : cmd.call ≠ id := by
  intro he
  obtain ⟨k, hk, hreq, _⟩ := h.call_of hq
  obtain ⟨k', hk', hreq', _⟩ := h.read_call hmk
  rw [he] at hk
  obtain rfl : k = k' := Option.some.inj (hk.symm.trans hk')
  rw [hreq, hop] at hreq'
  cases hreq'

/-- **A call takes effect at one place only.** -/
theorem Inv.write_place (h : Inv me s) {q q' : Nat} {cmd cmd' : Command}
    {args args' : PutAppendArgs} (hq : s.agreed[q]? = some cmd) (hop : cmd.op = .putAppend args)
    (he : Effective s.ops q args) (hq' : s.agreed[q']? = some cmd') (he' : Effective s.ops q' args')
    (hcall : cmd.call = cmd'.call) : q = q' := by
  obtain ⟨k, hk, hreq, _⟩ := h.call_of hq
  obtain ⟨k', hk', hreq', _⟩ := h.call_of hq'
  rw [hcall] at hk
  obtain rfl : k = k' := Option.some.inj (hk.symm.trans hk')
  have hget := he'.1
  rw [ops_get hq', ← hreq', hreq, hop] at hget
  cases hget
  exact effective_unique he he' rfl rfl

/-- **A call returns once.** -/
theorem Inv.mark_unique (h : Inv me s) {a b : Mark} {id : Nat} (ha : a ∈ s.hist)
    (hb : b ∈ s.hist) (ra : a.returned = some id) (rb : b.returned = some id) : a = b := by
  obtain ⟨l₁, l₂, hl⟩ := List.append_of_mem ha
  have hp := h.once
  rw [hl] at hp hb
  obtain ⟨_, hp₂, hp₁⟩ := List.pairwise_append.mp hp
  rcases List.mem_append.mp hb with hb | hb
  · exact absurd ra (hp₁ b hb a List.mem_cons_self id rb)
  · rcases List.mem_cons.mp hb with hb | hb
    · exact hb.symm
    · exact absurd rb ((List.pairwise_cons.mp hp₂).1 b hb id ra)

/-! ## 3. The order is right -/

theorem nodup_readsAt (h : Inv me s) (p : Nat) : ((s.readsAt p).map (·.id)).Nodup := by
  rw [List.Nodup, List.pairwise_map]
  refine List.Pairwise.filterMap (readOf p) ?_ h.once
  intro a b hab x hx y hy he
  have ret : ∀ {mk : Mark} {z : Operation Nat KvInput String}, readOf p mk = some z →
      mk.returned = some z.id := by
    intro mk z hz
    cases mk with
    | call stamp id input => cases hz
    | wrote stamp id => cases hz
    | read stamp id point key value =>
        simp only [readOf] at hz
        split at hz
        · cases hz
          rfl
        · cases hz
  exact hab x.id (ret hx) (by rw [he]; exact ret hy)

theorem nodup_bucket (h : Inv me s) (p : Nat) : ((s.bucket p).map (·.id)).Nodup := by
  unfold bucket
  rw [List.map_append, List.nodup_append]
  refine ⟨?_, nodup_readsAt h p, ?_⟩
  · cases hw : s.writesAt p with
    | nil => exact List.nodup_nil
    | cons x l =>
        obtain ⟨q, cmd, args, rfl, hq, hop, he, _⟩ := mem_writesAt (by rw [hw]; simp : x ∈ _)
        rw [writesAt_of_effective hq hop he] at hw
        rw [← hw]
        exact List.nodup_singleton _
  · intro id hid id' hid' he
    obtain ⟨x, hx, rfl⟩ := List.mem_map.mp hid
    obtain ⟨y, hy, rfl⟩ := List.mem_map.mp hid'
    obtain ⟨q, cmd, args, _, hq, hop, _, rfl⟩ := mem_writesAt hx
    obtain ⟨stamp, key, hmk, _⟩ := mem_readsAt hy
    exact h.write_ne_read hq hop hmk he

/-- One call is in one bucket. -/
theorem bucket_unique (h : Inv me s) {p p' : Nat} {x y : Operation Nat KvInput String}
    (hx : x ∈ s.bucket p) (hy : y ∈ s.bucket p') (he : x.id = y.id) : p = p' := by
  rcases List.mem_append.mp hx with hx | hx <;> rcases List.mem_append.mp hy with hy | hy
  · obtain ⟨q, cmd, args, rfl, hq, hop, hef, rfl⟩ := mem_writesAt hx
    obtain ⟨q', cmd', args', rfl, hq', _, hef', rfl⟩ := mem_writesAt hy
    rw [h.write_place hq hop hef hq' hef' he]
  · obtain ⟨q, cmd, args, _, hq, hop, _, rfl⟩ := mem_writesAt hx
    obtain ⟨stamp, key, hmk, _⟩ := mem_readsAt hy
    exact absurd he (h.write_ne_read hq hop hmk)
  · obtain ⟨q, cmd, args, _, hq, hop, _, rfl⟩ := mem_writesAt hy
    obtain ⟨stamp, key, hmk, _⟩ := mem_readsAt hx
    exact absurd he.symm (h.write_ne_read hq hop hmk)
  · obtain ⟨stamp, key, hmk, _⟩ := mem_readsAt hx
    obtain ⟨stamp', key', hmk', _⟩ := mem_readsAt hy
    have := h.mark_unique hmk hmk' rfl (by rw [he]; rfl)
    rw [Mark.read.injEq] at this
    exact this.2.2.1

/-- The map after a write is the server's `Storage` after it. -/
theorem step_store (kv : Tables) (args : PutAppendArgs) :
    kvModel.step kv.storage (Op.putAppend args).input = ((kv.store args).storage, "") := by
  cases hop : args.op <;> simp [Op.input, Tables.store, kvModel, hop]

/-- The Gets of a bucket read one state and change nothing. -/
theorem reads_legal {p : Nat} {state : String → Option String}
    (hread : ∀ stamp id key value, Mark.read stamp id p key value ∈ s.hist →
      value = (state key).getD "") :
    kvModel.Legal state (s.readsAt p) ∧ kvModel.after state (s.readsAt p) = state := by
  have hall : ∀ x ∈ s.readsAt p, kvModel.step state x.input = (state, x.output) := by
    intro x hx
    obtain ⟨stamp, key, hmk, hin⟩ := mem_readsAt hx
    rw [hin, hread stamp x.id key x.output hmk]
    rfl
  generalize s.readsAt p = l at hall
  induction l with
  | nil => exact ⟨trivial, rfl⟩
  | cons x l ih =>
    have hx := hall x List.mem_cons_self
    obtain ⟨h1, h2⟩ := ih fun y hy => hall y (List.mem_cons_of_mem _ hy)
    refine ⟨⟨by rw [hx], by rw [hx]; exact h1⟩, ?_⟩
    show kvModel.after (kvModel.step state x.input).1 l = state
    rw [hx]
    exact h2

/-- A bucket takes the map from the state after `p - 1` commands to that after `p`. -/
theorem bucket_legal (h : Inv me s) {p : Nat} (hp : p ≤ s.agreed.length) :
    kvModel.Legal (replay (s.ops.take (p - 1))).storage (s.bucket p) ∧
      kvModel.after (replay (s.ops.take (p - 1))).storage (s.bucket p) =
        (replay (s.ops.take p)).storage := by
  have hwrite : kvModel.Legal (replay (s.ops.take (p - 1))).storage (s.writesAt p) ∧
      kvModel.after (replay (s.ops.take (p - 1))).storage (s.writesAt p) =
        (replay (s.ops.take p)).storage := by
    cases p with
    | zero => exact ⟨trivial, rfl⟩
    | succ q =>
        obtain ⟨cmd, hq⟩ : ∃ cmd, s.agreed[q]? = some cmd :=
          ⟨_, List.getElem?_eq_getElem (by omega)⟩
        rw [Nat.add_sub_cancel, replay_take_succ (ops_get hq)]
        cases hop : cmd.op with
        | get args =>
            simp only [writesAt, hq, writeOf, hop]
            exact ⟨trivial, rfl⟩
        | putAppend args =>
            by_cases hn : (replay (s.ops.take q)).Noted args.clientId args.msgId
            · simp only [writesAt, hq, writeOf, hop, Tables.apply_old hn,
                Tables.isRepeated_old hn, if_true]
              exact ⟨trivial, rfl⟩
            · rw [writesAt_of_effective hq hop ⟨by rw [ops_get hq, hop], hn⟩,
                Tables.apply_new hn, hop]
              have hstep := step_store (replay (s.ops.take q)) args
              refine ⟨⟨by rw [hstep], trivial⟩, ?_⟩
              show (kvModel.step _ _).1 = _
              rw [hstep]
  obtain ⟨h1, h2⟩ := hwrite
  obtain ⟨h3, h4⟩ := reads_legal (s := s) (p := p) fun stamp id key value hmk => by
    obtain ⟨_, _, _, _, _, hv⟩ := h.read_call hmk
    exact hv
  unfold bucket
  rw [kvModel.legal_append, kvModel.after_append, h2]
  exact ⟨⟨h1, h3⟩, h4⟩

theorem order_legal (h : Inv me s) : kvModel.Legal kvModel.init s.order := by
  have hall : ∀ p < s.agreed.length + 1,
      kvModel.Legal (replay (s.ops.take (p - 1))).storage (s.bucket p) ∧
        kvModel.after (replay (s.ops.take (p - 1))).storage (s.bucket p) =
          (replay (s.ops.take (p + 1 - 1))).storage :=
    fun p hp => bucket_legal h (Nat.le_of_lt_succ hp)
  exact (legal_buckets (σ := fun p => (replay (s.ops.take (p - 1))).storage) hall).1

/-- The record with its numbers. -/
def stamped (s : Service n m) : List (Nat × CallEvent Nat KvInput String) :=
  s.hist.map fun mk => (mk.stamp, mk.event)

theorem stamped_call {t id : Nat} {input : KvInput} (h : (t, CallEvent.call id input) ∈ s.stamped) :
    Mark.call t id input ∈ s.hist := by
  obtain ⟨mk, hmk, he⟩ := List.mem_map.mp h
  cases mk with
  | call stamp id' input' =>
      cases he
      exact hmk
  | wrote stamp id' => cases he
  | read stamp id' point key value => cases he

theorem stamped_ret {t id : Nat} {output : String} (h : (t, CallEvent.ret id output) ∈ s.stamped) :
    (output = "" ∧ Mark.wrote t id ∈ s.hist) ∨
      ∃ point key, Mark.read t id point key output ∈ s.hist := by
  obtain ⟨mk, hmk, he⟩ := List.mem_map.mp h
  cases mk with
  | call stamp id' input' => cases he
  | wrote stamp id' =>
      cases he
      exact Or.inl ⟨rfl, hmk⟩
  | read stamp id' point key value =>
      cases he
      exact Or.inr ⟨point, key, hmk⟩

/-- The bucket of what has returned, and when it did. -/
theorem returned_bucket (h : Inv me s) {t id : Nat} {output : String}
    (hr : (t, CallEvent.ret id output) ∈ s.stamped) :
    ∃ p ≤ t, p ≤ s.agreed.length ∧ ∃ x ∈ s.bucket p, x.id = id ∧ x.output = output := by
  rcases stamped_ret hr with ⟨rfl, hmk⟩ | ⟨point, key, hmk⟩
  · obtain ⟨k, args, q, cmd, hk, hreq, hq, hcall, he, hlt⟩ := (h.mark _ hmk).2
    obtain ⟨k', hk', hreq', _⟩ := h.call_of hq
    rw [hcall] at hk'
    obtain rfl : k' = k := Option.some.inj (hk'.symm.trans hk)
    have hop : cmd.op = .putAppend args := hreq'.symm.trans hreq
    refine ⟨q + 1, hlt, (List.getElem?_eq_some_iff.mp hq).1, ⟨cmd.call, cmd.op.input, ""⟩, ?_,
      hcall, rfl⟩
    refine List.mem_append_left _ ?_
    rw [writesAt_of_effective hq hop he]
    exact List.mem_cons_self
  · obtain ⟨k, hk, hreq, h1, h2, h3⟩ := h.read_call hmk
    refine ⟨point, h2, le_trans h2 (h.mark _ hmk).1, ⟨id, .get key, output⟩, ?_, rfl, rfl⟩
    refine List.mem_append_right _ (List.mem_filterMap.mpr ⟨_, hmk, ?_⟩)
    simp [readOf]

/-- **Linearizability**: the calls that returned by a reply, with some of the others, stand in an
    order in which one map gives the values returned, and which keeps to real time. -/
theorem linearizable (hme : Function.Injective me) (h : Reach (step me) AnyStep (init n m) s) :
    Linearizable kvModel s.history := by
  have hI : Inv me s := inv_reach hme h
  have hhist : s.history = s.stamped.map Prod.snd := by
    unfold history stamped
    rw [List.map_map]
    rfl
  have hmono : s.stamped.Pairwise fun a b => a.1 ≤ b.1 := List.pairwise_map.mpr hI.mono
  refine ⟨s.order, ?_, order_legal hI, fun x hx => ?_, fun id output hr => ?_, ?_⟩
  · exact nodup_buckets (fun p _ => nodup_bucket hI p) fun p _ q _ x hx y hy he =>
      bucket_unique hI hx hy he
  · obtain ⟨p, _, hx⟩ := List.mem_flatMap.mp hx
    have hcall : ∀ {t id : Nat} {input : KvInput}, Mark.call t id input ∈ s.hist →
        CallEvent.call id input ∈ s.history := fun hmk => List.mem_map.mpr ⟨_, hmk, rfl⟩
    rcases List.mem_append.mp hx with hx | hx
    · obtain ⟨q, cmd, args, _, hq, _, _, rfl⟩ := mem_writesAt hx
      obtain ⟨k, _, _, _, hmk⟩ := hI.write_call hq
      exact hcall hmk
    · obtain ⟨stamp, key, hmk, hin⟩ := mem_readsAt hx
      obtain ⟨k, hk, hreq, _⟩ := hI.read_call hmk
      have := (hI.call _ k hk).2
      rw [hreq] at this
      rw [hin]
      exact hcall this
  · rw [hhist] at hr
    obtain ⟨⟨t, ev⟩, hmem, hev⟩ := List.mem_map.mp hr
    obtain rfl : ev = _ := hev
    obtain ⟨p, _, hp, x, hx, hrest⟩ := returned_bucket hI hmem
    exact ⟨x, List.mem_flatMap.mpr ⟨p, List.mem_range.mpr (Nat.lt_succ_of_le hp), hx⟩, hrest⟩
  · rw [hhist]
    refine order_of_buckets hmono (fun p _ x hx t input hc => ?_) fun p _ x hx t output hr => ?_
    · -- a call lies below its bucket
      obtain ⟨k, hk, hst, _⟩ := (hI.mark _ (stamped_call hc)).2
      rcases List.mem_append.mp hx with hx | hx
      · obtain ⟨q, cmd, args, rfl, hq, _, _, rfl⟩ := mem_writesAt hx
        obtain ⟨k', hk', _, hle, _⟩ := hI.write_call hq
        obtain rfl : k' = k := Option.some.inj (hk'.symm.trans hk)
        omega
      · obtain ⟨stamp, key, hmk, _⟩ := mem_readsAt hx
        obtain ⟨k', hk', _, hlt, _⟩ := hI.read_call hmk
        obtain rfl : k' = k := Option.some.inj (hk'.symm.trans hk)
        omega
    · -- and a return not
      obtain ⟨p', hp', _, y, hy, hid, _⟩ := returned_bucket hI hr
      rw [bucket_unique hI hx hy hid.symm]
      exact hp'

/-- Clerk 0 puts, and when it has returned clerk 1 reads, from another server that lags behind at
    first. -/
theorem linearizable_put_get : ∃ s : Service 2 2,
    Reach (step fun c => (c : Int)) AnyStep (init 2 2) s ∧
    s.history = [.call 0 (.put "x" "1"), .ret 0 "", .call 1 (.get "x"), .ret 1 "1"] ∧
    Linearizable kvModel s.history := by
  have run : (exec (step fun c => (c : Int)) (fun _ _ => true) (init 2 2)
      [.call 0 (.put "x" "1"), .send 0, .check 0, .start 0 true, .agree 0, .take 0, .store 0,
        .notify 0 true, .confirm 0, .finish 0, .receive 0, .call 1 (.get "x"), .send 1, .fail 1,
        .send 1, .check 2, .start 2 true, .agree 1, .take 1, .store 1, .notify 1 true, .take 1,
        .notify 1 true, .confirm 2, .finish 2, .receive 1]).any (fun s => decide (s.history =
          [.call 0 (.put "x" "1"), .ret 0 "", .call 1 (.get "x"), .ret 1 "1"])) = true := by
    decide +kernel
  obtain ⟨s, hr, run⟩ := exists_of_run run
  have hme : Function.Injective fun c : Fin 2 => (c : Int) := by
    intro a b h
    exact Fin.ext (Int.ofNat.inj h)
  exact ⟨s, hr, of_decide_eq_true run, linearizable hme hr⟩

end Service

end Mit6824.Kv
