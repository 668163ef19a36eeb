/-
  File:      Mit6824/Kv/Server.lean
  Subject:   THE KEY/VALUE SERVER'S MAPS (kvraft/server.go lines 48-112, 184-201, common.go): what
             a command does to `Storage` and `ClientMsgId`, and what a whole sequence of them does.

  `kv.apply` takes `kv.mu` twice: `isRepeated` looks up the client and notes the message, and only
  then, in a second section, `Storage` is written. The two are kept apart here (`isRepeated`,
  `store`); `apply` is both.

  * `Tables` -- the two maps; `replay ops` -- the maps after `ops`, from empty ones;
  * `Effective ops q args` -- the command at place `q` is a write that is not a repetition;
  * `noted_source` -- what `ClientMsgId` holds was put there by an effective write;
    `effective_unique` -- no message of a client is effective twice;
  * `replay_apply_old` -- **a command applied again changes nothing**.
-/
import Mathlib.Logic.Function.Basic
import Mathlib.Data.List.Basic
import Mathlib.Data.List.Induction
import Mathlib.Order.Basic

namespace Mit6824.Kv

/-! ## 1. Commands -/

/-- `PutAppendArgs.Op`, `"Put"` or `"Append"`. -/
inductive WriteType where
  | put
  | append
  deriving DecidableEq, Repr

structure PutAppendArgs where
  key : String
  value : String
  op : WriteType
  clientId : Int
  msgId : Int
  deriving DecidableEq, Repr

structure GetArgs where
  key : String
  deriving DecidableEq, Repr

/-- An `Op` without its channel: `Command` and `OpType`. -/
inductive Op where
  | get (args : GetArgs)
  | putAppend (args : PutAppendArgs)
  deriving DecidableEq, Repr

/-! ## 2. The maps -/

/-- `Storage` and `ClientMsgId` of a `KVServer`. -/
@[ext]
structure Tables where
  storage : String → Option String
  clientMsgId : Int → Option Int

namespace Tables

/-- As `StartKVServer` makes them. -/
def empty : Tables := ⟨fun _ => none, fun _ => none⟩

def isRepeated (kv : Tables) (clientId msgId : Int) (update : Bool) : Bool × Tables :=
  let compare := match kv.clientMsgId clientId with
    | some lastMsgId => decide (msgId ≤ lastMsgId)
    | none => false
  (compare,
    if update && !compare then
      { kv with clientMsgId := Function.update kv.clientMsgId clientId (some msgId) }
    else kv)

/-- Lines 85-90. -/
def store (kv : Tables) (args : PutAppendArgs) : Tables :=
  let value := match args.op with
    | .put => args.value
    | .append => (kv.storage args.key).getD "" ++ args.value
  { kv with storage := Function.update kv.storage args.key (some value) }

def apply (kv : Tables) : Op → Tables
  | .get _ => kv
  | .putAppend args =>
      let r := kv.isRepeated args.clientId args.msgId true
      if r.1 then r.2 else r.2.store args

/-- `updateFromSnapshot`: decoding into a map that is there overwrites the keys of the data and
    keeps the others. -/
def updateFromSnapshot (kv data : Tables) : Tables where
  storage key := (data.storage key).or (kv.storage key)
  clientMsgId clientId := (data.clientMsgId clientId).or (kv.clientMsgId clientId)

/-- The client's message `msgId` is noted, or a later one. -/
def Noted (kv : Tables) (clientId msgId : Int) : Prop :=
  ∃ last, kv.clientMsgId clientId = some last ∧ msgId ≤ last

theorem isRepeated_iff (kv : Tables) (clientId msgId : Int) (update : Bool) :
    (kv.isRepeated clientId msgId update).1 = true ↔ kv.Noted clientId msgId := by
  unfold isRepeated Noted
  cases kv.clientMsgId clientId with
  | none => simp
  | some last => simp

theorem isRepeated_eq_false (kv : Tables) (clientId msgId : Int) (update : Bool) :
    (kv.isRepeated clientId msgId update).1 = false ↔ ¬ kv.Noted clientId msgId := by
  rw [← kv.isRepeated_iff clientId msgId update, Bool.not_eq_true]

/-- Only a first look with `update` changes anything, and then it notes the message. -/
theorem isRepeated_old {kv : Tables} {clientId msgId : Int} (h : kv.Noted clientId msgId)
    (update : Bool) : kv.isRepeated clientId msgId update = (true, kv) := by
  have h1 := (kv.isRepeated_iff clientId msgId update).mpr h
  refine Prod.ext h1 ?_
  show (if update && !(kv.isRepeated clientId msgId update).1 then _ else kv) = kv
  rw [h1, Bool.not_true, Bool.and_false]
  rfl

theorem isRepeated_new {kv : Tables} {clientId msgId : Int} (h : ¬ kv.Noted clientId msgId) :
    kv.isRepeated clientId msgId true = (false,
      { kv with clientMsgId := Function.update kv.clientMsgId clientId (some msgId) }) := by
  have h1 := (kv.isRepeated_eq_false clientId msgId true).mpr h
  refine Prod.ext h1 ?_
  show (if true && !(kv.isRepeated clientId msgId true).1 then _ else kv) = _
  rw [h1]
  rfl

theorem apply_old {kv : Tables} {args : PutAppendArgs} (h : kv.Noted args.clientId args.msgId) :
    kv.apply (.putAppend args) = kv := by
  simp only [apply, isRepeated_old h, if_true]

theorem apply_new {kv : Tables} {args : PutAppendArgs} (h : ¬ kv.Noted args.clientId args.msgId) :
    kv.apply (.putAppend args) = ⟨(kv.store args).storage,
      Function.update kv.clientMsgId args.clientId (some args.msgId)⟩ := by
  simp only [apply, isRepeated_new h, Bool.false_eq_true, if_false]
  rfl

/-- What is noted stays noted, and a write that was applied is noted. -/
theorem Noted.apply {kv : Tables} {clientId msgId : Int} (h : kv.Noted clientId msgId) (op : Op) :
    (kv.apply op).Noted clientId msgId := by
  cases op with
  | get args => exact h
  | putAppend args =>
      by_cases hn : kv.Noted args.clientId args.msgId
      · rw [apply_old hn]
        exact h
      · rw [apply_new hn]
        obtain ⟨last, hl, hle⟩ := h
        by_cases hc : clientId = args.clientId
        · subst hc
          refine ⟨args.msgId, Function.update_self _ _ _, ?_⟩
          by_contra hlt
          exact hn ⟨last, hl, by omega⟩
        · exact ⟨last, by simpa only [Function.update_of_ne hc] using hl, hle⟩

theorem noted_apply_self (kv : Tables) (args : PutAppendArgs) :
    (kv.apply (.putAppend args)).Noted args.clientId args.msgId := by
  by_cases hn : kv.Noted args.clientId args.msgId
  · rw [apply_old hn]
    exact hn
  · rw [apply_new hn]
    exact ⟨args.msgId, Function.update_self _ _ _, Int.le_refl _⟩

/-- A key or a client that is there stays there. -/
theorem apply_grows (kv : Tables) (op : Op) :
    (∀ key, kv.storage key ≠ none → (kv.apply op).storage key ≠ none) ∧
      ∀ c, kv.clientMsgId c ≠ none → (kv.apply op).clientMsgId c ≠ none := by
  cases op with
  | get args => exact ⟨fun _ h => h, fun _ h => h⟩
  | putAppend args =>
      by_cases hn : kv.Noted args.clientId args.msgId
      · rw [apply_old hn]
        exact ⟨fun _ h => h, fun _ h => h⟩
      · rw [apply_new hn]
        refine ⟨fun key h => ?_, fun c h => ?_⟩
        · by_cases hk : key = args.key
          · subst hk
            simp [store]
          · simpa [store, Function.update_of_ne hk] using h
        · by_cases hc : c = args.clientId
          · subst hc
            simp
          · simpa [Function.update_of_ne hc] using h

end Tables

/-! ## 3. Sequences of commands -/

/-- **The maps after `ops`.** -/
def replay (ops : List Op) : Tables := ops.foldl Tables.apply Tables.empty

theorem replay_append (ops more : List Op) :
    replay (ops ++ more) = more.foldl Tables.apply (replay ops) := List.foldl_append

theorem replay_take_succ {ops : List Op} {q : Nat} {op : Op} (h : ops[q]? = some op) :
    replay (ops.take (q + 1)) = (replay (ops.take q)).apply op := by
  rw [List.take_add_one, h, replay_append]
  rfl

theorem noted_mono {ops ops' : List Op} {clientId msgId : Int} (hb : ops <+: ops')
    (h : (replay ops).Noted clientId msgId) : (replay ops').Noted clientId msgId := by
  obtain ⟨more, rfl⟩ := hb
  rw [replay_append]
  induction more generalizing ops with
  | nil => exact h
  | cons op more ih =>
    have := @ih (ops ++ [op]) (by rw [replay_append]; exact h.apply op)
    rwa [replay_append] at this

/-- No key and no client is lost along a sequence. -/
theorem replay_grows {ops ops' : List Op} (hb : ops <+: ops') :
    (∀ key, (replay ops).storage key ≠ none → (replay ops').storage key ≠ none) ∧
      ∀ c, (replay ops).clientMsgId c ≠ none → (replay ops').clientMsgId c ≠ none := by
  obtain ⟨more, rfl⟩ := hb
  rw [replay_append]
  induction more generalizing ops with
  | nil => exact ⟨fun _ h => h, fun _ h => h⟩
  | cons op more ih =>
    have hone := Tables.apply_grows (replay ops) op
    have hrest := @ih (ops ++ [op])
    rw [replay_append] at hrest
    exact ⟨fun key h => hrest.1 key (hone.1 key h), fun c h => hrest.2 c (hone.2 c h)⟩

/-- **The command at place `q` is a write that takes effect.** -/
def Effective (ops : List Op) (q : Nat) (args : PutAppendArgs) : Prop :=
  ops[q]? = some (.putAppend args) ∧ ¬ (replay (ops.take q)).Noted args.clientId args.msgId

theorem Effective.grow {ops ops' : List Op} {q : Nat} {args : PutAppendArgs}
    (h : Effective ops q args) (hb : ops <+: ops') : Effective ops' q args := by
  obtain ⟨more, rfl⟩ := hb
  have hlt := (List.getElem?_eq_some_iff.mp h.1).1
  refine ⟨?_, ?_⟩
  · rw [List.getElem?_append_left hlt]
    exact h.1
  · rw [List.take_append_of_le_length (by omega)]
    exact h.2

theorem noted_after {ops : List Op} {q : Nat} {args : PutAppendArgs}
    (h : ops[q]? = some (.putAppend args)) {k : Nat} (hk : q < k) :
    (replay (ops.take k)).Noted args.clientId args.msgId := by
  refine noted_mono (List.take_prefix_take_left (by omega : q + 1 ≤ k)) ?_
  rw [replay_take_succ h]
  exact Tables.noted_apply_self _ args

/-- **No message of a client takes effect twice.** -/
theorem effective_unique {ops : List Op} {q q' : Nat} {args args' : PutAppendArgs}
    (h : Effective ops q args) (h' : Effective ops q' args')
    (hc : args.clientId = args'.clientId) (hm : args.msgId = args'.msgId) : q = q' := by
  rcases Nat.lt_trichotomy q q' with hlt | heq | hlt
  · exact absurd (hc ▸ hm ▸ noted_after h.1 hlt) h'.2
  · exact heq
  · exact absurd (hc ▸ hm ▸ noted_after h'.1 hlt) h.2

/-- **What `ClientMsgId` holds was put there by a write that took effect.** -/
theorem noted_source {ops : List Op} {c last : Int} (h : (replay ops).clientMsgId c = some last) :
    ∃ q args, Effective ops q args ∧ args.clientId = c ∧ args.msgId = last := by
  -- induction from the end: the last command noted it, or it was there before
  induction ops using List.reverseRecOn with
  | nil => cases h
  | append_singleton ops op ih =>
    have hold : (replay ops).clientMsgId c = some last → ∃ q args,
        Effective (ops ++ [op]) q args ∧ args.clientId = c ∧ args.msgId = last := by
      intro h'
      obtain ⟨q, args, he, hrest⟩ := ih h'
      exact ⟨q, args, he.grow (List.prefix_append _ _), hrest⟩
    rw [replay_append] at h
    cases op with
    | get args => exact hold h
    | putAppend args =>
        simp only [List.foldl_cons, List.foldl_nil] at h
        by_cases hn : (replay ops).Noted args.clientId args.msgId
        · rw [Tables.apply_old hn] at h
          exact hold h
        · rw [Tables.apply_new hn] at h
          by_cases hc : c = args.clientId
          · subst hc
            simp only [Function.update_self] at h
            refine ⟨ops.length, args, ⟨List.getElem?_concat_length, ?_⟩, rfl, Option.some.inj h⟩
            rw [List.take_append_of_le_length (Nat.le_refl _), List.take_length]
            exact hn
          · simp only [Function.update_of_ne hc] at h
            exact hold h

/-- **A command that was applied before changes nothing when it is applied again.** -/
theorem replay_apply_old {ops : List Op} {q k : Nat} {op : Op} (h : ops[q]? = some op)
    (hk : q < k) : (replay (ops.take k)).apply op = replay (ops.take k) := by
  cases op with
  | get args => rfl
  | putAppend args => exact Tables.apply_old (noted_after h hk)

end Mit6824.Kv
