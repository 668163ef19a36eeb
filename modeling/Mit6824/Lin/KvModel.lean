/-
  File:      Mit6824/Lin/KvModel.lean
  Subject:   THE MODEL OF THE KEY/VALUE STORE (linearizability/models.go): one key at a time is
             enough.

  * `kvModel` -- `KvModel()`: operations are put together by key, a state is the value of one key;
  * `store` -- what it stands for: a map from keys to strings;
  * `store_eq_keyed` -- the store is one `kvModel` object for each key;
  * `checkOperations_kvModel` -- **the check of a history is right about the whole store**, by
    locality (`Lib.Locality`);
  * `checkOperationsTimeout_kvModel` -- with a timeout there is **no false alarm**;
  * `no_operations` -- the check of nothing waits for ever, unless the time is over.
-/
import Mit6824.Lib.Grouping
import Mit6824.Lin.Check

namespace Mit6824.Lin

open Lib

/-! ## 1. The code -/

/-- `op` is 0 for a get, 1 for a put, 2 for an append. -/
structure KvInput where
  op : UInt8
  key : String
  value : String
  deriving DecidableEq, Repr

structure KvOutput where
  value : String
  deriving DecidableEq, Repr

abbrev KvOperation := Operation KvInput KvOutput

def Operation.key (v : KvOperation) : String := v.input.key

/-- The operations of every key; a `range` over the map may list them in any order. -/
def kvPartition (history : List KvOperation) : List (List KvOperation) :=
  (entriesOf (history.foldl (collect Operation.key id) ∅)).map Prod.snd

def kvStep (st : String) (inp : KvInput) (out : KvOutput) : Bool × String :=
  if inp.op = 0 then (out.value == st, st)
  else if inp.op = 1 then (true, inp.value)
  else (true, st ++ inp.value)

def kvModel : Model String KvInput KvOutput where
  partition := kvPartition
  init := ""
  step := kvStep
  equal := shallowEqual

/-! ## 2. The whole store -/

/-- **A map from keys to strings**: a get returns the value of its key, a put sets it, an append
    adds to it. -/
def storeStep (m : String → String) (v : KvOperation) : Option (String → String) :=
  if v.input.op = 0 then
    if v.output.value = m v.key then some m else none
  else if v.input.op = 1 then some (Function.update m v.key v.input.value)
  else some (Function.update m v.key (m v.key ++ v.input.value))

def store : Acceptor (String → String) KvOperation where
  init _ := ""
  step := storeStep

theorem store_eq_keyed : store = kvModel.object.keyed Operation.key := by
  have hstep : storeStep = (kvModel.object.keyed Operation.key).step := by
    funext m v
    simp only [storeStep, Acceptor.keyed, Model.object, kvModel, kvStep]
    by_cases hget : v.input.op = 0
    · by_cases hout : v.output.value = m v.key <;> simp [hget, hout]
    · by_cases hput : v.input.op = 1 <;> simp [hget, hput]
  rw [store, hstep]
  rfl

/-! ## 3. The parts -/

theorem mem_kvPartition {history sub : List KvOperation} :
    sub ∈ kvPartition history ↔
      ∃ k ∈ history.map Operation.key, sub = history.filter fun v => v.key = k := by
  have h : Collected Operation.key id ([] ++ history) (history.foldl (collect Operation.key id) ∅) :=
    collected_foldl collected_empty history
  rw [List.nil_append] at h
  rw [kvPartition, List.mem_map]
  simp only [Prod.exists, exists_eq_right, mem_entriesOf h, valuesOf, List.map_id_fun, id_eq]

theorem kvPartition_ne_nil {history : List KvOperation} (h : history ≠ []) :
    kvPartition history ≠ [] := by
  obtain ⟨v, hv⟩ := List.exists_mem_of_ne_nil history h
  exact List.ne_nil_of_mem (mem_kvPartition.mpr ⟨v.key, List.mem_map_of_mem hv, rfl⟩)

/-- A key that no operation names has nothing to explain. -/
theorem explained_parts_iff {history : List KvOperation} :
    (∀ sub ∈ kvPartition history,
      Explained kvModel.object Operation.call Operation.ret kvModel.init sub) ↔
    ∀ k, Explained kvModel.object Operation.call Operation.ret kvModel.init
      (history.filter fun v => v.key = k) := by
  constructor
  · intro h k
    by_cases hk : k ∈ history.map Operation.key
    · exact h _ (mem_kvPartition.mpr ⟨k, hk, rfl⟩)
    · have hnil : history.filter (fun v => v.key = k) = [] := by
        rw [List.filter_eq_nil_iff]
        intro v hv hkey
        exact hk (List.mem_map.mpr ⟨v, hv, of_decide_eq_true hkey⟩)
      rw [hnil]
      exact ⟨[], List.Perm.refl _, List.Pairwise.nil, rfl⟩
  · intro h sub hsub
    obtain ⟨k, _, rfl⟩ := mem_kvPartition.mp hsub
    exact h k

theorem Timed.kvPartition {history : List KvOperation} (ht : Timed history) :
    ∀ sub ∈ kvModel.partition history, Timed sub := by
  intro sub hsub
  obtain ⟨k, _, rfl⟩ := mem_kvPartition.mp hsub
  exact ht.sublist List.filter_sublist

/-- **Checking per key is checking the whole store.** For operations that take time, at times that
    are all different, `CheckOperations` has an answer, and it is true if and only if all operations
    on all keys have one order in which no operation stands behind one that was called after it had
    returned, and in which every get returns what the store has then. -/
theorem checkOperations_kvModel (history : List KvOperation) (hne : history ≠ [])
    (ht : Timed history) :
    (∃ b, CheckOperations kvModel history b) ∧
      (CheckOperations kvModel history true ↔
        ∃ order, order.Perm history ∧ (order.Pairwise fun x y => ¬ y.ret < x.call) ∧
          (store.run store.init order).isSome = true) := by
  obtain ⟨hanswer, htrue⟩ := checkOperations_iff
    (Model.respects_of_shallowEqual rfl) (kvPartition_ne_nil hne) ht.kvPartition
  refine ⟨hanswer, htrue.trans (explained_parts_iff.trans ?_)⟩
  rw [store_eq_keyed]
  exact (explained_keyed_iff fun v hv => (ht.order v hv).le).symm

/-- A get during the put whose value it returns, and an append to another key. -/
def overlapping : List KvOperation :=
  [⟨⟨1, "x", "1"⟩, 1, ⟨""⟩, 4⟩, ⟨⟨0, "x", ""⟩, 2, ⟨"1"⟩, 3⟩, ⟨⟨2, "y", "a"⟩, 5, ⟨""⟩, 6⟩]

theorem checkOperations_overlapping : CheckOperations kvModel overlapping true :=
  (checkOperations_kvModel overlapping (by decide) ⟨by decide, by decide⟩).2.mpr
    ⟨overlapping, List.Perm.refl _, by decide, by decide⟩

/-! ## 4. The check with a timeout -/

/-- **No false alarm.** Whenever the time is over, and whatever is scheduled, the check of a history
    of the key/value store gives an answer; and when it is false, the operations have no order that
    the store could have taken them in. -/
theorem checkOperationsTimeout_kvModel (history : List KvOperation) (ht : Timed history) :
    CheckOperationsTimeout kvModel true history fun b => b = false →
      ¬ ∃ order, order.Perm history ∧ (order.Pairwise fun x y => ¬ y.ret < x.call) ∧
        (store.run store.init order).isSome = true := by
  refine (checkOperationsTimeout_answers (Model.respects_of_shallowEqual rfl) (Or.inr rfl)
    ht.kvPartition).mono ?_
  rintro b ⟨hfalse, _⟩ hb horder
  refine hfalse hb (explained_parts_iff.mpr ?_)
  rw [store_eq_keyed] at horder
  exact (explained_keyed_iff fun v hv => (ht.order v hv).le).mp horder

/-- A get that returns what was never written: one part, whose answer can come in time or not. -/
theorem checkOperationsTimeout_stale : CheckOperationsTimeout kvModel true
    [⟨⟨1, "x", "1"⟩, 1, ⟨""⟩, 2⟩, ⟨⟨0, "x", ""⟩, 3, ⟨""⟩, 4⟩] fun b => b = false →
      ¬ ∃ order : List KvOperation,
        order.Perm [⟨⟨1, "x", "1"⟩, 1, ⟨""⟩, 2⟩, ⟨⟨0, "x", ""⟩, 3, ⟨""⟩, 4⟩] ∧
        (order.Pairwise fun x y => ¬ y.ret < x.call) ∧
        (store.run store.init order).isSome = true :=
  checkOperationsTimeout_kvModel _ ⟨by decide, by decide⟩

/-- **No operation at all**: there is no part, and nobody ever sends a result. Without a timeout the
    check waits for ever, with one it answers true. -/
theorem no_operations :
    (∀ b, ¬ CheckOperations kvModel [] b) ∧ CheckOperationsTimeout kvModel true [] (· = true) := by
  refine ⟨fun b h => ?_, ?_⟩
  · cases h [] (List.Perm.refl _) with
    | now _ h =>
        obtain ⟨_, h, _⟩ := h
        cases h
    | later _ hgo _ =>
        obtain ⟨a, s', hs⟩ := hgo
        cases a <;> simp [Check.step, Check.start] at hs
  · have hno : ∀ sub, sub ∉ kvModel.partition [] := fun sub => List.not_mem_nil
    refine (checkOperationsTimeout_answers (Model.respects_of_shallowEqual rfl) (Or.inr rfl)
      fun sub hsub => absurd hsub (hno sub)).mono fun b hb => ?_
    cases b with
    | true => rfl
    | false => exact absurd (fun sub hsub => absurd hsub (hno sub)) (hb.1 rfl)

end Mit6824.Lin
