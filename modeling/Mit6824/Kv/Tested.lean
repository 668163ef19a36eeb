/-
  File:      Mit6824/Kv/Tested.lean
  Subject:   WHAT THE TESTS CHECK (kvraft/test_test.go lines 293-434 with linearizability/): the
             operations that `GenericTestLinearizability` records, against linearizability as the
             service has it (Kv/Linear.lean).

  A client notes the time before it calls and after it has returned, so the interval it records holds
  the interval of the call. The checker is asked about these operations, with a timeout.

  * `Recorded H ids op` -- the operations `op` under `ids` are those of the history, all of them;
  * `store_step`, `run_isSome_iff` -- the store of the checker is the map of the service;
  * `test_passes` -- **a linearizable history passes**, whenever the time is over;
  * `tested` -- **with exact times the checker says whether the history is linearizable**.
-/
import Mit6824.Kv.Service
import Mit6824.Lin.KvModel

namespace Mit6824.Kv

open Lib

/-! ## 1. The record -/

/-- Lines 350-362. -/
def KvInput.recorded : KvInput → Lin.KvInput
  | .get key => ⟨0, key, ""⟩
  | .put key value => ⟨1, key, value⟩
  | .append key value => ⟨2, key, value⟩

def KvInput.isGet : KvInput → Bool
  | .get _ => true
  | _ => false

/-- **The operations of a history as the clients record them.** Every call has returned; a write
    returns nothing. -/
structure Recorded (H : List (CallEvent Nat KvInput String)) (ids : List Nat)
    (op : Nat → Lin.KvOperation) : Prop where
  nodup : ids.Nodup
  call : ∀ id ∈ ids, ∃ input, .call id input ∈ H
  ret : ∀ id ∈ ids, ∃ output, .ret id output ∈ H
  input : ∀ id input, .call id input ∈ H → id ∈ ids ∧ (op id).input = input.recorded
  output : ∀ id output, .ret id output ∈ H → id ∈ ids ∧ (op id).output = ⟨output⟩
  blank : ∀ id input output, .call id input ∈ H → .ret id output ∈ H → input.isGet = false →
    output = ""
  wide : ∀ x y input output, .call x input ∈ H → .ret y output ∈ H → (op y).ret < (op x).call →
    Before H (.ret y output) (.call x input)

/-- The times are those of the history. -/
def Exact (H : List (CallEvent Nat KvInput String)) (op : Nat → Lin.KvOperation) : Prop :=
  ∀ x y input output, Before H (.ret y output) (.call x input) → (op y).ret < (op x).call

/-! ## 2. Two stores -/

/-- The store of the checker knows no missing keys. -/
def flat (state : String → Option String) (key : String) : String := (state key).getD ""

theorem flat_update (state : String → Option String) (key value : String) :
    flat (Function.update state key (some value)) = Function.update (flat state) key value := by
  funext k
  by_cases hk : k = key
  · subst hk
    simp [flat]
  · simp [flat, hk]

/-- **One operation.** -/
theorem store_step (state : String → Option String) {v : Lin.KvOperation} {input : KvInput}
    {output : String} (hin : v.input = input.recorded) (hout : v.output = ⟨output⟩)
    (hblank : input.isGet = false → output = "") :
    Lin.store.step (flat state) v =
      if (kvModel.step state input).2 = output then some (flat (kvModel.step state input).1)
      else none := by
  have hkey : v.key = v.input.key := rfl
  cases input with
  | get key =>
      simp only [Lin.store, Lin.storeStep, hkey, hin, hout, KvInput.recorded, kvModel, flat, if_true]
      simp only [eq_comm]
  | put key value =>
      simp only [Lin.store, Lin.storeStep, hkey, hin, KvInput.recorded, kvModel, hblank rfl,
        flat_update, if_true]
      rfl
  | append key value =>
      simp only [Lin.store, Lin.storeStep, hkey, hin, KvInput.recorded, kvModel, hblank rfl,
        flat_update, if_true]
      rfl

/-- An operation of an order is recorded as it is. -/
def Fits (op : Nat → Lin.KvOperation) (x : Operation Nat KvInput String) : Prop :=
  (op x.id).input = x.input.recorded ∧ (op x.id).output = ⟨x.output⟩ ∧
    (x.input.isGet = false → x.output = "")

/-- **The same orders are legal.** -/
theorem run_isSome_iff {op : Nat → Lin.KvOperation} {L : List (Operation Nat KvInput String)}
    (hfit : ∀ x ∈ L, Fits op x) (state : String → Option String) :
    (Lin.store.run (flat state) (L.map fun x => op x.id)).isSome = true ↔ kvModel.Legal state L := by
  induction L generalizing state with
  | nil => exact iff_of_true rfl trivial
  | cons x L ih =>
      obtain ⟨hx, hL⟩ := List.forall_mem_cons.mp hfit
      rw [List.map_cons, Acceptor.run, store_step state hx.1 hx.2.1 hx.2.2]
      unfold SeqObject.Legal
      by_cases hout : (kvModel.step state x.input).2 = x.output
      · rw [if_pos hout, Option.bind_some, ih hL]
        exact (and_iff_right hout).symm
      · rw [if_neg hout]
        exact iff_of_false Bool.false_ne_true fun h => hout h.1

/-! ## 3. Two ways to say that a history is linearizable -/

section Recorded

variable {H : List (CallEvent Nat KvInput String)} {ids : List Nat} {op : Nat → Lin.KvOperation}

/-- The checker's way. -/
def Accepted (history : List Lin.KvOperation) : Prop :=
  Explained Lin.store Lin.Operation.call Lin.Operation.ret Lin.store.init history

theorem Recorded.fits (h : Recorded H ids op) {x : Operation Nat KvInput String}
    (hcall : .call x.id x.input ∈ H) (hret : .ret x.id x.output ∈ H) : Fits op x :=
  ⟨(h.input _ _ hcall).2, (h.output _ _ hret).2, h.blank _ _ _ hcall hret⟩

/-- Every operation of an order has returned, with the output it has there. -/
theorem Recorded.returned (h : Recorded H ids op) {L : List (Operation Nat KvInput String)}
    (hL : Linearizes kvModel H L) {x : Operation Nat KvInput String} (hx : x ∈ L) :
    .ret x.id x.output ∈ H := by
  obtain ⟨output, hret⟩ := h.ret x.id (h.input _ _ (hL.called x hx)).1
  obtain ⟨y, hy, hid, hout⟩ := hL.returned _ _ hret
  obtain rfl : y = x := List.inj_on_of_nodup_map hL.once hy hx hid
  rwa [← hout] at hret

theorem Recorded.accepted (h : Recorded H ids op) (hL : Linearizable kvModel H) :
    Accepted (ids.map op) := by
  obtain ⟨L, hL⟩ := hL
  have hfit : ∀ x ∈ L, Fits op x := fun x hx => h.fits (hL.called x hx) (h.returned hL hx)
  have hrun := (run_isSome_iff hfit kvModel.init).mpr hL.legal
  refine ⟨_, ?_, ?_, hrun⟩
  · have hids : (L.map (·.id)).Perm ids := by
      refine (List.perm_ext_iff_of_nodup hL.once h.nodup).mpr fun id => ?_
      constructor
      · intro hid
        obtain ⟨x, hx, rfl⟩ := List.mem_map.mp hid
        exact (h.input _ _ (hL.called x hx)).1
      · intro hid
        obtain ⟨output, hret⟩ := h.ret id hid
        obtain ⟨x, hx, rfl, _⟩ := hL.returned _ _ hret
        exact List.mem_map_of_mem hx
    have := hids.map op
    rwa [List.map_map] at this
  · rw [Lib.InOrder, List.pairwise_map]
    have hnd : L.Nodup := hL.once.of_map _
    refine List.pairwise_iff_forall_sublist.mpr fun {x y} hs hlt => ?_
    -- what is recorded as over by then was over
    have hb : Before L x y := before_iff_sublist.mpr hs
    have hbef := h.wide x.id y.id x.input y.output (hL.called x hb.mem.1)
      (h.returned hL hb.mem.2) hlt
    exact hb.asymm hnd (hL.order y hb.mem.2 x hb.mem.1 _ _ hbef)

theorem Recorded.of_accepted (h : Recorded H ids op) (hexact : Exact H op)
    (ht : Lin.Timed (ids.map op)) (hacc : Accepted (ids.map op)) : Linearizable kvModel H := by
  obtain ⟨order, hperm, hord, hrun⟩ := hacc
  -- the ids in the order of the operations
  obtain ⟨L, hrel, hids⟩ := List.perm_comp_forall₂ hperm
    (List.forall₂_map_left_iff.mpr (List.forall₂_same.mpr fun id _ => rfl) :
      List.Forall₂ (fun v id => v = op id) (ids.map op) ids)
  rw [← List.forall₂_map_right_iff, List.forall₂_eq_eq_eq] at hrel
  subst hrel
  have hmem : ∀ id ∈ L, id ∈ ids := fun id hid => hids.mem_iff.mp hid
  have : Nonempty KvInput := ⟨.get ""⟩
  choose! input hinput using h.call
  choose! output houtput using h.ret
  have hnd : L.Nodup := hids.nodup_iff.mpr h.nodup
  have hfit : ∀ x ∈ L.map (fun id => (⟨id, input id, output id⟩ : Operation Nat KvInput String)),
      Fits op x := by
    intro x hx
    obtain ⟨id, hid, rfl⟩ := List.mem_map.mp hx
    exact h.fits (hinput id (hmem id hid)) (houtput id (hmem id hid))
  refine ⟨L.map fun id => ⟨id, input id, output id⟩, ?_, ?_, fun x hx => ?_, fun id out hret => ?_,
    fun x hx y hy out inp hb => ?_⟩
  · rw [List.map_map]
    exact (List.map_id L).symm ▸ hnd
  · refine (run_isSome_iff hfit kvModel.init).mp ?_
    rw [List.map_map]
    exact hrun
  · obtain ⟨id, hid, rfl⟩ := List.mem_map.mp hx
    exact hinput id (hmem id hid)
  · obtain ⟨hid, hout⟩ := h.output id out hret
    refine ⟨_, List.mem_map_of_mem (hids.mem_iff.mpr hid), rfl, ?_⟩
    have := (h.output id _ (houtput id hid)).2
    rw [hout] at this
    exact (Lin.KvOutput.mk.inj this).symm
  · obtain ⟨id, hid, rfl⟩ := List.mem_map.mp hx
    obtain ⟨id', hid', rfl⟩ := List.mem_map.mp hy
    have hirr : ∀ id, ¬ ((op id).ret < (op id).call ∧ id ∈ ids) := by
      rintro id ⟨hlt, hid⟩
      exact absurd (ht.order _ (List.mem_map_of_mem hid)) (not_lt.mpr hlt.le)
    rw [Lib.InOrder, List.pairwise_map] at hord
    have hbef : Before L id id' := by
      refine (before_total hid hid' ?_).resolve_right fun hb' => ?_
      · rintro rfl
        exact hirr id ⟨hexact _ _ _ _ hb, hmem id hid⟩
      · exact hb'.rel hord (hexact _ _ _ _ hb)
    exact before_map.mpr ⟨id, id', hbef, rfl, rfl⟩

/-! ## 4. What the checker says -/

theorem accepted_iff_parts (ht : Lin.Timed (ids.map op)) :
    (∀ sub ∈ Lin.kvModel.partition (ids.map op), Explained Lin.kvModel.object Lin.Operation.call
      Lin.Operation.ret Lin.kvModel.init sub) ↔ Accepted (ids.map op) := by
  rw [Accepted, Lin.store_eq_keyed]
  exact Lin.explained_parts_iff.trans (explained_keyed_iff fun v hv => (ht.order v hv).le).symm

/-- **A linearizable history passes the test**: whatever is scheduled and whenever the time is over,
    the checker has nothing to say against what the clients have recorded. -/
theorem test_passes (h : Recorded H ids op) (ht : Lin.Timed (ids.map op))
    (hL : Linearizable kvModel H) :
    Lin.CheckOperationsTimeout Lin.kvModel true (ids.map op) (· = true) := by
  refine (Lin.checkOperationsTimeout_answers (Lin.Model.respects_of_shallowEqual rfl) (Or.inr rfl)
    ht.kvPartition).mono ?_
  rintro b ⟨hfalse, _⟩
  cases b with
  | true => rfl
  | false => exact absurd ((accepted_iff_parts ht).mpr (h.accepted hL)) (hfalse rfl)

/-- **The checker decides the linearizability of the service**: for exact times and without a
    timeout it has an answer, and it is true if and only if the history is linearizable for one map
    from keys to values. -/
theorem tested (h : Recorded H ids op) (hexact : Exact H op) (hne : ids ≠ [])
    (ht : Lin.Timed (ids.map op)) :
    (∃ b, Lin.CheckOperations Lin.kvModel (ids.map op) b) ∧
      (Lin.CheckOperations Lin.kvModel (ids.map op) true ↔ Linearizable kvModel H) := by
  obtain ⟨hanswer, htrue⟩ := Lin.checkOperations_iff (Lin.Model.respects_of_shallowEqual rfl)
    (Lin.kvPartition_ne_nil fun hnil => hne (List.map_eq_nil_iff.mp hnil)) ht.kvPartition
  refine ⟨hanswer, htrue.trans ((accepted_iff_parts ht).trans ⟨h.of_accepted hexact ht, h.accepted⟩)⟩

end Recorded

/-- A put, and during it a get that already returns the new value. -/
def putGet : List (CallEvent Nat KvInput String) :=
  [.call 0 (.put "x" "1"), .call 1 (.get "x"), .ret 1 "1", .ret 0 ""]

def putGetRecord : Nat → Lin.KvOperation
  | 0 => ⟨⟨1, "x", "1"⟩, 1, ⟨""⟩, 4⟩
  | _ => ⟨⟨0, "x", ""⟩, 2, ⟨"1"⟩, 3⟩

theorem call_putGet {id : Nat} {input : KvInput} (h : .call id input ∈ putGet) :
    (id = 0 ∧ input = .put "x" "1") ∨ (id = 1 ∧ input = .get "x") := by
  simpa [putGet] using h

theorem ret_putGet {id : Nat} {output : String} (h : .ret id output ∈ putGet) :
    (id = 1 ∧ output = "1") ∨ (id = 0 ∧ output = "") := by
  simpa [putGet] using h

theorem recorded_putGet : Recorded putGet [0, 1] putGetRecord where
  nodup := by decide
  call := by simp [putGet]
  ret := by simp [putGet]
  input id input h := by
    rcases call_putGet h with ⟨rfl, rfl⟩ | ⟨rfl, rfl⟩ <;> exact ⟨by decide, rfl⟩
  output id output h := by
    rcases ret_putGet h with ⟨rfl, rfl⟩ | ⟨rfl, rfl⟩ <;> exact ⟨by decide, rfl⟩
  blank id input output hc hr hget := by
    rcases call_putGet hc with ⟨rfl, rfl⟩ | ⟨rfl, rfl⟩
    · rcases ret_putGet hr with ⟨h, _⟩ | ⟨_, rfl⟩
      · cases h
      · rfl
    · cases hget
  wide x y input output hc hr hlt := by
    rcases call_putGet hc with ⟨rfl, rfl⟩ | ⟨rfl, rfl⟩ <;>
      rcases ret_putGet hr with ⟨rfl, rfl⟩ | ⟨rfl, rfl⟩ <;> exact absurd hlt (by decide)

/-- The put goes first. -/
theorem linearizable_putGet : Linearizable kvModel putGet := by
  refine ⟨[⟨0, .put "x" "1", ""⟩, ⟨1, .get "x", "1"⟩], by decide, ⟨rfl, rfl, trivial⟩, by simp [putGet],
    fun id output h => ?_, fun x _ y _ output input hb => ?_⟩
  · rcases ret_putGet h with ⟨rfl, rfl⟩ | ⟨rfl, rfl⟩ <;> simp
  · rw [before_iff_sublist] at hb
    simp [putGet, List.sublist_cons_iff] at hb

theorem test_passes_putGet :
    Lin.CheckOperationsTimeout Lin.kvModel true ([0, 1].map putGetRecord) (· = true) :=
  test_passes recorded_putGet ⟨by decide, by decide⟩ linearizable_putGet

theorem tested_putGet : Lin.CheckOperations Lin.kvModel ([0, 1].map putGetRecord) true := by
  have hexact : Exact putGet putGetRecord := fun x y input output hb => by
    rw [before_iff_sublist] at hb
    simp [putGet, List.sublist_cons_iff] at hb
  exact (tested recorded_putGet hexact (by decide) ⟨by decide, by decide⟩).2.mpr linearizable_putGet

end Mit6824.Kv
