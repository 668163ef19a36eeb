/-
  File:      Mit6824/Lin/History.lean
  Subject:   FROM A HISTORY TO ENTRIES (linearizability/linearizability.go lines 16-49): the time
             sort.

  * `makeEntries` -- call and return of every operation, under its position as id, sorted by time;
  * `Timed h` -- operations return after they were called, and no two times are the same, so that
    there is one way to sort them;
  * `Timed.wellFormed`, `Timed.before_marks` -- they are as the search needs them, and their order
    is the order of the times;
  * `Model.object` -- the operations themselves, run by `Step`;
  * `Timed.exists_finishes_iff` -- **what the search looks for is an order of the operations**.
-/
import Mathlib.Data.List.Flatten
import Mathlib.Data.List.Sort
import Mit6824.Lin.Single

namespace Mit6824.Lin

open Lib

variable {S I O : Type}

/-! ## 1. The entries -/

def callOf (op : Operation I O) (id : Nat) : Entry I O := ⟨.inl op.input, id, op.call⟩

def returnOf (op : Operation I O) (id : Nat) : Entry I O := ⟨.inr op.output, id, op.ret⟩

/-- The loop of lines 40-46. -/
def entriesOfHistory (history : List (Operation I O)) : List (Entry I O) :=
  history.zipIdx.flatMap fun (elem, id) => [callOf elem id, returnOf elem id]

/-- `sort.Sort` leaves open what happens to equal times; there are none in a timed history. -/
def makeEntries (history : List (Operation I O)) : List (Entry I O) :=
  (entriesOfHistory history).mergeSort fun a b => a.time ≤ b.time

/-- Operations take time, and no two things happen at the same time. -/
structure Timed (h : List (Operation I O)) : Prop where
  order : ∀ op ∈ h, op.call < op.ret
  distinct : (h.flatMap fun op => [op.call, op.ret]).Nodup

theorem Timed.sublist {h h' : List (Operation I O)} (ht : Timed h) (hs : h'.Sublist h) :
    Timed h' where
  order op hop := ht.order op (hs.subset hop)
  distinct := ht.distinct.sublist (hs.flatMap _)

theorem makeEntries_perm (h : List (Operation I O)) :
    (makeEntries h).Perm (entriesOfHistory h) := List.mergeSort_perm _ _

theorem mem_makeEntries {h : List (Operation I O)} {e : Entry I O} :
    e ∈ makeEntries h ↔ ∃ x op, h[x]? = some op ∧ (e = callOf op x ∨ e = returnOf op x) := by
  rw [(makeEntries_perm h).mem_iff, entriesOfHistory, List.mem_flatMap]
  constructor
  · rintro ⟨⟨op, x⟩, hx, he⟩
    exact ⟨x, op, List.mem_zipIdx_iff_getElem?.mp hx, by simpa using he⟩
  · rintro ⟨x, op, hx, he⟩
    exact ⟨(op, x), List.mem_zipIdx_iff_getElem?.mpr hx, by simpa using he⟩

theorem times_entries (h : List (Operation I O)) :
    (entriesOfHistory h).map Entry.time = h.flatMap fun op => [op.call, op.ret] := by
  have hfst : h.flatMap (fun op => [op.call, op.ret]) =
      (h.zipIdx.map Prod.fst).flatMap fun op => [op.call, op.ret] := by
    rw [List.zipIdx_map_fst]
  rw [entriesOfHistory, List.map_flatMap, hfst, List.flatMap_map]
  rfl

theorem length_entries (h : List (Operation I O)) :
    (entriesOfHistory h).length = 2 * h.length := by
  have := congrArg List.length (times_entries h)
  rw [List.length_map, List.length_flatMap] at this
  simpa [Nat.mul_comm] using this

/-- The entries, in the order of their times. -/
theorem Timed.sorted {h : List (Operation I O)} (ht : Timed h) :
    (makeEntries h).Pairwise fun a b => a.time < b.time := by
  have htrans : ∀ a b c : Entry I O, decide (a.time ≤ b.time) = true →
      decide (b.time ≤ c.time) = true → decide (a.time ≤ c.time) = true := by
    intro a b c hab hbc
    simp only [decide_eq_true_eq] at *
    omega
  have htotal : ∀ a b : Entry I O, (decide (a.time ≤ b.time) || decide (b.time ≤ a.time)) = true := by
    intro a b
    simp only [Bool.or_eq_true, decide_eq_true_eq]
    omega
  have hle : (makeEntries h).Pairwise fun a b => a.time ≤ b.time :=
    (List.pairwise_mergeSort htrans htotal (entriesOfHistory h)).imp of_decide_eq_true
  have hnd : ((makeEntries h).map Entry.time).Nodup := by
    rw [((makeEntries_perm h).map Entry.time).nodup_iff, times_entries]
    exact ht.distinct
  rw [List.Nodup, List.pairwise_map] at hnd
  exact (hle.and hnd).imp fun h => lt_of_le_of_ne h.1 h.2

/-! ## 2. What the search gets -/

section Timed

variable {h : List (Operation I O)}

/-- Entries in the list stand as their times do. -/
theorem Timed.before (ht : Timed h) {a b : Entry I O} (ha : a ∈ makeEntries h)
    (hb : b ∈ makeEntries h) : Before (makeEntries h) a b ↔ a.time < b.time := by
  refine ⟨fun hbef => hbef.rel ht.sorted, fun hlt => ?_⟩
  refine (before_total ha hb ?_).resolve_right fun hbef => ?_
  · rintro rfl
    exact absurd hlt (lt_irrefl _)
  · exact absurd (hbef.rel ht.sorted) (not_lt.mpr hlt.le)

/-- An entry is known by its mark. -/
theorem mark_inj {a b : Entry I O} (ha : a ∈ makeEntries h) (hb : b ∈ makeEntries h)
    (heq : a.mark = b.mark) : a = b := by
  obtain ⟨x, op, hx, ha⟩ := mem_makeEntries.mp ha
  obtain ⟨y, op', hy, hb⟩ := mem_makeEntries.mp hb
  rcases ha with rfl | rfl <;> rcases hb with rfl | rfl
  · obtain rfl : x = y := Mark.call.inj heq
    rw [hx, Option.some.injEq] at hy
    rw [hy]
  · cases heq
  · cases heq
  · obtain rfl : x = y := Mark.ret.inj heq
    rw [hx, Option.some.injEq] at hy
    rw [hy]

/-- **The order of the marks is the order of the times.** -/
theorem Timed.before_marks (ht : Timed h) {x y : Nat} {op op' : Operation I O}
    (hx : h[x]? = some op) (hy : h[y]? = some op') :
    Before ((makeEntries h).map Entry.mark) (.ret y) (.call x) ↔ op'.ret < op.call := by
  have hr : returnOf op' y ∈ makeEntries h := mem_makeEntries.mpr ⟨y, op', hy, Or.inr rfl⟩
  have hc : callOf op x ∈ makeEntries h := mem_makeEntries.mpr ⟨x, op, hx, Or.inl rfl⟩
  rw [before_map]
  constructor
  · rintro ⟨a, b, hab, ha, hb⟩
    rw [mark_inj hab.mem.1 hr ha, mark_inj hab.mem.2 hc hb] at hab
    exact (ht.before hr hc).mp hab
  · intro hlt
    exact ⟨_, _, (ht.before hr hc).mpr hlt, rfl, rfl⟩

theorem Timed.wellFormed (ht : Timed h) :
    WellFormed (makeEntries h) ((makeEntries h).length / 2) where
  paired := by
    refine ⟨?_, fun m hm => ?_⟩
    · rw [List.Nodup, List.pairwise_map]
      refine ht.sorted.imp_of_mem fun ha hb hlt heq => ?_
      rw [mark_inj ha hb heq] at hlt
      exact absurd hlt (lt_irrefl _)
    · obtain ⟨e, he, rfl⟩ := List.mem_map.mp hm
      obtain ⟨x, op, hx, hcr⟩ := mem_makeEntries.mp he
      have hid : e.mark.id = x := by rcases hcr with rfl | rfl <;> rfl
      rw [hid, before_map]
      refine ⟨callOf op x, returnOf op x, (ht.before ?_ ?_).mpr ?_, rfl, rfl⟩
      · exact mem_makeEntries.mpr ⟨x, op, hx, Or.inl rfl⟩
      · exact mem_makeEntries.mpr ⟨x, op, hx, Or.inr rfl⟩
      · exact ht.order op (List.mem_of_getElem? hx)
  ids := by
    intro e he
    obtain ⟨x, op, hx, hcr⟩ := mem_makeEntries.mp he
    have hid : e.id = x := by rcases hcr with rfl | rfl <;> rfl
    have hlt := (List.getElem?_eq_some_iff.mp hx).1
    rw [hid, (makeEntries_perm h).length_eq, length_entries]
    omega

/-! ## 3. The history as operations on an object -/

/-- `Step` as an object that takes an operation or refuses it. -/
def Model.object (model : Model S I O) : Acceptor S (Operation I O) where
  init := model.init
  step s op :=
    let (ok, s') := model.step s op.input op.output
    if ok then some s' else none

theorem acceptor_step (ht : Timed h) (model : Model S I O) (s : S) {x : Nat} {op : Operation I O}
    (hx : h[x]? = some op) :
    (acceptor model (makeEntries h)).step s x = model.object.step s op := by
  have hnd := ht.wellFormed.paired.nodup
  have hin : inputOf (makeEntries h) x = some op.input :=
    inputOf_eq hnd (mem_makeEntries.mpr ⟨x, op, hx, Or.inl rfl⟩) rfl
  have hout : outputOf (makeEntries h) x = some op.output :=
    outputOf_eq hnd (mem_makeEntries.mpr ⟨x, op, hx, Or.inr rfl⟩) rfl
  simp only [acceptor, Model.object, hin, hout]

theorem call_mem_marks {x : Nat} :
    .call x ∈ (makeEntries h).map Entry.mark ↔ x < h.length := by
  rw [List.mem_map]
  constructor
  · rintro ⟨e, he, hm⟩
    obtain ⟨y, op, hy, hcr⟩ := mem_makeEntries.mp he
    have hlt := (List.getElem?_eq_some_iff.mp hy).1
    rcases hcr with rfl | rfl
    · rwa [← Mark.call.inj hm]
    · cases hm
  · intro hx
    exact ⟨_, mem_makeEntries.mpr ⟨x, h[x], List.getElem?_eq_getElem hx, Or.inl rfl⟩, rfl⟩

theorem forall₂_range (h : List (Operation I O)) :
    List.Forall₂ (fun x op => h[x]? = some op) (List.range h.length) h := by
  rw [List.forall₂_iff_get]
  refine ⟨List.length_range, fun i hi hi' => ?_⟩
  simp

/-- The same order, of numbers or of operations. -/
theorem Timed.finishes_iff (ht : Timed h) (model : Model S I O) {L : List Nat}
    {order : List (Operation I O)} (hL : List.Forall₂ (fun x op => h[x]? = some op) L order)
    (hp : L.Perm (List.range h.length)) :
    Finishes (acceptor model (makeEntries h)) ((makeEntries h).map Entry.mark) ∅ model.init L ↔
      InOrder Operation.call Operation.ret order ∧
        (model.object.run model.init order).isSome = true := by
  have hord : (L.Pairwise fun x y =>
      ¬ Before ((makeEntries h).map Entry.mark) (.ret y) (.call x)) ↔
        InOrder Operation.call Operation.ret order :=
    pairwise_forall₂ hL fun x op y op' hx hy => not_congr (ht.before_marks hx hy)
  have hrun : (acceptor model (makeEntries h)).run model.init L =
      model.object.run model.init order :=
    run_forall₂ (fun s x op hx => acceptor_step ht model s hx) hL
  rw [← hord, ← hrun]
  refine ⟨fun hf => ⟨hf.order, hf.run⟩, fun ⟨hord, hrun⟩ => ⟨?_, fun x => ?_, hord, hrun⟩⟩
  · exact hp.nodup_iff.mpr List.nodup_range
  · rw [hp.mem_iff, call_mem_marks, List.mem_range]
    simp

/-- **There is an order of the numbers if and only if there is one of the operations**, in which
    none stands behind what was called after its return, and that `Step` takes. -/
theorem Timed.exists_finishes_iff (ht : Timed h) (model : Model S I O) :
    (∃ L, Finishes (acceptor model (makeEntries h)) ((makeEntries h).map Entry.mark) ∅ model.init L) ↔
      Explained model.object Operation.call Operation.ret model.init h := by
  constructor
  · rintro ⟨L, hL⟩
    have hp : L.Perm (List.range h.length) := by
      refine (List.perm_ext_iff_of_nodup hL.nodup List.nodup_range).mpr fun x => ?_
      rw [hL.all, call_mem_marks, List.mem_range]
      simp
    obtain ⟨order, hrel, hperm⟩ := List.perm_comp_forall₂ hp (forall₂_range h)
    exact ⟨order, hperm, (ht.finishes_iff model hrel hp).mp hL⟩
  · rintro ⟨order, hperm, hord⟩
    obtain ⟨L, hrel, hp⟩ := List.perm_comp_forall₂ hperm (forall₂_range h).flip
    exact ⟨L, (ht.finishes_iff model hrel.flip hp).mpr hord⟩

end Timed

end Mit6824.Lin
