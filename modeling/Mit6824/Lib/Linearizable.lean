/-
  File:      Mit6824/Lib/Linearizable.lean
  Subject:   LINEARIZABLE HISTORIES of a sequential object.

  A history is the calls and returns of operations in the order they happened. It is linearizable
  if all operations that returned, and some that did not, stand in one order in which the object,
  used by one caller, gives the outputs that were returned, and in which what returned before
  another was called comes first.

  * `Linearizes obj H L` -- `L` is such an order;
  * `legal_buckets`, `nodup_buckets`, `before_buckets`, `order_of_buckets` -- **the bucket rule**:
    operations are sorted into numbered buckets, and along the history a number that never falls
    is seen; an operation whose bucket lies above the number at its call and not above the number
    at its return is in real-time order.
-/
import Mathlib.Data.List.Nodup
import Mathlib.Data.List.Range

namespace Mit6824.Lib

variable {S I O K α : Type}

/-! ## 1. Objects and histories -/

structure SeqObject (S I O : Type) where
  init : S
  step : S → I → S × O

inductive CallEvent (K I O : Type) where
  | call (id : K) (input : I)
  | ret (id : K) (output : O)
  deriving DecidableEq

structure Operation (K I O : Type) where
  id : K
  input : I
  output : O

namespace SeqObject

variable (obj : SeqObject S I O)

/-- The state some operations leave. -/
def after (s : S) (L : List (Operation K I O)) : S := L.foldl (fun s x => (obj.step s x.input).1) s

/-- The outputs are those of the object. -/
def Legal : S → List (Operation K I O) → Prop
  | _, [] => True
  | s, x :: L => (obj.step s x.input).2 = x.output ∧ Legal (obj.step s x.input).1 L

theorem legal_append (s : S) (L L' : List (Operation K I O)) :
    obj.Legal s (L ++ L') ↔ obj.Legal s L ∧ obj.Legal (obj.after s L) L' := by
  induction L generalizing s with
  | nil => simp [Legal, after]
  | cons x L ih =>
    simp only [List.cons_append, Legal, ih, and_assoc]
    rfl

theorem after_append (s : S) (L L' : List (Operation K I O)) :
    obj.after s (L ++ L') = obj.after (obj.after s L) L' := List.foldl_append

end SeqObject

/-- `x` stands in the list, and `y` after it. -/
def Before (L : List α) (x y : α) : Prop := ∃ l₁ l₂, L = l₁ ++ x :: l₂ ∧ y ∈ l₂

/-- **An order of the operations** that explains the history. -/
structure Linearizes (obj : SeqObject S I O) (H : List (CallEvent K I O))
    (L : List (Operation K I O)) : Prop where
  once : (L.map (·.id)).Nodup
  legal : obj.Legal obj.init L
  called : ∀ x ∈ L, .call x.id x.input ∈ H
  returned : ∀ id output, .ret id output ∈ H → ∃ x ∈ L, x.id = id ∧ x.output = output
  order : ∀ x ∈ L, ∀ y ∈ L, ∀ output input,
    Before H (.ret x.id output) (.call y.id input) → Before L x y

def Linearizable (obj : SeqObject S I O) (H : List (CallEvent K I O)) : Prop :=
  ∃ L, Linearizes obj H L

/-! ## 2. Buckets -/

section Buckets

variable {f : ℕ → List α} {N : ℕ}

theorem Before.append_right {L L' : List α} {x y : α} (h : Before L x y) : Before (L ++ L') x y := by
  obtain ⟨l₁, l₂, rfl, hy⟩ := h
  exact ⟨l₁, l₂ ++ L', by simp, List.mem_append_left _ hy⟩

theorem before_append {L L' : List α} {x y : α} (hx : x ∈ L) (hy : y ∈ L') :
    Before (L ++ L') x y := by
  obtain ⟨l₁, l₂, rfl⟩ := List.append_of_mem hx
  exact ⟨l₁, l₂ ++ L', by simp, List.mem_append_right _ hy⟩

theorem buckets_succ (f : ℕ → List α) (N : ℕ) :
    (List.range (N + 1)).flatMap f = (List.range N).flatMap f ++ f N := by
  rw [List.range_succ, List.flatMap_append, List.flatMap_singleton]

theorem before_buckets {p q : ℕ} {x y : α} (hpq : p < q) (hq : q < N) (hx : x ∈ f p)
    (hy : y ∈ f q) : Before ((List.range N).flatMap f) x y := by
  induction N with
  | zero => omega
  | succ N ih =>
    rw [buckets_succ]
    rcases Nat.lt_or_ge q N with hlt | hge
    · exact (ih hlt).append_right
    · have hqN : q = N := by omega
      subst hqN
      exact before_append (List.mem_flatMap.mpr ⟨p, List.mem_range.mpr hpq, hx⟩) hy

theorem nodup_buckets {g : ℕ → List (Operation K I O)}
    (hin : ∀ p < N, ((g p).map (·.id)).Nodup)
    (hout : ∀ p < N, ∀ q < N, ∀ x ∈ g p, ∀ y ∈ g q, x.id = y.id → p = q) :
    (((List.range N).flatMap g).map (·.id)).Nodup := by
  rw [List.map_flatMap, List.nodup_flatMap]
  refine ⟨fun p hp => hin p (List.mem_range.mp hp), ?_⟩
  refine List.nodup_range.pairwise_of_forall_ne fun p hp q hq hne => ?_
  intro id hid hid'
  obtain ⟨x, hx, rfl⟩ := List.mem_map.mp hid
  obtain ⟨y, hy, hxy⟩ := List.mem_map.mp hid'
  exact hne (hout p (List.mem_range.mp hp) q (List.mem_range.mp hq) x hx y hy hxy.symm)

/-- Bucket by bucket the object passes through the states `σ 0`, `σ 1`, … -/
theorem legal_buckets {obj : SeqObject S I O} {g : ℕ → List (Operation K I O)} {σ : ℕ → S}
    (h : ∀ p < N, obj.Legal (σ p) (g p) ∧ obj.after (σ p) (g p) = σ (p + 1)) :
    obj.Legal (σ 0) ((List.range N).flatMap g) ∧
      obj.after (σ 0) ((List.range N).flatMap g) = σ N := by
  induction N with
  | zero => exact ⟨trivial, rfl⟩
  | succ N ih =>
    obtain ⟨h1, h2⟩ := ih fun p hp => h p (by omega)
    obtain ⟨h3, h4⟩ := h N (by omega)
    rw [buckets_succ, obj.legal_append, obj.after_append, h2]
    exact ⟨⟨h1, h3⟩, h4⟩

/-- **Real time**: the number seen at a return is not below the bucket, the number seen at a call
    is below it. -/
theorem order_of_buckets {g : ℕ → List (Operation K I O)} {H : List (ℕ × CallEvent K I O)}
    (hmono : H.Pairwise fun a b => a.1 ≤ b.1)
    (hcall : ∀ p < N, ∀ x ∈ g p, ∀ t input, (t, CallEvent.call x.id input) ∈ H → t < p)
    (hret : ∀ p < N, ∀ x ∈ g p, ∀ t output, (t, CallEvent.ret x.id output) ∈ H → p ≤ t) :
    ∀ x ∈ (List.range N).flatMap g, ∀ y ∈ (List.range N).flatMap g, ∀ output input,
      Before (H.map Prod.snd) (.ret x.id output) (.call y.id input) →
      Before ((List.range N).flatMap g) x y := by
  intro x hx y hy output input ⟨l₁, l₂, hH, hin⟩
  obtain ⟨p, hp, hxp⟩ := List.mem_flatMap.mp hx
  obtain ⟨q, hq, hyq⟩ := List.mem_flatMap.mp hy
  rw [List.mem_range] at hp hq
  -- the two events in the history with its numbers
  obtain ⟨h₁, h₂, rfl, rfl, h2⟩ := List.map_eq_append_iff.mp hH
  obtain ⟨⟨t, ev⟩, h₃, rfl, hev, rfl⟩ := List.map_eq_cons_iff.mp h2
  obtain rfl : ev = _ := hev
  obtain ⟨⟨t', ev'⟩, hmem, hev'⟩ := List.mem_map.mp hin
  obtain rfl : ev' = _ := hev'
  have hle : t ≤ t' := (List.pairwise_cons.mp (List.pairwise_append.mp hmono).2.1).1 _ hmem
  have h1 := hret p hp x hxp t output (by simp)
  have h2 := hcall q hq y hyq t' input
    (List.mem_append_right _ (List.mem_cons_of_mem _ hmem))
  exact before_buckets (by omega) hq hxp hyq

end Buckets

end Mit6824.Lib
