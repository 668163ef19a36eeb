/-
  File:      Mit6824/Lib/Locality.lean
  Subject:   LOCALITY: operations on many objects stand in one order if and only if the operations
             on each object do.

  An operation is a value of an arbitrary type that says all about it: input, output, the times of
  its call and its return. An object takes an operation in a state, or refuses it.

  * `Acceptor`, `Acceptor.run` -- an object, and a list of operations on it;
  * `InOrder call ret L` -- in `L` nothing stands behind an operation that was called after it had
    returned;
  * `Explained` -- the operations stand in an order that the object takes;
  * `Acceptor.keyed` -- one object for each key;
  * `explained_keyed_iff` -- **locality**. The orders of the objects are merged from the front: of
    all operations take the one that returned first; the first operation in the order of its
    object was called before anything left had returned.
-/
import Mathlib.Data.List.MinMax
import Mathlib.Data.List.Perm.Basic
import Mathlib.Logic.Function.Basic

namespace Mit6824.Lib

variable {S X K T : Type}

/-! ## 1. Objects and orders -/

/-- An object that takes an operation in a state, or refuses it. -/
structure Acceptor (S X : Type) where
  init : S
  step : S → X → Option S

def Acceptor.run (A : Acceptor S X) : S → List X → Option S
  | s, [] => some s
  | s, x :: L => (A.step s x).bind fun s' => A.run s' L

theorem Acceptor.run_append (A : Acceptor S X) (s : S) (L L' : List X) :
    A.run s (L ++ L') = (A.run s L).bind fun s' => A.run s' L' := by
  induction L generalizing s with
  | nil => rfl
  | cons x L ih =>
      simp only [List.cons_append, run, ih, Option.bind_assoc]

/-- In real-time order: nothing stands behind what was called after its return. -/
def InOrder [LT T] (call ret : X → T) (L : List X) : Prop := L.Pairwise fun x y => ¬ ret y < call x

/-- **The operations stand in an order that the object takes.** -/
def Explained [LT T] (A : Acceptor S X) (call ret : X → T) (s : S) (ops : List X) : Prop :=
  ∃ L, L.Perm ops ∧ InOrder call ret L ∧ (A.run s L).isSome = true

/-- An order under other names. -/
theorem pairwise_forall₂ {Y : Type} {R : X → Y → Prop} {P : X → X → Prop} {Q : Y → Y → Prop}
    {L : List X} {M : List Y} (h : List.Forall₂ R L M)
    (hPQ : ∀ x y x' y', R x y → R x' y' → (P x x' ↔ Q y y')) : L.Pairwise P ↔ M.Pairwise Q := by
  rw [List.pairwise_iff_getElem, List.pairwise_iff_getElem]
  have hlen := h.length_eq
  constructor
  · intro hL i j hi hj hij
    have hi' := hlen ▸ hi
    have hj' := hlen ▸ hj
    exact (hPQ _ _ _ _ (h.get hi' hi) (h.get hj' hj)).mp (hL i j hi' hj' hij)
  · intro hM i j hi hj hij
    have hi' := hlen ▸ hi
    have hj' := hlen ▸ hj
    exact (hPQ _ _ _ _ (h.get hi hi') (h.get hj hj')).mpr (hM i j hi' hj' hij)

/-- A run under other names. -/
theorem run_forall₂ {Y : Type} {R : X → Y → Prop} {A : Acceptor S X} {B : Acceptor S Y}
    (hstep : ∀ s x y, R x y → A.step s x = B.step s y) {L : List X} {M : List Y}
    (h : List.Forall₂ R L M) {s : S} : A.run s L = B.run s M := by
  induction h generalizing s with
  | nil => rfl
  | cons hxy _ ih => simp only [Acceptor.run, hstep s _ _ hxy, ih]

/-! ## 2. One object for each key -/

section Keyed

variable [DecidableEq K] (A : Acceptor S X) (key : X → K)

def Acceptor.keyed : Acceptor (K → S) X where
  init _ := A.init
  step σ x := (A.step (σ (key x)) x).map (Function.update σ (key x))

/-- What a list of operations does to the object of one key. -/
theorem keyed_run {σ σ' : K → S} {L : List X} (h : (A.keyed key).run σ L = some σ') (k : K) :
    A.run (σ k) (L.filter fun x => key x = k) = some (σ' k) := by
  induction L generalizing σ with
  | nil =>
      cases h
      rfl
  | cons x L ih =>
      rw [Acceptor.run] at h
      obtain ⟨τ, hτ, hrun⟩ := Option.bind_eq_some_iff.mp h
      obtain ⟨s, hs, rfl⟩ := Option.map_eq_some_iff.mp hτ
      have hrest := ih hrun
      by_cases hk : key x = k
      · subst hk
        rw [Function.update_self] at hrest
        rw [List.filter_cons_of_pos (by simp), Acceptor.run, hs]
        exact hrest
      · rw [Function.update_of_ne (Ne.symm hk)] at hrest
        rw [List.filter_cons_of_neg (by simpa using hk)]
        exact hrest

end Keyed

/-! ## 3. Locality -/

section Merge

variable [DecidableEq K] [LinearOrder T] {A : Acceptor S X} {key : X → K} {call ret : X → T}

/-- **Something can go first**: the operation at the head of the order of some object, before
    whose call nothing has returned. -/
theorem exists_first {σ : K → S} {ops : List X} (hne : ops ≠ [])
    (htime : ∀ x ∈ ops, call x ≤ ret x)
    (h : ∀ k, Explained A call ret (σ k) (ops.filter fun x => key x = k)) :
    ∃ x ∈ ops, (∀ y ∈ ops, ¬ ret y < call x) ∧ ∃ s, A.step (σ (key x)) x = some s ∧
      ∃ L, (x :: L).Perm (ops.filter fun y => key y = key x) ∧ InOrder call ret L ∧
        (A.run s L).isSome = true := by
  -- the operation that returned first
  obtain ⟨r, hr⟩ : ∃ r, ops.argmin ret = some r :=
    Option.ne_none_iff_exists'.mp fun hnone => hne (List.argmin_eq_none.mp hnone)
  have hmem : r ∈ ops := List.argmin_mem hr
  have hmin : ∀ y ∈ ops, ret r ≤ ret y := fun y hy => List.le_of_mem_argmin hy hr
  obtain ⟨L, hperm, hord, hrun⟩ := h (key r)
  have hrL : r ∈ L := hperm.mem_iff.mpr (List.mem_filter.mpr ⟨hmem, by simp⟩)
  cases L with
  | nil => cases hrL
  | cons x L =>
      obtain ⟨hx, hkey⟩ : x ∈ ops ∧ key x = key r := by
        simpa using hperm.mem_iff.mp List.mem_cons_self
      obtain ⟨hhead, htail⟩ := List.pairwise_cons.mp hord
      have hfirst : call x ≤ ret r := by
        rcases List.mem_cons.mp hrL with rfl | hr'
        · exact htime r hmem
        · exact not_lt.mp (hhead r hr')
      rw [Acceptor.run, Option.isSome_bind, Option.any_eq_true] at hrun
      obtain ⟨s, hs, hrun⟩ := hrun
      refine ⟨x, hx, fun y hy => not_lt.mpr (hfirst.trans (hmin y hy)), s, ?_, L, ?_, htail, hrun⟩
      · rw [hkey, hs]
      · rw [hkey]
        exact hperm

/-- The orders of the objects, merged. -/
theorem explained_keyed {σ : K → S} {ops : List X} (htime : ∀ x ∈ ops, call x ≤ ret x)
    (h : ∀ k, Explained A call ret (σ k) (ops.filter fun x => key x = k)) :
    Explained (A.keyed key) call ret σ ops := by
  -- induction on the number of operations that are left
  obtain ⟨N, hN⟩ : ∃ N, ops.length = N := ⟨_, rfl⟩
  induction N generalizing σ ops with
  | zero =>
      obtain rfl := List.length_eq_zero_iff.mp hN
      exact ⟨[], List.Perm.refl _, List.Pairwise.nil, rfl⟩
  | succ N ih =>
      have hne : ops ≠ [] := by
        rintro rfl
        cases hN
      obtain ⟨x, hx, hfirst, s, hs, L, hperm, hord, hrun⟩ := exists_first hne htime h
      obtain ⟨l₁, l₂, rfl⟩ := List.append_of_mem hx
      have hcons : (l₁ ++ x :: l₂).Perm (x :: (l₁ ++ l₂)) := List.perm_middle
      have htime' : ∀ y ∈ l₁ ++ l₂, call y ≤ ret y := fun y hy =>
        htime y (hcons.mem_iff.mpr (List.mem_cons_of_mem _ hy))
      have hlen : (l₁ ++ l₂).length = N := by
        have := hcons.length_eq
        rw [List.length_cons] at this
        omega
      -- the object of `x` has taken it, the others are as they were
      have hrest : ∀ k, Explained A call ret (Function.update σ (key x) s k)
          ((l₁ ++ l₂).filter fun y => key y = k) := by
        intro k
        have hfilter := hcons.filter fun y => decide (key y = k)
        by_cases hk : key x = k
        · subst hk
          rw [List.filter_cons_of_pos (by simp)] at hfilter
          refine ⟨L, (hperm.trans hfilter).cons_inv, hord, ?_⟩
          rw [Function.update_self]
          exact hrun
        · rw [List.filter_cons_of_neg (by simpa using hk)] at hfilter
          obtain ⟨L', hL', hrest⟩ := h k
          refine ⟨L', hL'.trans hfilter, ?_⟩
          rw [Function.update_of_ne (Ne.symm hk)]
          exact hrest
      obtain ⟨M, hM, hMord, hMrun⟩ := ih htime' hrest hlen
      refine ⟨x :: M, (hM.cons x).trans hcons.symm, List.pairwise_cons.mpr ⟨fun y hy => ?_, hMord⟩, ?_⟩
      · exact hfirst y (hcons.mem_iff.mpr (List.mem_cons_of_mem _ (hM.mem_iff.mp hy)))
      · have hstep : (A.keyed key).step σ x = some (Function.update σ (key x) s) := by
          show (A.step (σ (key x)) x).map _ = _
          rw [hs]
          rfl
        rw [Acceptor.run, hstep]
        exact hMrun

/-- **Locality.** -/
theorem explained_keyed_iff {σ : K → S} {ops : List X} (htime : ∀ x ∈ ops, call x ≤ ret x) :
    Explained (A.keyed key) call ret σ ops ↔
      ∀ k, Explained A call ret (σ k) (ops.filter fun x => key x = k) := by
  refine ⟨fun ⟨L, hperm, hord, hrun⟩ k => ?_, explained_keyed htime⟩
  obtain ⟨σ', hσ⟩ := Option.isSome_iff_exists.mp hrun
  refine ⟨L.filter fun x => key x = k, hperm.filter _, hord.filter _, ?_⟩
  rw [keyed_run A key hσ k]
  rfl

end Merge

end Mit6824.Lib
