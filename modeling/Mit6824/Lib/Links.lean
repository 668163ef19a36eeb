/-
  File:      Mit6824/Lib/Links.lean
  Subject:   DOUBLY LINKED LISTS out of which elements are taken and into which they are put back.

  An element that is taken out keeps its own two links; with them it finds its place again, as
  long as everything that was taken out after it has been put back before.

  * `Linked l a ps` -- from `a` on the list reads `ps`, in both directions;
  * `Linked.unlink` -- what it reads when an element is taken out;
  * `relink_unlink` -- putting back what was taken out last restores every link.
-/
import Mathlib.Data.List.Nodup
import Mathlib.Logic.Function.Basic

namespace Mit6824.Lib

variable {A : Type}

/-- The links of a memory. -/
structure Links (A : Type) where
  next : A → Option A
  prev : A → Option A

namespace Links

/-- **From `a` on the list reads `ps`.** -/
def Linked (l : Links A) : A → List A → Prop
  | a, [] => l.next a = none
  | a, b :: ps => l.next a = some b ∧ l.prev b = some a ∧ Linked l b ps

/-- The links around an element of the list. -/
theorem Linked.around {l : Links A} {a p : A} {xs ys : List A} (h : Linked l a (xs ++ p :: ys)) :
    (∃ y ∈ a :: xs, l.prev p = some y ∧ l.next y = some p) ∧ Linked l p ys := by
  induction xs generalizing a with
  | nil => exact ⟨⟨a, List.mem_cons_self, h.2.1, h.1⟩, h.2.2⟩
  | cons x xs ih =>
      obtain ⟨⟨y, hy, hp, hn⟩, hrest⟩ := ih h.2.2
      exact ⟨⟨y, List.mem_cons_of_mem _ hy, hp, hn⟩, hrest⟩

theorem Linked.head {l : Links A} {a : A} {ps : List A} (h : Linked l a ps) :
    l.next a = ps.head? := by
  cases ps with
  | nil => exact h
  | cons b ps => exact h.1

theorem Linked.head_prev {l : Links A} {a b : A} {ps : List A} (h : Linked l a ps)
    (hb : l.next a = some b) : l.prev b = some a ∧ b ∈ ps := by
  cases ps with
  | nil =>
      rw [show l.next a = none from h] at hb
      cases hb
  | cons c ps =>
      rw [h.1, Option.some.injEq] at hb
      subst hb
      exact ⟨h.2.1, List.mem_cons_self⟩

/-- The list only depends on the links it reads. -/
theorem Linked.frame {l l' : Links A} {a : A} {ps : List A} (h : Linked l a ps)
    (hn : ∀ x ∈ a :: ps, l'.next x = l.next x) (hp : ∀ x ∈ ps, l'.prev x = l.prev x) :
    Linked l' a ps := by
  induction ps generalizing a with
  | nil => exact (hn a List.mem_cons_self).trans h
  | cons b ps ih =>
      refine ⟨(hn a List.mem_cons_self).trans h.1, (hp b List.mem_cons_self).trans h.2.1, ?_⟩
      exact ih h.2.2 (fun x hx => hn x (List.mem_cons_of_mem _ hx))
        fun x hx => hp x (List.mem_cons_of_mem _ hx)

section Unlink

variable [DecidableEq A]

/-- Take `p` out: its neighbours point past it. -/
def unlink (l : Links A) (p : A) : Links A where
  next := match l.prev p with
    | some a => Function.update l.next a (l.next p)
    | none => l.next
  prev := match l.next p with
    | some b => Function.update l.prev b (l.prev p)
    | none => l.prev

/-- Put `p` back: its neighbours point to it. -/
def relink (l : Links A) (p : A) : Links A where
  next := match l.prev p with
    | some a => Function.update l.next a (some p)
    | none => l.next
  prev := match l.next p with
    | some b => Function.update l.prev b (some p)
    | none => l.prev

theorem unlink_next_of_ne {l : Links A} {p x : A} (h : l.prev p ≠ some x) :
    (l.unlink p).next x = l.next x := by
  cases ha : l.prev p with
  | none => simp only [unlink, ha]
  | some a =>
      simp only [unlink, ha]
      exact Function.update_of_ne (fun e => h (by rw [ha, e])) _ _

theorem unlink_prev_of_ne {l : Links A} {p x : A} (h : l.next p ≠ some x) :
    (l.unlink p).prev x = l.prev x := by
  cases hb : l.next p with
  | none => simp only [unlink, hb]
  | some b =>
      simp only [unlink, hb]
      exact Function.update_of_ne (fun e => h (by rw [hb, e])) _ _

/-- **What the list reads when `p` is taken out.** -/
theorem Linked.unlink {l : Links A} {a p : A} {xs ys : List A} (h : Linked l a (xs ++ p :: ys))
    (hnd : (a :: (xs ++ p :: ys)).Nodup) : Linked (l.unlink p) a (xs ++ ys) := by
  induction xs generalizing a with
  | nil =>
      obtain ⟨hnext, hprev, hrest⟩ := h
      have hself : (l.unlink p).next a = l.next p := by
        unfold Links.unlink
        rw [hprev]
        exact Function.update_self _ _ _
      cases ys with
      | nil => exact hself.trans hrest
      | cons b ys =>
          have hnot : a ∉ b :: ys := fun hm =>
            (List.nodup_cons.mp hnd).1 (List.mem_cons_of_mem _ hm)
          have hb : b ∉ ys := (List.nodup_cons.mp (List.nodup_cons.mp
            (List.nodup_cons.mp hnd).2).2).1
          refine ⟨hself.trans hrest.1, ?_, hrest.2.2.frame (fun x hx => ?_) fun x hx => ?_⟩
          · unfold Links.unlink
            rw [hrest.1, ← hprev]
            exact Function.update_self _ _ _
          · refine unlink_next_of_ne ?_
            rw [hprev]
            rintro ⟨rfl⟩
            exact hnot hx
          · refine unlink_prev_of_ne ?_
            rw [hrest.1]
            rintro ⟨rfl⟩
            exact hb hx
  | cons x xs ih =>
      obtain ⟨hnext, hprev, hrest⟩ := h
      obtain ⟨hnot, hnd'⟩ := List.nodup_cons.mp hnd
      obtain ⟨⟨y, hy, hpy, _⟩, hys⟩ := hrest.around
      refine ⟨?_, ?_, ih hrest hnd'⟩
      · -- what stands before `p` stands behind `a`
        rw [unlink_next_of_ne, hnext]
        rw [hpy]
        rintro ⟨rfl⟩
        refine hnot (List.mem_append_left _ ?_ : _ ∈ (x :: xs) ++ p :: ys)
        exact hy
      · rw [unlink_prev_of_ne, hprev]
        intro he
        have hmem := (hys.head_prev he).2
        refine (List.nodup_cons.mp hnd').1 ?_
        exact List.mem_append_right _ (List.mem_cons_of_mem _ hmem)

/-- What was taken out keeps its own links. -/
theorem unlink_self {l : Links A} {a p : A} {xs ys : List A} (h : Linked l a (xs ++ p :: ys))
    (hnd : (a :: (xs ++ p :: ys)).Nodup) :
    (l.unlink p).prev p = l.prev p ∧ (l.unlink p).next p = l.next p := by
  obtain ⟨⟨y, hy, hpy, _⟩, hys⟩ := h.around
  rw [← List.cons_append] at hnd
  have hsplit := List.nodup_append.mp hnd
  refine ⟨unlink_prev_of_ne fun he => ?_, unlink_next_of_ne ?_⟩
  · exact (List.nodup_cons.mp hsplit.2.1).1 (hys.head_prev he).2
  · rw [hpy]
    intro he
    exact hsplit.2.2 y hy p List.mem_cons_self (Option.some.inj he)

/-- **Putting back what was taken out last.** -/
theorem relink_unlink {l : Links A} {a p : A} {xs ys : List A} (h : Linked l a (xs ++ p :: ys))
    (hnd : (a :: (xs ++ p :: ys)).Nodup) : (l.unlink p).relink p = l := by
  obtain ⟨⟨y, _, hpy, hny⟩, hys⟩ := h.around
  obtain ⟨hprev, hnext⟩ := unlink_self h hnd
  rw [hpy] at hprev
  have hn : ((l.unlink p).relink p).next = l.next := by
    simp only [relink, hprev]
    simp only [unlink, hpy]
    rw [Function.update_idem, ← hny, Function.update_eq_self]
  have hpr : ((l.unlink p).relink p).prev = l.prev := by
    cases hb : l.next p with
    | none =>
        simp only [relink, hnext, hb]
        simp only [unlink, hb]
    | some b =>
        simp only [relink, hnext, hb]
        simp only [unlink, hb]
        rw [Function.update_idem, ← (hys.head_prev hb).1, Function.update_eq_self]
  calc (l.unlink p).relink p
      = ⟨((l.unlink p).relink p).next, ((l.unlink p).relink p).prev⟩ := rfl
    _ = l := by rw [hn, hpr]

end Unlink

end Links

end Mit6824.Lib
