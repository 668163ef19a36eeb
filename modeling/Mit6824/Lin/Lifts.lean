/-
  File:      Mit6824/Lin/Lifts.lean
  Subject:   UNLIFT UNDOES LIFT (linearizability/linearizability.go lines 51-79, 109-126, 142-165):
             any calls of the two in stack order, on any list `makeLinkedEntries` builds.

  The search of `checkSingle` is one such sequence; here the caller may lift any call that is in
  the list and undo the most recent lift at any time.

  * `Heap.chain` -- the nodes that following `next` meets;
  * `Lifts`, `Lifts.step`, `Lifts.allowed` -- the list, the lifts that are pending, and the calls;
  * `lifted_reach` -- the invariant: every pending pair has kept the links it had when it was
    taken out;
  * `unlift_undoes_lift` -- **what the list reads after each call**, and that nothing is different
    once all lifts are undone.
-/
import Mit6824.Lib.Runs
import Mit6824.Lin.Single

namespace Mit6824.Lin

open Lib

variable {I O : Type}

/-! ## 1. Lifts in stack order -/

/-- The nodes from `p` on, at most `fuel` of them. -/
def Heap.chain (h : Heap I O) : (fuel : Nat) → Option Nat → List Nat
  | 0, _ => []
  | _ + 1, none => []
  | fuel + 1, some p => p :: h.chain fuel (h.next p)

/-- `unlift` is called for the most recent `lift` that has not been undone. -/
inductive LiftCall where
  | lift (entry : Nat)
  | unlift
  deriving DecidableEq, Repr

/-- The list, the node in front of it, and the entries whose lift is pending, the last one first. -/
structure Lifts (I O : Type) where
  heap : Heap I O
  headEntry : Nat
  pending : List Nat

namespace Lifts

def start (entries : List (Entry I O)) : Lifts I O :=
  let (heap, root) := makeLinkedEntries entries
  let (heap, headEntry) := heap.withHead root
  ⟨heap, headEntry, []⟩

def step (s : Lifts I O) : LiftCall → Option (Lifts I O)
  | .lift entry => (s.heap.lift entry).map fun heap => { s with heap, pending := entry :: s.pending }
  | .unlift =>
      match s.pending with
      | [] => none
      | entry :: pending => (s.heap.unlift entry).map fun heap => { s with heap, pending }

/-- The nodes of the list. -/
def nodes (s : Lifts I O) : List Nat := s.heap.chain s.heap.size (s.heap.next s.headEntry)

/-- A call that is in the list may be lifted, and a pending lift undone. -/
def allowed (s : Lifts I O) : LiftCall → Bool
  | .lift entry => decide (entry ∈ s.nodes) && (s.heap.matching entry).isSome
  | .unlift => !s.pending.isEmpty

/-- The ids of the operations that are lifted. -/
def lifted (s : Lifts I O) : List Nat := s.pending.map s.heap.id

end Lifts

/-! ## 2. The invariant -/

theorem Heap.chain_eq {h : Heap I O} {a : Nat} {ps : List Nat} (hl : h.toLinks.Linked a ps)
    {fuel : Nat} (hf : ps.length < fuel) : h.chain fuel (h.next a) = ps := by
  induction ps generalizing a fuel with
  | nil =>
      obtain ⟨fuel, rfl⟩ := Nat.exists_eq_add_of_le' hf
      rw [show h.next a = none from hl]
      rfl
  | cons p ps ih =>
      obtain ⟨fuel, rfl⟩ := Nat.exists_eq_add_of_le' (Nat.one_le_of_lt hf)
      rw [hl.1, Heap.chain, ih hl.2.2 (by simpa using hf)]

theorem Lifted.size {S : Type} {h₀ h : Heap I O} {head : Nat} {ps : List Nat}
    {calls : List (CallsEntry S)} {path : List (Nat × S)} (hl : Lifted h₀ head ps calls path h) :
    h.size = h₀.size := by
  induction hl with
  | nil => rfl
  | cons _ _ _ _ _ _ _ _ _ _ _ _ _ ih => exact ih

/-- **The list is what it was at the start after the pending lifts**, and they can be undone one
    by one. -/
structure LiftInv (es : List (Entry I O)) (s : Lifts I O) : Prop where
  head : s.headEntry = (Lifts.start es).headEntry
  lifted : Lifted (Lifts.start es).heap es.length (List.range es.length).reverse
    (s.pending.map fun p => (⟨p, ()⟩ : CallsEntry Unit))
    (s.pending.map fun p => ((Lifts.start es).heap.id p, ())) s.heap

section Inv

variable {es : List (Entry I O)} {s s' : Lifts I O}

theorem start_headEntry (hes : (es.map Entry.mark).Nodup) :
    (Lifts.start es).headEntry = es.length := (makeLinkedEntries_length hes).1

namespace LiftInv

theorem gone_eq (h : LiftInv es s) :
    gone (s.pending.map fun p => ((Lifts.start es).heap.id p, ())) = s.lifted.toFinset := by
  unfold gone Lifts.lifted
  rw [List.map_map, h.lifted.fields.2.1]
  rfl

theorem linked (hes : (es.map Entry.mark).Nodup) (h : LiftInv es s) :
    s.heap.toLinks.Linked s.headEntry
      (left (Lifts.start es).heap (List.range es.length).reverse s.lifted.toFinset) := by
  rw [← h.gone_eq, h.head, start_headEntry hes]
  exact h.lifted.linked (strung_start hes).linked

/-- What following `next` meets. -/
theorem nodes_eq (hes : (es.map Entry.mark).Nodup) (h : LiftInv es s) :
    s.nodes = left (Lifts.start es).heap (List.range es.length).reverse s.lifted.toFinset := by
  refine Heap.chain_eq (h.linked hes) ?_
  rw [h.lifted.size, show (Lifts.start es).heap.size = es.length + 1 from (row_start hes).size]
  have := (List.filter_sublist (p := fun p => decide ((Lifts.start es).heap.id p ∉ s.lifted.toFinset))
    (l := (List.range es.length).reverse)).length_le
  rw [List.length_reverse, List.length_range] at this
  exact Nat.lt_succ_of_le this

/-- A call of the list can be lifted. -/
theorem lift (hes : (es.map Entry.mark).Nodup) (h : LiftInv es s) {p : Nat}
    (ha : s.allowed (.lift p) = true) :
    ∃ heap, s.heap.lift p = some heap ∧
      LiftInv es { s with heap, pending := p :: s.pending } := by
  simp only [Lifts.allowed, Bool.and_eq_true, decide_eq_true_eq] at ha
  obtain ⟨q, hq⟩ := Option.isSome_iff_exists.mp ha.2
  rw [h.lifted.fields.2.2] at hq
  have hmem := ha.1
  rw [h.nodes_eq hes, ← h.gone_eq] at hmem
  obtain ⟨heap, hheap, hl⟩ := h.lifted.push (strung_start hes) hmem hq ()
  exact ⟨heap, hheap, h.head, hl⟩

/-- The most recent lift can be undone, and what was there before it is there again. -/
theorem unlift (h : LiftInv es s) {p : Nat} {pending : List Nat} (hp : s.pending = p :: pending) :
    ∃ heap, s.heap.unlift p = some heap ∧ LiftInv es { s with heap, pending } := by
  have hl := h.lifted
  rw [hp, List.map_cons, List.map_cons] at hl
  obtain ⟨calls, heap, p', q, xs, ys, zs, hcalls, _, hback, hpair, _, hheap⟩ := hl.back
  rw [List.cons.injEq, CallsEntry.mk.injEq] at hcalls
  obtain ⟨⟨rfl, _⟩, rfl⟩ := hcalls
  exact ⟨heap, by rw [hheap]; exact hpair.unlift_eq, h.head, hback⟩

/-- **Every call that is allowed returns**, and keeps the invariant. -/
theorem step (hes : (es.map Entry.mark).Nodup) (h : LiftInv es s) {c : LiftCall}
    (ha : s.allowed c = true) : ∃ s', s.step c = some s' ∧ LiftInv es s' := by
  cases c with
  | lift p =>
      obtain ⟨heap, hheap, hinv⟩ := h.lift hes ha
      exact ⟨_, by rw [Lifts.step, hheap]; rfl, hinv⟩
  | unlift =>
      cases hp : s.pending with
      | nil => simp [Lifts.allowed, hp] at ha
      | cons p pending =>
          obtain ⟨heap, hheap, hinv⟩ := h.unlift hp
          exact ⟨_, by simp only [Lifts.step, hp, hheap, Option.map_some], hinv⟩

end LiftInv

/-- **The run lemma.** -/
theorem lifted_reach (hes : (es.map Entry.mark).Nodup)
    (h : Reach Lifts.step (fun s c => s.allowed c = true) (Lifts.start es) s) : LiftInv es s := by
  refine Reach.inv (I := LiftInv es) ⟨rfl, .nil⟩ (fun s c s' hI ha hs => ?_) h
  obtain ⟨s₁, hs₁, hI'⟩ := hI.step hes ha
  rw [hs₁, Option.some.injEq] at hs
  rwa [← hs]

/-- The nodes of the list at the start are the entries, in their order. -/
theorem map_start (hes : (es.map Entry.mark).Nodup) :
    (List.range es.length).reverse.map
      (fun p => ((Lifts.start es).heap.value p, (Lifts.start es).heap.id p)) =
        es.map fun e => (some e.value, e.id) := by
  have hall : (List.range es.length).map
      (fun p => ((Lifts.start es).heap.value p, (Lifts.start es).heap.id p)) =
        es.reverse.map fun e => (some e.value, e.id) := by
    refine List.ext_getElem (by simp) fun p h₁ h₂ => ?_
    rw [List.length_map] at h₂
    obtain ⟨hv, hid, _⟩ := node_start hes (List.getElem?_eq_getElem h₂)
    rw [List.getElem_map, List.getElem_map, List.getElem_range]
    exact Prod.ext hv hid
  rw [List.map_reverse, hall, List.map_reverse, List.reverse_reverse]

end Inv

/-! ## 3. What the list reads -/

/-- **`unlift` undoes `lift`.** After any calls in stack order, on any list in which no id has two
    calls or two returns: along the list behind the head `prev` is the inverse of `next`, and its
    nodes are those of the list at the start without the lifted operations, that is, the entries
    whose operation is not lifted, in their order. Once all lifts are undone every link is what it
    was at the start. And no further call that is allowed follows a `nil`. -/
theorem unlift_undoes_lift {es : List (Entry I O)} (hes : (es.map Entry.mark).Nodup)
    {s : Lifts I O}
    (h : Reach Lifts.step (fun s c => s.allowed c = true) (Lifts.start es) s) :
    s.heap.toLinks.Linked s.headEntry s.nodes ∧
    s.nodes = (Lifts.start es).nodes.filter (fun p => (Lifts.start es).heap.id p ∉ s.lifted) ∧
    s.nodes.map (fun p => (s.heap.value p, s.heap.id p)) =
      (es.filter fun e => e.id ∉ s.lifted).map (fun e => (some e.value, e.id)) ∧
    (s.pending = [] → s = Lifts.start es) ∧
    ∀ c, s.allowed c = true → ∃ s', s.step c = some s' := by
  have hI := lifted_reach hes h
  have hnodes := hI.nodes_eq hes
  have hleft : s.nodes =
      (List.range es.length).reverse.filter fun p => (Lifts.start es).heap.id p ∉ s.lifted := by
    rw [hnodes]
    unfold left
    simp only [List.mem_toFinset]
  have hstart : (Lifts.start es).nodes = (List.range es.length).reverse := by
    have h₀ : Reach Lifts.step (fun s c => s.allowed c = true) (Lifts.start es) (Lifts.start es) :=
      .start
    have hall := (lifted_reach hes h₀).nodes_eq hes
    simpa [left, Lifts.lifted, Lifts.start] using hall
  refine ⟨?_, ?_, ?_, fun hp => ?_, fun c ha => ?_⟩
  · rw [hnodes]
    exact hI.linked hes
  · rw [hstart]
    exact hleft
  · -- the filter looks at the id, which the pair shows
    have hmap := congrArg (List.filter fun x : Option (I ⊕ O) × Nat => x.2 ∉ s.lifted) (map_start hes)
    rw [List.filter_map, List.filter_map] at hmap
    rw [hleft, hI.lifted.fields.1, hI.lifted.fields.2.1]
    exact hmap
  · have hl := hI.lifted
    rw [hp] at hl
    obtain ⟨heap, headEntry, pending⟩ := s
    obtain rfl : pending = [] := hp
    obtain rfl : headEntry = _ := hI.head
    cases hl
    rfl
  · obtain ⟨s', hs, _⟩ := hI.step hes ha
    exact ⟨s', hs⟩

/-- Three operations: the return of the first is the last node, the second stands next to its own
    return. All are lifted, in an order of their own, and put back. -/
theorem unlift_undoes_lift_three : ∃ s : Lifts Unit Unit,
    Reach Lifts.step (fun s c => s.allowed c = true)
      (Lifts.start [⟨.inl (), 0, 1⟩, ⟨.inl (), 1, 2⟩, ⟨.inr (), 1, 3⟩, ⟨.inl (), 2, 4⟩,
        ⟨.inr (), 2, 5⟩, ⟨.inr (), 0, 6⟩]) s ∧
    s = Lifts.start [⟨.inl (), 0, 1⟩, ⟨.inl (), 1, 2⟩, ⟨.inr (), 1, 3⟩, ⟨.inl (), 2, 4⟩,
      ⟨.inr (), 2, 5⟩, ⟨.inr (), 0, 6⟩] := by
  have run : (exec Lifts.step Lifts.allowed
      (Lifts.start ([⟨.inl (), 0, 1⟩, ⟨.inl (), 1, 2⟩, ⟨.inr (), 1, 3⟩, ⟨.inl (), 2, 4⟩,
        ⟨.inr (), 2, 5⟩, ⟨.inr (), 0, 6⟩] : List (Entry Unit Unit)))
      [.lift 4, .lift 5, .unlift, .lift 2, .lift 5, .unlift, .unlift, .unlift]).any
        (fun s => decide (s.pending = [])) = true := by decide +kernel
  obtain ⟨s, hr, hp⟩ := exists_of_exec run
  exact ⟨s, hr, (unlift_undoes_lift (by decide) hr).2.2.2.1 (of_decide_eq_true hp)⟩

end Mit6824.Lin
