/-
  File:      Mit6824/Lin/Linked.lean
  Subject:   THE LINKED LIST OF CALLS AND RETURNS (linearizability/linearizability.go lines 16-21,
             51-79, 109-126, 147-165).

  The nodes live in a heap with one map for each field; a pointer is an address, `nil` is `none`,
  and following `nil` is Go's panic and `none` of the whole function. The value of a node is the
  input of a call or the output of a return.

  * `insertBefore`, `makeLinkedEntries`, `lift`, `unlift`, `length` -- as in the source;
  * `Built es h` -- the heap `makeLinkedEntries` leaves for the entries `es`;
  * `lift_eq`, `unlift_eq` -- taking the two nodes of an operation out, and putting them back;
  * `Strung`, `Layout` -- the list behind its head, with or without all operations complete.
-/
import Mathlib.Data.Int.Notation
import Mit6824.Lib.Backtrack
import Mit6824.Lib.Links
import Mit6824.Lib.TermLog

namespace Mit6824.Lin

open Lib

variable {I O : Type}

/-! ## 1. Entries and nodes -/

/-- The kind of an entry is the side its value is on: a call has an input, a return an output. -/
structure Entry (I O : Type) where
  value : I ⊕ O
  id : Nat
  time : Int
  deriving DecidableEq, Repr

/-- The nodes that have been made are those below `size`. `matching` is the field `match`. -/
structure Heap (I O : Type) extends Links Nat where
  size : Nat
  value : Nat → Option (I ⊕ O)
  matching : Nat → Option Nat
  id : Nat → Nat

namespace Heap

def empty : Heap I O := ⟨⟨fun _ => none, fun _ => none⟩, 0, fun _ => none, fun _ => none, fun _ => 0⟩

def setNext (h : Heap I O) (p : Nat) (q : Option Nat) : Heap I O :=
  { h with next := Function.update h.next p q }

def setPrev (h : Heap I O) (p : Nat) (q : Option Nat) : Heap I O :=
  { h with prev := Function.update h.prev p q }

/-- `&node{…}`: a new node, without neighbours. -/
def new (h : Heap I O) (value : Option (I ⊕ O)) (matching : Option Nat) (id : Nat) : Heap I O × Nat :=
  ({ next := Function.update h.next h.size none
     prev := Function.update h.prev h.size none
     size := h.size + 1
     value := Function.update h.value h.size value
     matching := Function.update h.matching h.size matching
     id := Function.update h.id h.size id }, h.size)

/-- It returns `n`, so only the heap is new. -/
def insertBefore (h : Heap I O) (n : Nat) (mark : Option Nat) : Heap I O :=
  match mark with
  | none => h
  | some mark =>
      let beforeMark := h.prev mark
      let h := (h.setPrev mark (some n)).setNext n (some mark)
      match beforeMark with
      | none => h
      | some beforeMark => (h.setPrev n (some beforeMark)).setNext beforeMark (some n)

/-- `fuel` is the number of nodes; a list that does not end is `none`. -/
def length (h : Heap I O) : (fuel : Nat) → Option Nat → Option Nat
  | _, none => some 0
  | 0, some _ => none
  | fuel + 1, some n => (length h fuel (h.next n)).map (· + 1)

def lift (h : Heap I O) (entry : Nat) : Option (Heap I O) := do
  let h := h.setNext (← h.prev entry) (h.next entry)
  let h := h.setPrev (← h.next entry) (h.prev entry)
  let matching ← h.matching entry
  let h := h.setNext (← h.prev matching) (h.next matching)
  match h.next matching with
  | none => some h
  | some next => some (h.setPrev next (h.prev matching))

def unlift (h : Heap I O) (entry : Nat) : Option (Heap I O) := do
  let matching ← h.matching entry
  let h := h.setNext (← h.prev matching) (some matching)
  let h := match h.next matching with
    | none => h
    | some next => h.setPrev next (some matching)
  let h := h.setNext (← h.prev entry) (some entry)
  let h := h.setPrev (← h.next entry) (some entry)
  some h

end Heap

/-- The loop of `makeLinkedEntries`: the heap, the root, and the map `match`. -/
structure Linking (I O : Type) where
  heap : Heap I O
  root : Option Nat
  matched : Nat → Option Nat

/-- One round of the loop, which goes from the last entry to the first. -/
def linkEntry (elem : Entry I O) (l : Linking I O) : Linking I O :=
  match elem.value with
  | .inr _ =>
      let (heap, entry) := l.heap.new (some elem.value) none elem.id
      ⟨heap.insertBefore entry l.root, some entry, Function.update l.matched elem.id (some entry)⟩
  | .inl _ =>
      let (heap, entry) := l.heap.new (some elem.value) (l.matched elem.id) elem.id
      ⟨heap.insertBefore entry l.root, some entry, l.matched⟩

def makeLinkedEntries (entries : List (Entry I O)) : Heap I O × Option Nat :=
  let l := entries.foldr linkEntry ⟨Heap.empty, none, fun _ => none⟩
  (l.heap, l.root)

/-! ## 2. What it builds

The node of the last entry is made first, so addresses fall along the list. -/

/-- The links of `k` nodes in a row, the last one made in front. -/
structure Row (h : Heap I O) (k : Nat) : Prop where
  size : h.size = k
  next : ∀ p, h.next p = if 0 < p ∧ p < k then some (p - 1) else none
  prev : ∀ p, h.prev p = if p + 1 < k then some (p + 1) else none

theorem row_empty : Row (Heap.empty : Heap I O) 0 where
  size := rfl
  next p := by simp [Heap.empty]
  prev p := by simp [Heap.empty]

/-- A new node in front of the row. -/
theorem Row.insert {h : Heap I O} {k : Nat} (hr : Row h k) (value : Option (I ⊕ O))
    (matching : Option Nat) (id : Nat) :
    Row ((h.new value matching id).1.insertBefore k (if k = 0 then none else some (k - 1)))
      (k + 1) := by
  obtain ⟨hsize, hnext, hprev⟩ := hr
  cases k with
  | zero =>
      refine ⟨by simp [Heap.insertBefore, Heap.new, hsize], fun p => ?_, fun p => ?_⟩
      · simp [Heap.insertBefore, Heap.new, Function.update_apply, hnext]
        omega
      · simp [Heap.insertBefore, Heap.new, Function.update_apply, hprev]
  | succ k =>
      -- the node in front had nothing before it
      have hbefore : (h.new value matching id).1.prev k = none := by
        simp [Heap.new, hprev, hsize]
      have hins : (h.new value matching id).1.insertBefore (k + 1) (some k) =
          (((h.new value matching id).1.setPrev k (some (k + 1))).setNext (k + 1) (some k)) := by
        simp only [Heap.insertBefore, hbefore]
      rw [if_neg (by omega), Nat.add_sub_cancel, hins]
      refine ⟨by simp [Heap.setNext, Heap.setPrev, Heap.new, hsize], fun p => ?_, fun p => ?_⟩
      · simp only [Heap.setNext, Heap.setPrev, Heap.new, Function.update_apply, hnext, hsize]
        split_ifs <;> simp_all <;> omega
      · simp only [Heap.setNext, Heap.setPrev, Heap.new, Function.update_apply, hprev, hsize]
        split_ifs <;> simp_all <;> omega

/-- From any node on the row runs down to 0. -/
theorem Row.linked {h : Heap I O} {k : Nat} (hr : Row h k) {p : Nat} (hp : p < k) :
    h.toLinks.Linked p (List.range p).reverse := by
  induction p with
  | zero => exact (hr.next 0).trans (if_neg (by omega))
  | succ p ih =>
      rw [List.range_succ, List.reverse_append]
      refine ⟨(hr.next _).trans (if_pos (by omega)), (hr.prev p).trans (if_pos hp), ih (by omega)⟩

/-- Its length, counted. -/
theorem Row.length {h : Heap I O} {k : Nat} (hr : Row h k) {p : Nat} (hp : p < k) {fuel : Nat}
    (hf : p < fuel) : h.length fuel (some p) = some (p + 1) := by
  induction p generalizing fuel with
  | zero =>
      obtain ⟨fuel, rfl⟩ := Nat.exists_eq_add_of_le' hf
      rw [Heap.length, hr.next, if_neg (by omega)]
      cases fuel <;> rfl
  | succ p ih =>
      obtain ⟨fuel, rfl⟩ := Nat.exists_eq_add_of_le' (Nat.one_le_of_lt hf)
      rw [Heap.length, hr.next, if_pos (by omega), Nat.add_sub_cancel, ih (by omega) (by omega)]
      rfl

/-- No id has two returns. -/
def ReturnsOnce (rs : List (Entry I O)) : Prop :=
  ∀ (p q : Nat) (e f : Entry I O), rs[p]? = some e → rs[q]? = some f → e.value.isRight = true →
    f.value.isRight = true → e.id = f.id → p = q

theorem ReturnsOnce.of_append {rs rs' : List (Entry I O)} (h : ReturnsOnce (rs ++ rs')) :
    ReturnsOnce rs := by
  intro p q e f he hf
  have hpre : rs <+: rs ++ rs' := List.prefix_append _ _
  exact h p q e f (get_of_begins hpre he) (get_of_begins hpre hf)

/-- **The heap for the entries `rs`, last entry first**: node `p` is entry `p`. -/
structure Built (rs : List (Entry I O)) (l : Linking I O) : Prop where
  row : Row l.heap rs.length
  root : l.root = if rs.length = 0 then none else some (rs.length - 1)
  value : ∀ (p : Nat) (e : Entry I O), rs[p]? = some e → l.heap.value p = some e.value
  id : ∀ (p : Nat) (e : Entry I O), rs[p]? = some e → l.heap.id p = e.id
  ret : ∀ (p : Nat) (e : Entry I O), rs[p]? = some e → e.value.isRight = true →
    l.heap.matching p = none
  call : ∀ (p q : Nat) (e f : Entry I O), rs[p]? = some e → rs[q]? = some f →
    e.value.isRight = false → f.value.isRight = true → f.id = e.id → q < p →
      l.heap.matching p = some q
  matched : ∀ (q : Nat) (f : Entry I O), rs[q]? = some f → f.value.isRight = true →
    l.matched f.id = some q

theorem built_nil : Built ([] : List (Entry I O)) ⟨Heap.empty, none, fun _ => none⟩ where
  row := row_empty
  root := rfl
  value := by simp
  id := by simp
  ret := by simp
  call := by simp
  matched := by simp

/-- `insertBefore` only touches links. -/
theorem insertBefore_fields (h : Heap I O) (n : Nat) (mark : Option Nat) :
    (h.insertBefore n mark).value = h.value ∧ (h.insertBefore n mark).id = h.id ∧
      (h.insertBefore n mark).matching = h.matching := by
  unfold Heap.insertBefore
  split
  · exact ⟨rfl, rfl, rfl⟩
  · dsimp only
    split <;> exact ⟨rfl, rfl, rfl⟩

/-- The node that a round makes, whatever its entry. -/
theorem linkEntry_eq (e : Entry I O) (l : Linking I O) :
    (linkEntry e l).heap = (l.heap.new (some e.value)
        (if e.value.isRight then none else l.matched e.id) e.id).1.insertBefore l.heap.size l.root ∧
      (linkEntry e l).root = some l.heap.size ∧
      (linkEntry e l).matched =
        if e.value.isRight then Function.update l.matched e.id (some l.heap.size) else l.matched := by
  unfold linkEntry
  split
  · rename_i o ho
    simp [ho, Heap.new]
  · rename_i i hi
    simp [hi, Heap.new]

/-- Its fields; the other nodes keep theirs. -/
theorem linkEntry_fields (e : Entry I O) (l : Linking I O) :
    (linkEntry e l).heap.value = Function.update l.heap.value l.heap.size (some e.value) ∧
      (linkEntry e l).heap.id = Function.update l.heap.id l.heap.size e.id ∧
      (linkEntry e l).heap.matching = Function.update l.heap.matching l.heap.size
        (if e.value.isRight then none else l.matched e.id) := by
  rw [(linkEntry_eq e l).1]
  exact insertBefore_fields _ _ _

/-- A round of the loop. -/
theorem Built.step {rs : List (Entry I O)} {l : Linking I O} (h : Built rs l) {e : Entry I O}
    (hu : ReturnsOnce (rs ++ [e])) : Built (rs ++ [e]) (linkEntry e l) := by
  obtain ⟨hheap, hroot, hmatched⟩ := linkEntry_eq e l
  obtain ⟨hv, hid, hm⟩ := linkEntry_fields e l
  rw [h.row.size] at hroot hmatched hv hid hm
  have hne : ∀ {q : Nat} {f : Entry I O}, rs[q]? = some f → q ≠ rs.length :=
    fun hq => Nat.ne_of_lt (List.getElem?_eq_some_iff.mp hq).1
  refine ⟨?_, ?_, fun p f hf => ?_, fun p f hf => ?_, fun p f hf hr => ?_,
    fun p q f g hf hg hfr hgr hfg hqp => ?_, fun q f hf hr => ?_⟩
  · rw [hheap, h.root, h.row.size, List.length_append, List.length_singleton]
    exact h.row.insert _ _ _
  · rw [hroot]
    simp
  · rw [hv]
    rcases get_concat hf with hf | ⟨rfl, rfl⟩
    · rw [Function.update_of_ne (hne hf), h.value p f hf]
    · rw [Function.update_self]
  · rw [hid]
    rcases get_concat hf with hf | ⟨rfl, rfl⟩
    · rw [Function.update_of_ne (hne hf), h.id p f hf]
    · rw [Function.update_self]
  · rw [hm]
    rcases get_concat hf with hf | ⟨rfl, rfl⟩
    · rw [Function.update_of_ne (hne hf), h.ret p f hf hr]
    · rw [Function.update_self, if_pos hr]
  · rw [hm]
    have hp := (List.getElem?_eq_some_iff.mp hf).1
    rw [List.length_append, List.length_singleton] at hp
    have hg' : rs[q]? = some g := (get_concat hg).resolve_right fun hlast => by omega
    rcases get_concat hf with hf | ⟨rfl, rfl⟩
    · rw [Function.update_of_ne (hne hf), h.call p q f g hf hg' hfr hgr hfg hqp]
    · -- the call of an operation whose return is already there
      rw [Function.update_self, hfr, if_neg Bool.false_ne_true, ← hfg, h.matched q g hg' hgr]
  · rw [hmatched]
    rcases get_concat hf with hf | ⟨rfl, rfl⟩
    · split
      · rename_i her
        rw [Function.update_of_ne, h.matched q f hf hr]
        intro heq
        exact hne hf (hu q rs.length f e (get_of_begins (List.prefix_append _ _) hf)
          List.getElem?_concat_length hr her heq)
      · exact h.matched q f hf hr
    · rw [if_pos hr, Function.update_self]

/-- **What `makeLinkedEntries` builds.** -/
theorem built_makeLinkedEntries {es : List (Entry I O)} (hu : ReturnsOnce es.reverse) :
    Built es.reverse (es.foldr linkEntry ⟨Heap.empty, none, fun _ => none⟩) := by
  induction es with
  | nil => exact built_nil
  | cons e es ih =>
      rw [List.reverse_cons] at hu ⊢
      exact (ih hu.of_append).step hu

/-- Entry `q` is a return of `x`. -/
def ReturnOf (rs : List (Entry I O)) (x q : Nat) : Prop :=
  ∃ f, rs[q]? = some f ∧ f.value.isRight = true ∧ f.id = x

theorem ReturnOf.concat {rs : List (Entry I O)} {x q : Nat} (h : ReturnOf rs x q) (e : Entry I O) :
    ReturnOf (rs ++ [e]) x q := by
  obtain ⟨f, hf, hrest⟩ := h
  exact ⟨f, get_of_begins (List.prefix_append _ _) hf, hrest⟩

section Round

variable {rs : List (Entry I O)} {l : Linking I O} {e : Entry I O} (hsize : l.heap.size = rs.length)
  (hnoted : ∀ x q, l.matched x = some q → ReturnOf rs x q)
include hsize hnoted

/-- A round notes a return under its id. -/
theorem noted_step {x q : Nat} (hq : (linkEntry e l).matched x = some q) :
    ReturnOf (rs ++ [e]) x q := by
  rw [(linkEntry_eq e l).2.2, hsize] at hq
  split at hq
  · rename_i her
    by_cases hx : x = e.id
    · subst hx
      rw [Function.update_self, Option.some.injEq] at hq
      subst hq
      exact ⟨e, List.getElem?_concat_length, her, rfl⟩
    · rw [Function.update_of_ne hx] at hq
      exact (hnoted x q hq).concat e
  · exact (hnoted x q hq).concat e

/-- The `match` of the new node is what was noted under its id. -/
theorem matching_step {p q : Nat} (hp : p = rs.length)
    (hq : (linkEntry e l).heap.matching p = some q) :
    q < p ∧ e.value.isRight = false ∧ ReturnOf rs e.id q := by
  rw [(linkEntry_fields e l).2.2, hsize, hp, Function.update_self] at hq
  split at hq
  · cases hq
  · rename_i her
    obtain ⟨f, hf, hrest⟩ := hnoted e.id q hq
    exact ⟨by rw [hp]; exact (List.getElem?_eq_some_iff.mp hf).1, by simpa using her, f, hf, hrest⟩

end Round

/-- **A `match` leads from a call to a return of the same id**, whose node was made before. -/
theorem matching_inv {es : List (Entry I O)} (hu : ReturnsOnce es.reverse) :
    (∀ x q, (es.foldr linkEntry ⟨Heap.empty, none, fun _ => none⟩).matched x = some q →
      ReturnOf es.reverse x q) ∧
    ∀ p q, (es.foldr linkEntry ⟨Heap.empty, none, fun _ => none⟩).heap.matching p = some q →
      ∃ e, es.reverse[p]? = some e ∧ q < p ∧ e.value.isRight = false ∧
        ReturnOf es.reverse e.id q := by
  induction es with
  | nil =>
      refine ⟨fun x q h => ?_, fun p q h => ?_⟩
      · cases h
      · cases h
  | cons e es ih =>
      rw [List.reverse_cons] at hu ⊢
      obtain ⟨ihm, ihp⟩ := ih hu.of_append
      have hsize := (built_makeLinkedEntries hu.of_append).row.size
      refine ⟨fun x q hq => noted_step hsize ihm hq, fun p q hq => ?_⟩
      by_cases hp : p = es.reverse.length
      · obtain ⟨hqp, hc, hret⟩ := matching_step hsize ihm hp hq
        exact ⟨e, by rw [hp]; exact List.getElem?_concat_length, hqp, hc, hret.concat e⟩
      · rw [List.foldr_cons, (linkEntry_fields e _).2.2, hsize, Function.update_of_ne hp] at hq
        obtain ⟨x, hx, hqp, hxr, hret⟩ := ihp p q hq
        exact ⟨x, get_of_begins (List.prefix_append _ _) hx, hqp, hxr, hret.concat e⟩

/-! ## 3. Lifting an operation -/

namespace Heap

variable {h : Heap I O} {head p q : Nat} {xs ys zs : List Nat}

/-- The two assignments that take a node out. -/
theorem unlink_eq {a : Nat} (hp : h.prev p = some a) (hne : a ≠ p) :
    (match (h.setNext a (h.next p)).next p with
      | none => h.setNext a (h.next p)
      | some b => (h.setNext a (h.next p)).setPrev b ((h.setNext a (h.next p)).prev p)) =
      { h with toLinks := h.toLinks.unlink p } := by
  have hnext : (h.setNext a (h.next p)).next p = h.next p := Function.update_of_ne (Ne.symm hne) _ _
  rw [hnext]
  cases hn : h.next p with
  | none => simp [setNext, Links.unlink, hp, hn]
  | some b => simp [setNext, setPrev, Links.unlink, hp, hn]

/-- The two assignments that put it back. -/
theorem relink_eq {a : Nat} (hp : h.prev p = some a) (hne : a ≠ p) :
    (match (h.setNext a (some p)).next p with
      | none => h.setNext a (some p)
      | some b => (h.setNext a (some p)).setPrev b (some p)) =
      { h with toLinks := h.toLinks.relink p } := by
  have hnext : (h.setNext a (some p)).next p = h.next p := Function.update_of_ne (Ne.symm hne) _ _
  rw [hnext]
  cases hn : h.next p with
  | none => simp [setNext, Links.relink, hp, hn]
  | some b => simp [setNext, setPrev, Links.relink, hp, hn]

/-- A call and its return in the list. -/
structure Pair (h : Heap I O) (head p q : Nat) (xs ys zs : List Nat) : Prop where
  linked : h.toLinks.Linked head (xs ++ p :: (ys ++ q :: zs))
  nodup : (head :: (xs ++ p :: (ys ++ q :: zs))).Nodup
  matching : h.matching p = some q

namespace Pair

/-- The call has neighbours on both sides. -/
theorem around (hp : Pair h head p q xs ys zs) :
    ∃ a b, h.prev p = some a ∧ a ≠ p ∧ h.next p = some b := by
  obtain ⟨⟨a, ha, hprev, _⟩, hrest⟩ := hp.linked.around
  have hnd := hp.nodup
  rw [← List.cons_append] at hnd
  have hne : a ≠ p := fun e => (List.nodup_append.mp hnd).2.2 a ha p List.mem_cons_self e
  have hhead := hrest.head
  cases ys with
  | nil => exact ⟨a, q, hprev, hne, hhead⟩
  | cons y ys => exact ⟨a, y, hprev, hne, hhead⟩

/-- Without the call: the list, in which the return still stands. -/
theorem unlinked (hp : Pair h head p q xs ys zs) :
    (h.toLinks.unlink p).Linked head ((xs ++ ys) ++ q :: zs) ∧
      (head :: ((xs ++ ys) ++ q :: zs)).Nodup := by
  have hl := hp.linked.unlink hp.nodup
  rw [← List.append_assoc] at hl
  refine ⟨hl, hp.nodup.sublist ?_⟩
  rw [List.append_assoc]
  exact ((List.Sublist.refl xs).append (List.sublist_cons_self p _)).cons_cons head

theorem prev_return (hp : Pair h head p q xs ys zs) :
    ∃ d, (h.toLinks.unlink p).prev q = some d ∧ d ≠ q := by
  obtain ⟨hl, hnd⟩ := hp.unlinked
  obtain ⟨⟨d, hd, hprev, _⟩, _⟩ := hl.around
  rw [← List.cons_append] at hnd
  exact ⟨d, hprev, fun e => (List.nodup_append.mp hnd).2.2 d hd q List.mem_cons_self e⟩

/-- **`lift` takes the call and the return out.** -/
theorem lift_eq (hp : Pair h head p q xs ys zs) :
    h.lift p = some { h with toLinks := (h.toLinks.unlink p).unlink q } := by
  obtain ⟨a, b, hprev, hne, hnext⟩ := hp.around
  obtain ⟨d, hd, hdq⟩ := hp.prev_return
  have h1 := unlink_eq hprev hne
  have hn1 : (h.setNext a (h.next p)).next p = some b :=
    (Function.update_of_ne (Ne.symm hne) _ _).trans hnext
  rw [hn1] at h1
  dsimp only at h1
  have h2 := unlink_eq (h := { h with toLinks := h.toLinks.unlink p }) hd hdq
  unfold lift
  simp only [Option.bind_eq_bind, hprev, Option.bind_some, hn1, h1, hp.matching, hd]
  rw [← h2]
  split <;> rename_i hn <;> simp only [hn]

/-- **`unlift` puts them back.** -/
theorem unlift_eq (hp : Pair h head p q xs ys zs) :
    unlift { h with toLinks := (h.toLinks.unlink p).unlink q } p = some h := by
  obtain ⟨a, b, hprev, hne, hnext⟩ := hp.around
  obtain ⟨hl, hnd⟩ := hp.unlinked
  obtain ⟨d, hd, hdq⟩ := hp.prev_return
  -- the two nodes have kept their own links
  have hq : ((h.toLinks.unlink p).unlink q).prev q = some d := (Links.unlink_self hl hnd).1.trans hd
  have hpp : (h.toLinks.unlink p).prev p = some a :=
    (Links.unlink_self hp.linked hp.nodup).1.trans hprev
  have hpn : (h.toLinks.unlink p).next p = some b :=
    (Links.unlink_self hp.linked hp.nodup).2.trans hnext
  have h1 := relink_eq (h := { h with toLinks := (h.toLinks.unlink p).unlink q }) hq hdq
  dsimp only at h1
  rw [Links.relink_unlink hl hnd] at h1
  have h2 := relink_eq (h := { h with toLinks := h.toLinks.unlink p }) hpp hne
  dsimp only at h2
  rw [Links.relink_unlink hp.linked hp.nodup] at h2
  unfold unlift
  simp only [Option.bind_eq_bind, hp.matching, Option.bind_some, hq]
  have hn2 : ({ h with toLinks := h.toLinks.unlink p }.setNext a (some p)).next p = some b :=
    (Function.update_of_ne (Ne.symm hne) _ _).trans hpn
  rw [hn2] at h2
  dsimp only at h2
  rw [h1]
  simp only [hpp, Option.bind_some, hn2, h2]

end Pair

end Heap

/-! ## 4. The list with its head -/

/-- Call or return of an operation. -/
def Entry.mark (e : Entry I O) : Mark :=
  match e.value with
  | .inl _ => .call e.id
  | .inr _ => .ret e.id

/-- A node with a `match` is a call. -/
def Heap.markOf (h : Heap I O) (p : Nat) : Mark :=
  if (h.matching p).isSome then .call (h.id p) else .ret (h.id p)

/-- **The nodes `ps` behind `head` are the entries `es`**, and `match` leads from a call to the
    return of its operation. -/
structure Layout (h : Heap I O) (head : Nat) (ps : List Nat) (es : List (Entry I O)) : Prop where
  nodup : (head :: ps).Nodup
  linked : h.toLinks.Linked head ps
  marks : ps.map h.markOf = es.map Entry.mark
  value : ∀ p ∈ ps, ∃ e ∈ es, h.markOf p = e.mark ∧ h.value p = some e.value
  matching : ∀ p ∈ ps, ∀ q, h.matching p = some q → Before ps p q ∧ h.markOf q = .ret (h.id p)

/-- `^uint(0)`, the id of the node in front of the list. -/
def headId : Nat := 0xFFFFFFFFFFFFFFFF

/-- The node a search puts in front. -/
def Heap.withHead (h : Heap I O) (subhistory : Option Nat) : Heap I O × Nat :=
  let (h, headEntry) := h.new none none headId
  (h.insertBefore headEntry subhistory, headEntry)

theorem nodup_marks_reverse {es : List (Entry I O)} (h : (es.map Entry.mark).Nodup) :
    (es.reverse.map Entry.mark).Nodup := by
  rw [List.map_reverse]
  exact List.nodup_reverse.mpr h

theorem returnsOnce_reverse {es : List (Entry I O)} (h : (es.map Entry.mark).Nodup) :
    ReturnsOnce es.reverse := by
  have hnd := nodup_marks_reverse h
  intro p q e f he hf her hfr hid
  have hmark : e.mark = f.mark := by
    obtain ⟨o, ho⟩ := Sum.isRight_iff.mp her
    obtain ⟨o', ho'⟩ := Sum.isRight_iff.mp hfr
    simp only [Entry.mark, ho, ho', hid]
  have hp : p < (es.reverse.map Entry.mark).length := by
    rw [List.length_map]
    exact (List.getElem?_eq_some_iff.mp he).1
  refine (List.getElem?_inj hp hnd).mp ?_
  rw [List.getElem?_map, List.getElem?_map, he, hf, Option.map_some, Option.map_some, hmark]

/-- What stands before the element at `p` stands at a smaller position. -/
theorem exists_lt_of_before {α : Type} {L : List α} {x y : α} (h : Before L x y) (hnd : L.Nodup)
    {p : Nat} (hp : L[p]? = some y) : ∃ q < p, L[q]? = some x := by
  obtain ⟨hlt, hy⟩ := List.getElem?_eq_some_iff.mp hp
  have hsplit : L = L.take p ++ y :: L.drop (p + 1) := by
    rw [← hy, ← List.drop_eq_getElem_cons hlt, List.take_append_drop]
  rw [hsplit] at h hnd
  obtain ⟨q, hq⟩ := List.mem_iff_getElem?.mp (h.mem_left hnd)
  have hqp : q < p := by
    have := (List.getElem?_eq_some_iff.mp hq).1
    rw [List.length_take] at this
    omega
  exact ⟨q, hqp, by rwa [List.getElem?_take_of_lt hqp] at hq⟩

theorem Entry.mark_id (e : Entry I O) : e.mark.id = e.id := by
  unfold Entry.mark
  split <;> rfl

theorem Entry.mark_call {e : Entry I O} (h : e.value.isRight = false) : e.mark = .call e.id := by
  obtain ⟨i, hi⟩ := Sum.isLeft_iff.mp (by simpa using h)
  simp only [Entry.mark, hi]

theorem Entry.mark_ret {e : Entry I O} (h : e.value.isRight = true) : e.mark = .ret e.id := by
  obtain ⟨o, ho⟩ := Sum.isRight_iff.mp h
  simp only [Entry.mark, ho]

theorem Entry.call_of_mark {e : Entry I O} {x : Nat} (h : e.mark = .call x) :
    e.id = x ∧ ∃ i, e.value = .inl i := by
  unfold Entry.mark at h
  split at h
  · rename_i i hi
    exact ⟨Mark.call.inj h, i, hi⟩
  · cases h

theorem Entry.ret_of_mark {e : Entry I O} {x : Nat} (h : e.mark = .ret x) :
    e.id = x ∧ ∃ o, e.value = .inr o := by
  unfold Entry.mark at h
  split at h
  · cases h
  · rename_i o ho
    exact ⟨Mark.ret.inj h, o, ho⟩

/-- The node of a call leads to the node of the return, which was made before. -/
theorem Built.return_of_call {es : List (Entry I O)} {l : Linking I O} (hb : Built es.reverse l)
    (h : Paired (es.map Entry.mark)) {p : Nat} {e : Entry I O} (he : es.reverse[p]? = some e)
    (hc : e.value.isRight = false) : ∃ q f, q < p ∧ es.reverse[q]? = some f ∧
      f.value.isRight = true ∧ f.id = e.id ∧ l.heap.matching p = some q := by
  have hnd := nodup_marks_reverse h.nodup
  have hmem : e ∈ es := List.mem_reverse.mp (List.mem_of_getElem? he)
  have hord := (h.order e.mark (List.mem_map_of_mem hmem)).reverse
  rw [← List.map_reverse, Entry.mark_call hc] at hord
  obtain ⟨q, hqp, hq⟩ := exists_lt_of_before hord hnd (p := p) (by
    rw [List.getElem?_map, he, Option.map_some, Entry.mark_call hc]
    rfl)
  rw [List.getElem?_map] at hq
  obtain ⟨f, hf, hmark⟩ := Option.map_eq_some_iff.mp hq
  obtain ⟨hid, o, ho⟩ := Entry.ret_of_mark hmark
  have hfr : f.value.isRight = true := by rw [ho]; rfl
  exact ⟨q, f, hqp, hf, hfr, hid, hb.call p q e f he hf hc hfr hid hqp⟩

theorem makeLinkedEntries_length {es : List (Entry I O)} (h : (es.map Entry.mark).Nodup) :
    (makeLinkedEntries es).1.size = es.length ∧
      (makeLinkedEntries es).2 = (List.range es.length).reverse.head? ∧
      (makeLinkedEntries es).1.length (makeLinkedEntries es).1.size (makeLinkedEntries es).2 =
        some es.length := by
  have hb := built_makeLinkedEntries (returnsOnce_reverse h)
  have hsize : (makeLinkedEntries es).1.size = es.length := hb.row.size.trans List.length_reverse
  have hroot : (makeLinkedEntries es).2 = if es.length = 0 then none else some (es.length - 1) := by
    have := hb.root
    rwa [List.length_reverse] at this
  have hrow : Row (makeLinkedEntries es).1 es.length := by
    have := hb.row
    rwa [List.length_reverse] at this
  rw [hsize, hroot]
  refine ⟨rfl, ?_, ?_⟩
  · cases es.length with
    | zero => rfl
    | succ k => rw [List.range_succ, List.reverse_append]; rfl
  · split
    · rename_i hnil
      rw [hnil]
      rfl
    · rw [hrow.length (by omega) (by omega)]
      congr 1
      omega

/-- The node in front changes none of the others. -/
theorem withHead_fields {h : Heap I O} (root : Option Nat) {p : Nat} (hp : p < h.size) :
    (h.withHead root).1.value p = h.value p ∧ (h.withHead root).1.id p = h.id p ∧
      (h.withHead root).1.matching p = h.matching p := by
  obtain ⟨hv, hid, hm⟩ := insertBefore_fields (h.new none none headId).1 h.size root
  have hne : p ≠ h.size := by omega
  refine ⟨?_, ?_, ?_⟩
  · exact (congrFun hv p).trans (Function.update_of_ne hne _ _)
  · exact (congrFun hid p).trans (Function.update_of_ne hne _ _)
  · exact (congrFun hm p).trans (Function.update_of_ne hne _ _)

/-- Node `p` is entry `p` from the end. -/
theorem Built.markOf_eq {es : List (Entry I O)} {l : Linking I O} (hb : Built es.reverse l)
    (h : Paired (es.map Entry.mark)) {p : Nat} {e : Entry I O} (he : es.reverse[p]? = some e) :
    (l.heap.withHead l.root).1.markOf p = e.mark := by
  have hp : p < l.heap.size := by
    rw [hb.row.size]
    exact (List.getElem?_eq_some_iff.mp he).1
  obtain ⟨_, hid, hm⟩ := withHead_fields l.root hp
  rw [Heap.markOf, hid, hm, hb.id p e he]
  cases hr : e.value.isRight with
  | true => rw [hb.ret p e he hr, Entry.mark_ret hr, Option.isSome_none, if_neg Bool.false_ne_true]
  | false =>
      obtain ⟨q, _, _, _, _, _, hq⟩ := hb.return_of_call h he hr
      rw [hq, Entry.mark_call hr, Option.isSome_some, if_pos rfl]

theorem before_range_reverse {n p q : Nat} (hp : p < n) (hq : q < p) :
    Before (List.range n).reverse p q := by
  refine Before.reverse ((before_total (List.mem_range.mpr (by omega)) (List.mem_range.mpr hp)
    (by omega)).resolve_right fun hb => ?_)
  have := hb.rel List.pairwise_lt_range
  omega

/-! ### The list as it stands at the start -/

section Start

variable {es : List (Entry I O)}

/-- The nodes are in a row, the one in front last made. -/
theorem row_start (h : (es.map Entry.mark).Nodup) :
    Row ((makeLinkedEntries es).1.withHead (makeLinkedEntries es).2).1 (es.length + 1) := by
  have hb := built_makeLinkedEntries (returnsOnce_reverse h)
  have hsize : (makeLinkedEntries es).1.size = es.length := hb.row.size.trans List.length_reverse
  have hrow := hb.row.insert none none headId
  rw [← hb.root, List.length_reverse] at hrow
  show Row (((makeLinkedEntries es).1.new none none headId).1.insertBefore (makeLinkedEntries es).1.size
    (makeLinkedEntries es).2) (es.length + 1)
  rw [hsize]
  exact hrow

/-- Node `p` is entry `p` from the end. -/
theorem node_start (h : (es.map Entry.mark).Nodup) {p : Nat} {e : Entry I O}
    (he : es.reverse[p]? = some e) :
    ((makeLinkedEntries es).1.withHead (makeLinkedEntries es).2).1.value p = some e.value ∧
      ((makeLinkedEntries es).1.withHead (makeLinkedEntries es).2).1.id p = e.id ∧
      ((makeLinkedEntries es).1.withHead (makeLinkedEntries es).2).1.matching p =
        (makeLinkedEntries es).1.matching p := by
  have hb := built_makeLinkedEntries (returnsOnce_reverse h)
  have hp : p < (makeLinkedEntries es).1.size := by
    rw [show (makeLinkedEntries es).1.size = es.reverse.length from hb.row.size]
    exact (List.getElem?_eq_some_iff.mp he).1
  obtain ⟨hv, hid, hm⟩ := withHead_fields (makeLinkedEntries es).2 hp
  exact ⟨hv.trans (hb.value p e he), hid.trans (hb.id p e he), hm⟩

theorem exists_entry {p : Nat} (hp : p ∈ (List.range es.length).reverse) :
    ∃ e ∈ es, es.reverse[p]? = some e := by
  rw [List.mem_reverse, List.mem_range] at hp
  obtain ⟨e, he⟩ : ∃ e, es.reverse[p]? = some e :=
    ⟨_, List.getElem?_eq_getElem (by rwa [List.length_reverse])⟩
  exact ⟨e, List.mem_reverse.mp (List.mem_of_getElem? he), he⟩

/-- **The nodes `ps` stand behind `head`**, and the `match` of a node is the only other one of its
    id and stands after it. -/
structure Strung (h : Heap I O) (head : Nat) (ps : List Nat) : Prop where
  nodup : (head :: ps).Nodup
  linked : h.toLinks.Linked head ps
  pair : ∀ p ∈ ps, ∀ q, h.matching p = some q → Before ps p q ∧ h.id q = h.id p ∧
    ∀ r ∈ ps, h.id r = h.id p → r = p ∨ r = q

/-- **What `makeLinkedEntries` builds**, if no id has two calls or two returns. -/
theorem strung_start (h : (es.map Entry.mark).Nodup) :
    Strung ((makeLinkedEntries es).1.withHead (makeLinkedEntries es).2).1 es.length
      (List.range es.length).reverse where
  nodup := by
    have : (List.range (es.length + 1)).reverse.Nodup := List.nodup_reverse.mpr List.nodup_range
    rwa [List.range_succ, List.reverse_append] at this
  linked := (row_start h).linked (Nat.lt_succ_self _)
  pair := by
    intro p hp q hq
    obtain ⟨e, _, he⟩ := exists_entry hp
    obtain ⟨_, hid, hm⟩ := node_start h he
    rw [hm] at hq
    obtain ⟨e', he', hqp, hc, f, hf, hr, hfe⟩ := (matching_inv (returnsOnce_reverse h)).2 p q hq
    rw [he, Option.some.injEq] at he'
    subst he'
    rw [List.mem_reverse, List.mem_range] at hp
    refine ⟨before_range_reverse hp hqp, ?_, fun r hrs hre => ?_⟩
    · rw [(node_start h hf).2.1, hid, hfe]
    · -- the third node of an id would be a second call or a second return
      obtain ⟨g, _, hg⟩ := exists_entry hrs
      rw [(node_start h hg).2.1, hid] at hre
      have hinj : ∀ {a : Nat} {x : Entry I O}, es.reverse[a]? = some x → g.mark = x.mark →
          r = a := by
        intro a x hx hmark
        have hlt : r < (es.reverse.map Entry.mark).length := by
          rw [List.length_map]
          exact (List.getElem?_eq_some_iff.mp hg).1
        refine (List.getElem?_inj hlt (nodup_marks_reverse h)).mp ?_
        rw [List.getElem?_map, List.getElem?_map, hg, hx, Option.map_some, Option.map_some, hmark]
      cases hgr : g.value.isRight with
      | true => exact Or.inr (hinj hf (by rw [Entry.mark_ret hgr, Entry.mark_ret hr, hre, hfe]))
      | false => exact Or.inl (hinj he (by rw [Entry.mark_call hgr, Entry.mark_call hc, hre]))

/-- **What `checkSingle` starts with.** -/
theorem layout_start (h : Paired (es.map Entry.mark)) :
    Layout ((makeLinkedEntries es).1.withHead (makeLinkedEntries es).2).1 es.length
      (List.range es.length).reverse es := by
  have hb := built_makeLinkedEntries (returnsOnce_reverse h.nodup)
  have hs := strung_start h.nodup
  refine ⟨hs.nodup, hs.linked, ?_, fun p hp => ?_, fun p hp q hq => ?_⟩
  · have hall : (List.range es.length).map
        ((makeLinkedEntries es).1.withHead (makeLinkedEntries es).2).1.markOf =
          es.reverse.map Entry.mark := by
      refine List.ext_getElem (by simp) fun p h₁ h₂ => ?_
      rw [List.length_map] at h₂
      rw [List.getElem_map, List.getElem_map, List.getElem_range]
      exact hb.markOf_eq h (List.getElem?_eq_getElem h₂)
    rw [List.map_reverse, hall, List.map_reverse, List.reverse_reverse]
  · obtain ⟨e, hmem, he⟩ := exists_entry hp
    exact ⟨e, hmem, hb.markOf_eq h he, (node_start h.nodup he).1⟩
  · obtain ⟨hbef, hid, _⟩ := hs.pair p hp q hq
    refine ⟨hbef, ?_⟩
    obtain ⟨e, _, he⟩ := exists_entry hp
    rw [(node_start h.nodup he).2.2] at hq
    obtain ⟨_, _, _, _, f, hf, hr, _⟩ := (matching_inv (returnsOnce_reverse h.nodup)).2 p q hq
    refine (hb.markOf_eq h hf).trans ?_
    rw [Entry.mark_ret hr, ← hid, (node_start h.nodup hf).2.1]

end Start

end Mit6824.Lin
