/-
  File:      Mit6824/Lin/Single.lean
  Subject:   CHECKSINGLE (linearizability/linearizability.go lines 122-214, model.go): the search
             over the linked list follows the search of `Lib.Backtrack` round by round.

  * `Model` -- the fields the checker of operations uses, filled in where `fillDefault` would;
  * `Search.iterate` -- one round of the loop, with `kill` as it is read in that round;
  * `acceptor` -- the operations of a list of entries, run by `Step`;
  * `Sim` -- **the simulation**: the list without what was lifted is what is left, the bits are
    what has gone, the cache is what has been seen;
  * `checkSingle_returns` -- the loop returns, and returns whether there is an order;
  * `Complete`, `checkSingle_decides` -- the same for a list in which every id has its call and its
    return: **`checkSingle` decides linearizability**.
-/
import Mit6824.Lin.Bitset
import Mit6824.Lin.Linked

namespace Mit6824.Lin

open Lib

variable {S I O : Type}

/-! ## 1. The code -/

structure Operation (I O : Type) where
  input : I
  call : Int
  output : O
  ret : Int
  deriving DecidableEq, Repr

structure Model (S I O : Type) where
  partition : List (Operation I O) → List (List (Operation I O))
  init : S
  step : S → I → O → Bool × S
  equal : S → S → Bool

def shallowEqual [DecidableEq S] (state1 state2 : S) : Bool := state1 = state2

structure CacheEntry (S : Type) where
  linearized : Bitset
  state : S

structure CallsEntry (S : Type) where
  entry : Nat
  state : S

/-- A map from hashes to slices: no slice is the empty one. -/
abbrev Cache (S : Type) := BitVec 64 → List (CacheEntry S)

def cacheContains (model : Model S I O) (cache : Cache S) (entry : CacheEntry S) : Bool :=
  (cache entry.linearized.hash).any fun elem =>
    entry.linearized.equals elem.linearized && model.equal entry.state elem.state

/-- The variables of `checkSingle`; the last of `calls` comes first. -/
structure Search (S I O : Type) where
  heap : Heap I O
  headEntry : Nat
  linearized : Bitset
  cache : Cache S
  calls : List (CallsEntry S)
  state : S
  entry : Option Nat

/-- Lines 168-175. -/
def Search.start (model : Model S I O) (heap : Heap I O) (subhistory : Option Nat) :
    Option (Search S I O) :=
  (heap.length heap.size subhistory).map fun l =>
    let (heap, headEntry) := heap.withHead subhistory
    { heap := heap
      headEntry := headEntry
      linearized := Bitset.newBitset (l / 2)
      cache := fun _ => []
      calls := []
      state := model.init
      entry := subhistory }

/-- `Step` on the values of two nodes: a value of the wrong kind is a failed type assertion. -/
def stepOn (model : Model S I O) (state : S) : Option (I ⊕ O) → Option (I ⊕ O) → Option (Bool × S)
  | some (.inl input), some (.inr output) => some (model.step state input output)
  | _, _ => none

/-- **One round of the loop** of lines 176-212. -/
def Search.iterate (model : Model S I O) (kill : Bool) (c : Search S I O) :
    Option (Search S I O ⊕ Bool) :=
  if c.heap.next c.headEntry = none then some (.inr true)
  else if kill then some (.inr false)
  else
    match c.entry with
    | none => none
    | some entry =>
        match c.heap.matching entry with
        | some matching =>
            match stepOn model c.state (c.heap.value entry) (c.heap.value matching) with
            | none => none
            | some (ok, newState) =>
                if ok then do
                  let newLinearized ← c.linearized.set (c.heap.id entry)
                  let newCacheEntry : CacheEntry S := ⟨newLinearized, newState⟩
                  if cacheContains model c.cache newCacheEntry then
                    some (.inl { c with entry := c.heap.next entry })
                  else
                    let hash := newLinearized.hash
                    let heap ← c.heap.lift entry
                    -- `linearized.set` makes it what `newLinearized` is
                    some (.inl
                      { c with
                        cache := Function.update c.cache hash (c.cache hash ++ [newCacheEntry])
                        calls := ⟨entry, c.state⟩ :: c.calls
                        state := newState
                        linearized := newLinearized
                        heap := heap
                        entry := heap.next c.headEntry })
                else some (.inl { c with entry := c.heap.next entry })
        | none =>
            match c.calls with
            | [] => some (.inr false)
            | callsTop :: calls => do
                let linearized ← c.linearized.clear (c.heap.id callsTop.entry)
                let heap ← c.heap.unlift callsTop.entry
                some (.inl
                  { c with
                    state := callsTop.state
                    linearized := linearized
                    calls := calls
                    heap := heap
                    entry := heap.next callsTop.entry })

/-! ## 2. The operations of a list of entries -/

def inputOf (es : List (Entry I O)) (x : Nat) : Option I :=
  es.findSome? fun e =>
    match e.value with
    | .inl i => if e.id = x then some i else none
    | .inr _ => none

def outputOf (es : List (Entry I O)) (x : Nat) : Option O :=
  es.findSome? fun e =>
    match e.value with
    | .inl _ => none
    | .inr o => if e.id = x then some o else none

/-- Operation `x` is what the entries with its id say. -/
def acceptor (model : Model S I O) (es : List (Entry I O)) : Acceptor S Nat where
  init := model.init
  step s x :=
    match inputOf es x, outputOf es x with
    | some i, some o =>
        let (ok, s') := model.step s i o
        if ok then some s' else none
    | _, _ => none

theorem findSome?_unique {α β : Type} {f : α → Option β} {l : List α} {a : α} {b : β} (ha : a ∈ l)
    (hb : f a = some b) (huniq : ∀ a' ∈ l, ∀ b', f a' = some b' → b' = b) :
    l.findSome? f = some b := by
  cases h : l.findSome? f with
  | none =>
      rw [List.findSome?_eq_none_iff.mp h a ha] at hb
      cases hb
  | some b' =>
      obtain ⟨a', ha', hb'⟩ := List.exists_of_findSome?_eq_some h
      rw [huniq a' ha' b' hb']

theorem inputOf_eq {es : List (Entry I O)} (hnd : (es.map Entry.mark).Nodup) {e : Entry I O}
    (he : e ∈ es) {i : I} (hi : e.value = .inl i) : inputOf es e.id = some i := by
  refine findSome?_unique he (by simp [hi]) fun e' he' i' hi' => ?_
  cases hv : e'.value with
  | inr o => simp [hv] at hi'
  | inl j =>
      rw [hv] at hi'
      obtain ⟨hid, rfl⟩ : e'.id = e.id ∧ j = i' := by simpa using hi'
      have heq : e' = e := List.inj_on_of_nodup_map hnd he' he
        (by simp only [Entry.mark, hv, hi, hid])
      rw [heq, hi] at hv
      exact (Sum.inl.inj hv).symm

theorem outputOf_eq {es : List (Entry I O)} (hnd : (es.map Entry.mark).Nodup) {e : Entry I O}
    (he : e ∈ es) {o : O} (ho : e.value = .inr o) : outputOf es e.id = some o := by
  refine findSome?_unique he (by simp [ho]) fun e' he' o' ho' => ?_
  cases hv : e'.value with
  | inl i => simp [hv] at ho'
  | inr j =>
      rw [hv] at ho'
      obtain ⟨hid, rfl⟩ : e'.id = e.id ∧ j = o' := by simpa using ho'
      have heq : e' = e := List.inj_on_of_nodup_map hnd he' he
        (by simp only [Entry.mark, hv, ho, hid])
      rw [heq, ho] at hv
      exact (Sum.inr.inj hv).symm

/-! ## 3. The nodes that are left -/

/-- The nodes of the operations that have not gone. -/
def left (h : Heap I O) (ps : List Nat) (D : Finset Nat) : List Nat := ps.filter fun p => h.id p ∉ D

theorem mem_left {h : Heap I O} {ps : List Nat} {D : Finset Nat} {p : Nat} :
    p ∈ left h ps D ↔ p ∈ ps ∧ h.id p ∉ D := by
  simp [left]

theorem markOf_call {h : Heap I O} {p q : Nat} (hq : h.matching p = some q) :
    h.markOf p = .call (h.id p) := by
  simp [Heap.markOf, hq]

theorem markOf_id (h : Heap I O) (p : Nat) : (h.markOf p).id = h.id p := by
  unfold Heap.markOf
  split <;> rfl

namespace Layout

variable {h : Heap I O} {head : Nat} {ps : List Nat} {es : List (Entry I O)}

theorem map_left (hl : Layout h head ps es) (D : Finset Nat) :
    (left h ps D).map h.markOf = remaining (es.map Entry.mark) D := by
  rw [remaining, ← hl.marks, List.filter_map]
  refine congrArg _ (List.filter_congr fun p _ => ?_)
  simp [markOf_id]

theorem markOf_inj (hl : Layout h head ps es) (hp : Paired (es.map Entry.mark)) {p q : Nat}
    (hps : p ∈ ps) (hqs : q ∈ ps) (heq : h.markOf p = h.markOf q) : p = q := by
  have hnd := hp.nodup
  rw [← hl.marks] at hnd
  exact List.inj_on_of_nodup_map hnd hps hqs heq

/-- Its nodes are strung: two calls of one id, or two returns, would have one mark. -/
theorem strung (hl : Layout h head ps es) (hp : Paired (es.map Entry.mark)) : Strung h head ps where
  nodup := hl.nodup
  linked := hl.linked
  pair := by
    intro p hps q hq
    obtain ⟨hb, hmark⟩ := hl.matching p hps q hq
    have hid : h.id q = h.id p := by
      rw [← markOf_id, hmark]
      rfl
    refine ⟨hb, hid, fun r hr heq => ?_⟩
    by_cases hm : (h.matching r).isSome
    · refine Or.inl (hl.markOf_inj hp hr hps ?_)
      rw [markOf_call hq, Heap.markOf, if_pos hm, heq]
    · refine Or.inr (hl.markOf_inj hp hr hb.mem.2 ?_)
      rw [hmark, Heap.markOf, if_neg hm, heq]

end Layout

/-- **A call that is left, its return, and the rest.** -/
theorem Strung.split {h : Heap I O} {head : Nat} {ps : List Nat} (hl : Strung h head ps)
    {D : Finset Nat} {p q : Nat} (hps : p ∈ left h ps D) (hq : h.matching p = some q) :
    ∃ xs ys zs, left h ps D = xs ++ p :: (ys ++ q :: zs) ∧
      left h ps (insert (h.id p) D) = xs ++ (ys ++ zs) := by
  obtain ⟨hmem, hD⟩ := mem_left.mp hps
  obtain ⟨hb, hid, honly⟩ := hl.pair p hmem q hq
  have hbl : Before (left h ps D) p q := by
    rw [before_iff_sublist] at hb ⊢
    have := hb.filter fun r => decide (h.id r ∉ D)
    rwa [List.filter_cons_of_pos (by simpa using hD), List.filter_cons_of_pos
      (by simpa [hid] using hD), List.filter_nil] at this
  obtain ⟨xs, l, hsplit, hql⟩ := hbl
  obtain ⟨ys, zs, rfl⟩ := List.append_of_mem hql
  refine ⟨xs, ys, zs, hsplit, ?_⟩
  have hnd : (left h ps D).Nodup := (List.nodup_cons.mp hl.nodup).2.filter _
  have hstep : left h ps (insert (h.id p) D) = (left h ps D).filter fun r => h.id r ≠ h.id p := by
    rw [left, left, List.filter_filter]
    refine List.filter_congr fun r _ => ?_
    by_cases hr : h.id r = h.id p <;> simp [hr]
  rw [hstep]
  have hmem' : ∀ r ∈ left h ps D, r ∈ ps := fun r hr => (mem_left.mp hr).1
  rw [hsplit] at hnd hmem' ⊢
  have hperm : (xs ++ p :: (ys ++ q :: zs)).Perm (p :: q :: (xs ++ (ys ++ zs))) := by
    refine List.perm_middle.trans (List.Perm.cons p ?_)
    rw [← List.append_assoc, ← List.append_assoc]
    exact List.perm_middle
  have hnd' := hperm.nodup_iff.mp hnd
  -- of the others none has the id
  have hkeep : ∀ r ∈ xs ++ (ys ++ zs), decide (h.id r ≠ h.id p) = true := by
    intro r hr
    refine decide_eq_true fun heq => ?_
    rcases honly r (hmem' r (hperm.mem_iff.mpr (by simp [hr]))) heq with rfl | rfl
    · exact (List.nodup_cons.mp hnd').1 (List.mem_cons_of_mem _ hr)
    · exact (List.nodup_cons.mp (List.nodup_cons.mp hnd').2).1 hr
  rw [← List.filter_eq_self.mpr hkeep]
  simp [List.filter_append, hid]

/-! ## 4. The simulation -/

/-- The heap after the lifts of a path. -/
inductive Lifted (h₀ : Heap I O) (head : Nat) (ps : List Nat) :
    List (CallsEntry S) → List (Nat × S) → Heap I O → Prop where
  | nil : Lifted h₀ head ps [] [] h₀
  | cons (calls : List (CallsEntry S)) (path : List (Nat × S)) (h : Heap I O) (p q : Nat) (s : S)
      (xs ys zs : List Nat) (hl : Lifted h₀ head ps calls path h) (hp : h.Pair head p q xs ys zs)
      (hleft : left h₀ ps (gone path) = xs ++ p :: (ys ++ q :: zs))
      (hnext : left h₀ ps (insert (h₀.id p) (gone path)) = xs ++ (ys ++ zs)) :
      Lifted h₀ head ps (⟨p, s⟩ :: calls) ((h₀.id p, s) :: path)
        { h with toLinks := (h.toLinks.unlink p).unlink q }

section Lifted

variable {h₀ h : Heap I O} {head : Nat} {ps : List Nat} {es : List (Entry I O)}
  {calls : List (CallsEntry S)} {path : List (Nat × S)}

/-- Only links change. -/
theorem Lifted.fields (hl : Lifted h₀ head ps calls path h) :
    h.value = h₀.value ∧ h.id = h₀.id ∧ h.matching = h₀.matching := by
  induction hl with
  | nil => exact ⟨rfl, rfl, rfl⟩
  | cons _ _ _ _ _ _ _ _ _ _ _ _ _ ih => exact ih

/-- **The list is what is left.** -/
theorem Lifted.linked (hL : h₀.toLinks.Linked head ps) (hl : Lifted h₀ head ps calls path h) :
    h.toLinks.Linked head (left h₀ ps (gone path)) := by
  cases hl with
  | nil =>
      have : left h₀ ps (gone ([] : List (Nat × S))) = ps := by simp [left, gone]
      rw [this]
      exact hL
  | cons calls path h p q s xs ys zs _ hpair _ hnext =>
      obtain ⟨hlink, hnd⟩ := hpair.unlinked
      rw [gone_cons, hnext, ← List.append_assoc]
      exact hlink.unlink hnd

/-- **A call of the list is lifted.** -/
theorem Lifted.push (hS : Strung h₀ head ps) (hl : Lifted h₀ head ps calls path h) {p q : Nat}
    (hmem : p ∈ left h₀ ps (gone path)) (hq : h₀.matching p = some q) (s : S) :
    ∃ h', h.lift p = some h' ∧ Lifted h₀ head ps (⟨p, s⟩ :: calls) ((h₀.id p, s) :: path) h' := by
  obtain ⟨xs, ys, zs, hsplit, hnext⟩ := hS.split hmem hq
  have hlink := hl.linked hS.linked
  rw [hsplit] at hlink
  have hpair : h.Pair head p q xs ys zs := by
    refine ⟨hlink, ?_, by rw [hl.fields.2.2]; exact hq⟩
    rw [← hsplit]
    exact hS.nodup.sublist (List.filter_sublist.cons_cons head)
  exact ⟨_, hpair.lift_eq, .cons _ _ _ _ _ _ _ _ _ hl hpair hsplit hnext⟩

theorem Lifted.back {s : S} {x : Nat} (hl : Lifted h₀ head ps calls ((x, s) :: path) h) :
    ∃ calls' h' p q xs ys zs, calls = ⟨p, s⟩ :: calls' ∧ x = h₀.id p ∧
      Lifted h₀ head ps calls' path h' ∧ h'.Pair head p q xs ys zs ∧
      left h₀ ps (gone path) = xs ++ p :: (ys ++ q :: zs) ∧
      h = { h' with toLinks := (h'.toLinks.unlink p).unlink q } := by
  cases hl with
  | cons calls' _ h' p q _ xs ys zs hl hp hleft _ =>
      exact ⟨calls', h', p, q, xs, ys, zs, rfl, rfl, hl, hp, hleft, rfl⟩

theorem Lifted.nil_calls (hl : Lifted h₀ head ps calls ([] : List (Nat × S)) h) : calls = [] := by
  cases hl
  rfl

/-- What has gone was in the list. -/
theorem Lifted.gone_mem (hl : Lifted h₀ head ps calls path h) :
    ∀ x ∈ gone path, ∃ p ∈ ps, x = h₀.id p := by
  induction hl with
  | nil => exact nofun
  | cons calls path h p q s xs ys zs _ _ hleft _ ih =>
      intro x hx
      rw [gone_cons, Finset.mem_insert] at hx
      rcases hx with rfl | hx
      · have hmem : p ∈ left h₀ ps (gone path) := by
          rw [hleft]
          simp
        exact ⟨p, (mem_left.mp hmem).1, rfl⟩
      · exact ih x hx

end Lifted

/-- **The loop and the search it follows.** -/
structure Sim (model : Model S I O) (h₀ : Heap I O) (head : Nat) (ps : List Nat) (n : Nat)
    (c : Search S I O) (a : Probe S) : Prop where
  head_eq : c.headEntry = head
  state : c.state = a.state
  lifted : Lifted h₀ head ps c.calls a.path c.heap
  bits : Bitset.Shows n c.linearized (gone a.path)
  cache : ∀ b D s, Bitset.Shows n b D → (∀ x ∈ D, x < n) →
    cacheContains model c.cache ⟨b, s⟩ = a.known model.equal D s
  entry : ∃ tried cur, left h₀ ps (gone a.path) = tried ++ cur ∧ c.entry = cur.head? ∧
    a.rest = cur.map h₀.markOf

section Sim

variable {model : Model S I O} {h₀ : Heap I O} {head : Nat} {ps : List Nat} {es : List (Entry I O)}
  {n : Nat} {c : Search S I O} {a : Probe S}

/-- A list of entries as the search needs it. -/
structure WellFormed (es : List (Entry I O)) (n : Nat) : Prop where
  paired : Paired (es.map Entry.mark)
  ids : ∀ e ∈ es, e.id < n

theorem Layout.id_lt (hL : Layout h₀ head ps es) (hw : WellFormed es n) {p : Nat} (hp : p ∈ ps) :
    h₀.id p < n := by
  obtain ⟨e, he, hmark, _⟩ := hL.value p hp
  rw [← markOf_id, hmark, Entry.mark_id]
  exact hw.ids e he

theorem Sim.gone_lt (hL : Layout h₀ head ps es) (hw : WellFormed es n)
    (hs : Sim model h₀ head ps n c a) {x : Nat} (hx : x < n) :
    ∀ y ∈ insert x (gone a.path), y < n := by
  intro y hy
  rcases Finset.mem_insert.mp hy with rfl | hy
  · exact hx
  · obtain ⟨p, hp, rfl⟩ := hs.lifted.gone_mem y hy
    exact hL.id_lt hw hp

/-- The loop ends when nothing is left. -/
theorem Sim.next_none (hL : Layout h₀ head ps es) (hs : Sim model h₀ head ps n c a) :
    c.heap.next c.headEntry = none ↔ remaining (es.map Entry.mark) (gone a.path) = [] := by
  rw [hs.head_eq, (hs.lifted.linked hL.linked).head, ← hL.map_left, List.map_eq_nil_iff]
  cases left h₀ ps (gone a.path) <;> simp

/-- A call at the front: its node, the node of its return, and what `Step` says. -/
theorem Sim.call (hL : Layout h₀ head ps es) (hw : WellFormed es n) (hs : Sim model h₀ head ps n c a)
    {x : Nat} {rest : List Mark} (hrest : a.rest = .call x :: rest) :
    ∃ p q i o tried cur, left h₀ ps (gone a.path) = tried ++ p :: cur ∧ c.entry = some p ∧
      rest = cur.map h₀.markOf ∧ h₀.id p = x ∧ x < n ∧ h₀.matching p = some q ∧
      h₀.value p = some (.inl i) ∧ h₀.value q = some (.inr o) ∧
      ∀ s, (acceptor model es).step s x =
        if (model.step s i o).1 then some (model.step s i o).2 else none := by
  obtain ⟨tried, cur, hleft, hentry, hcur⟩ := hs.entry
  cases cur with
  | nil =>
      rw [hrest] at hcur
      cases hcur
  | cons p cur =>
      rw [hrest, List.map_cons, List.cons.injEq] at hcur
      obtain ⟨hmark, hrest'⟩ := hcur
      have hmem : p ∈ ps := by
        refine (mem_left.mp (?_ : p ∈ left h₀ ps (gone a.path))).1
        rw [hleft]
        simp
      have hid : h₀.id p = x := by
        rw [← markOf_id, ← hmark]
        rfl
      obtain ⟨q, hq⟩ : ∃ q, h₀.matching p = some q := by
        by_contra hno
        rw [Heap.markOf, if_neg (by rwa [Option.isSome_iff_exists])] at hmark
        cases hmark
      obtain ⟨hb, hret⟩ := hL.matching p hmem q hq
      obtain ⟨e, he, hem, hev⟩ := hL.value p hmem
      obtain ⟨f, hf, hfm, hfv⟩ := hL.value q hb.mem.2
      obtain ⟨heid, i, hi⟩ := Entry.call_of_mark (hem.symm.trans hmark.symm)
      obtain ⟨hfid, o, ho⟩ := Entry.ret_of_mark (hfm.symm.trans hret)
      rw [hid] at hfid
      refine ⟨p, q, i, o, tried, cur, hleft, hentry, hrest', hid, heid ▸ hw.ids e he, hq, ?_, ?_, ?_⟩
      · rw [hev, hi]
      · rw [hfv, ho]
      · intro s
        have hin := inputOf_eq hw.paired.nodup he hi
        have hout := outputOf_eq hw.paired.nodup hf ho
        rw [heid] at hin
        rw [hfid] at hout
        simp only [acceptor, hin, hout]

theorem Sim.at_return (hs : Sim model h₀ head ps n c a) {y : Nat} {more : List Mark}
    (hrest : a.rest = .ret y :: more) : ∃ p, c.entry = some p ∧ h₀.matching p = none := by
  obtain ⟨tried, cur, _, hentry, hcur⟩ := hs.entry
  cases cur with
  | nil =>
      rw [hrest] at hcur
      cases hcur
  | cons p cur =>
      rw [hrest, List.map_cons, List.cons.injEq] at hcur
      refine ⟨p, hentry, Option.not_isSome_iff_eq_none.mp fun hm => ?_⟩
      rw [Heap.markOf, if_pos hm] at hcur
      cases hcur.1

/-- The loop goes on to the next node. -/
theorem Sim.skip (hL : Layout h₀ head ps es) (hs : Sim model h₀ head ps n c a) {p : Nat}
    {tried cur : List Nat} (hleft : left h₀ ps (gone a.path) = tried ++ p :: cur) :
    Sim model h₀ head ps n { c with entry := c.heap.next p }
      { a with rest := cur.map h₀.markOf } where
  head_eq := hs.head_eq
  state := hs.state
  lifted := hs.lifted
  bits := hs.bits
  cache := hs.cache
  entry := by
    have hlink := hs.lifted.linked hL.linked
    rw [hleft] at hlink
    refine ⟨tried ++ [p], cur, ?_, hlink.around.2.head, rfl⟩
    rw [hleft, List.append_assoc, List.singleton_append]

/-- One more entry of the cache. -/
theorem cache_push {cache : Cache S} {seen : List (Finset Nat × S)} {b₀ : Bitset} {D₀ : Finset Nat}
    (s₀ : S) (hb₀ : Bitset.Shows n b₀ D₀) (hD₀ : ∀ x ∈ D₀, x < n)
    (h : ∀ b D s, Bitset.Shows n b D → (∀ x ∈ D, x < n) → cacheContains model cache ⟨b, s⟩ =
      seen.any fun p => decide (D = p.1) && model.equal s p.2) {b : Bitset} {D : Finset Nat} {s : S}
    (hb : Bitset.Shows n b D) (hD : ∀ x ∈ D, x < n) :
    cacheContains model (Function.update cache b₀.hash (cache b₀.hash ++ [⟨b₀, s₀⟩])) ⟨b, s⟩ =
      ((D₀, s₀) :: seen).any fun p => decide (D = p.1) && model.equal s p.2 := by
  have heq : b.equals b₀ = decide (D = D₀) := by
    rw [Bool.eq_iff_iff, hb.equals_iff hb₀ hD hD₀, decide_eq_true_eq]
  rw [List.any_cons, ← h b D s hb hD]
  unfold cacheContains
  by_cases hhash : b.hash = b₀.hash
  · simp only [hhash, Function.update_self, List.any_append, List.any_cons, List.any_nil,
      Bool.or_false, heq]
    exact Bool.or_comm _ _
  · -- another hash, another set
    have hne : D ≠ D₀ := by
      intro hDD
      have : b = b₀ := Bitset.equals_iff_eq.mp (by rw [heq]; exact decide_eq_true hDD)
      exact hhash (congrArg _ this)
    simp only [Function.update_of_ne hhash, hne, decide_false, Bool.false_and, Bool.false_or]

/-- The loop lifts an operation. -/
theorem Sim.push (hL : Layout h₀ head ps es) (hw : WellFormed es n) (hs : Sim model h₀ head ps n c a)
    {p q : Nat} {tried cur : List Nat} (hleft : left h₀ ps (gone a.path) = tried ++ p :: cur)
    (hq : h₀.matching p = some q) {b : Bitset}
    (hb : Bitset.Shows n b (insert (h₀.id p) (gone a.path))) (s' : S) :
    ∃ heap, c.heap.lift p = some heap ∧
      Sim model h₀ head ps n
        { c with
          cache := Function.update c.cache b.hash (c.cache b.hash ++ [⟨b, s'⟩])
          calls := ⟨p, c.state⟩ :: c.calls
          state := s'
          linearized := b
          heap := heap
          entry := heap.next c.headEntry }
        { path := (h₀.id p, a.state) :: a.path
          state := s'
          seen := (insert (h₀.id p) (gone a.path), s') :: a.seen
          rest := remaining (es.map Entry.mark) (insert (h₀.id p) (gone a.path)) } := by
  have hmem : p ∈ left h₀ ps (gone a.path) := by
    rw [hleft]
    simp
  obtain ⟨heap, hheap, hlift⟩ := hs.lifted.push (hL.strung hw.paired) hmem hq a.state
  have hlt := hs.gone_lt hL hw (hL.id_lt hw (mem_left.mp hmem).1)
  refine ⟨heap, hheap, hs.head_eq, rfl, ?_, ?_, fun b' D s hb' hD => ?_, ?_⟩
  · rw [hs.state]
    exact hlift
  · rw [gone_cons]
    exact hb
  · exact cache_push s' hb hlt hs.cache hb' hD
  · refine ⟨[], left h₀ ps (insert (h₀.id p) (gone a.path)), by rw [gone_cons]; rfl, ?_,
      (hL.map_left _).symm⟩
    have := (hlift.linked hL.linked).head
    rw [gone_cons] at this
    dsimp only
    rw [hs.head_eq]
    exact this

/-- The loop goes back. -/
theorem Sim.pop (hL : Layout h₀ head ps es) (hw : WellFormed es n) (hs : Sim model h₀ head ps n c a)
    {x : Nat} {s : S} {path : List (Nat × S)} (hpath : a.path = (x, s) :: path) :
    ∃ p calls linearized heap, c.calls = ⟨p, s⟩ :: calls ∧
      c.linearized.clear (c.heap.id p) = some linearized ∧ c.heap.unlift p = some heap ∧
      Sim model h₀ head ps n
        { c with
          state := s
          linearized := linearized
          calls := calls
          heap := heap
          entry := heap.next p }
        { path := path
          state := s
          seen := a.seen
          rest := ((remaining (es.map Entry.mark) (gone path)).dropWhile (· ≠ .call x)).tail } := by
  have hl := hs.lifted
  have hbits := hs.bits
  rw [hpath] at hl hbits
  obtain ⟨calls, h, p, q, xs, ys, zs, hcalls, rfl, hback, hpair, hleft, hheap⟩ := hl.back
  rw [gone_cons] at hbits
  have hmem : p ∈ left h₀ ps (gone path) := by
    rw [hleft]
    simp
  obtain ⟨hp, hD⟩ := mem_left.mp hmem
  obtain ⟨linearized, hclear, hshows⟩ := hbits.clear (hL.id_lt hw hp) hD
  have hid : c.heap.id p = h₀.id p := by rw [hs.lifted.fields.2.1]
  refine ⟨p, calls, linearized, h, hcalls, by rw [hid]; exact hclear,
    by rw [hheap]; exact hpair.unlift_eq, hs.head_eq, rfl, hback, hshows, hs.cache,
    xs ++ [p], ys ++ q :: zs, ?_, hpair.linked.around.2.head, ?_⟩
  · rw [hleft, List.append_assoc, List.singleton_append]
  · -- the search finds the call of the operation where the node is
    have hq : h₀.matching p = some q := by
      rw [← hback.fields.2.2]
      exact hpair.matching
    have hnd : (remaining (es.map Entry.mark) (gone path)).Nodup := hw.paired.nodup.filter _
    dsimp only
    rw [← hL.map_left, hleft, List.map_append, List.map_cons, markOf_call hq] at hnd ⊢
    exact tail_dropWhile_call hnd

/-- A round at a call. -/
theorem Sim.round_call (hL : Layout h₀ head ps es) (hw : WellFormed es n)
    (hs : Sim model h₀ head ps n c a) (hrem : remaining (es.map Entry.mark) (gone a.path) ≠ [])
    {x : Nat} {rest : List Mark} (hrest : a.rest = .call x :: rest) {r : Probe S ⊕ Bool}
    (hr : probe (acceptor model es) model.equal (es.map Entry.mark) a = some r) :
    ∃ r', c.iterate model false = some r' ∧ Sum.LiftRel (Sim model h₀ head ps n) Eq r' r := by
  have hne : ¬ c.heap.next c.headEntry = none := fun h => hrem ((hs.next_none hL).mp h)
  obtain ⟨hval, hid, hmat⟩ := hs.lifted.fields
  obtain ⟨p, q, i, o, tried, cur, hleft, hentry, rfl, rfl, hlt, hq, hp, ho, hstep⟩ :=
    hs.call hL hw hrest
  obtain ⟨b, hset, hb⟩ := hs.bits.set hlt
  have hskip := hs.skip hL hleft
  rw [← hs.state] at hskip
  rw [probe, if_neg hrem, hrest] at hr
  simp only [hstep, ← hs.state] at hr
  simp only [Search.iterate, if_neg hne, Bool.false_eq_true, if_false, hentry, hmat, hq, hval, hp, ho,
    stepOn, hid, hset, Option.bind_eq_bind, Option.bind_some]
  cases hok : (model.step c.state i o).1 with
  | false =>
      simp only [hok, Bool.false_eq_true, if_false, Option.some.injEq] at hr ⊢
      subst hr
      exact ⟨_, rfl, .inl hskip⟩
  | true =>
      have hcache := hs.cache b _ (model.step c.state i o).2 hb (hs.gone_lt hL hw hlt)
      simp only [hok, if_true, ← hcache] at hr ⊢
      split at hr
      · rename_i hk
        cases hr
        rw [if_pos hk]
        exact ⟨_, rfl, .inl hskip⟩
      · rename_i hk
        cases hr
        obtain ⟨heap, hlift, hsim⟩ := hs.push hL hw hleft hq hb (model.step c.state i o).2
        rw [if_neg hk, hlift, Option.bind_some]
        rw [← hs.state] at hsim
        exact ⟨_, rfl, .inl hsim⟩

/-- **The step lemma of the simulation.** -/
theorem Sim.round (hL : Layout h₀ head ps es) (hw : WellFormed es n)
    (hs : Sim model h₀ head ps n c a) {r : Probe S ⊕ Bool}
    (hr : probe (acceptor model es) model.equal (es.map Entry.mark) a = some r) :
    ∃ r', c.iterate model false = some r' ∧ Sum.LiftRel (Sim model h₀ head ps n) Eq r' r := by
  have hnone := hs.next_none hL
  by_cases hrem : remaining (es.map Entry.mark) (gone a.path) = []
  · rw [probe, if_pos hrem] at hr
    cases hr
    exact ⟨_, if_pos (hnone.mpr hrem), .inr rfl⟩
  · cases hrest : a.rest with
    | nil =>
        rw [probe, if_neg hrem, hrest] at hr
        cases hr
    | cons e more =>
        cases e with
        | call x => exact hs.round_call hL hw hrem hrest hr
        | ret y =>
            obtain ⟨p, hentry, hpm⟩ := hs.at_return hrest
            rw [probe, if_neg hrem, hrest] at hr
            rw [Search.iterate, if_neg fun h => hrem (hnone.mp h), if_neg Bool.false_ne_true, hentry]
            dsimp only
            rw [hs.lifted.fields.2.2, hpm]
            dsimp only at hr ⊢
            cases hpath : a.path with
            | nil =>
                rw [hpath] at hr
                cases hr
                have hl := hs.lifted
                rw [hpath] at hl
                rw [hl.nil_calls]
                exact ⟨_, rfl, .inr rfl⟩
            | cons t path =>
                obtain ⟨x, s⟩ := t
                rw [hpath] at hr
                cases hr
                obtain ⟨p, calls, linearized, heap, hcalls, hclear, hunlift, hsim⟩ :=
                  hs.pop hL hw hpath
                rw [hcalls]
                simp only [hclear, hunlift, Option.bind_eq_bind, Option.bind_some]
                exact ⟨_, rfl, .inl hsim⟩

end Sim

/-! ## 5. What `checkSingle` returns -/

/-- `Equal` is an equivalence that `Step` respects. -/
structure Model.Respects (model : Model S I O) : Prop where
  refl : ∀ s, model.equal s s = true
  symm : ∀ s t, model.equal s t = true → model.equal t s = true
  trans : ∀ s t u, model.equal s t = true → model.equal t u = true → model.equal s u = true
  step : ∀ s t i o, model.equal s t = true → (model.step s i o).1 = (model.step t i o).1 ∧
    model.equal (model.step s i o).2 (model.step t i o).2 = true

theorem Model.respects_of_shallowEqual [DecidableEq S] {model : Model S I O}
    (h : model.equal = shallowEqual) : model.Respects := by
  have heq : ∀ s t, model.equal s t = true ↔ s = t := by
    intro s t
    rw [h]
    exact decide_eq_true_iff
  refine ⟨fun s => (heq s s).mpr rfl, fun s t hst => ?_, fun s t u hst htu => ?_, fun s t i o hst => ?_⟩
  · exact (heq t s).mpr ((heq s t).mp hst).symm
  · exact (heq s u).mpr (((heq s t).mp hst).trans ((heq t u).mp htu))
  · rw [(heq s t).mp hst]
    exact ⟨rfl, (heq _ _).mpr rfl⟩

theorem Model.Respects.congruence {model : Model S I O} (h : model.Respects)
    (es : List (Entry I O)) : Congruence (acceptor model es) model.equal where
  refl := h.refl
  step := by
    intro s t x s' hst hs
    simp only [acceptor] at hs ⊢
    split at hs
    · rename_i i o _ _
      obtain ⟨hok, heq⟩ := h.step s t i o hst
      split at hs
      · rename_i hok'
        cases hs
        rw [hok] at hok'
        exact ⟨_, if_pos hok', heq⟩
      · cases hs
    · cases hs

theorem exists_start (model : Model S I O) {es : List (Entry I O)}
    (hw : WellFormed es (es.length / 2)) :
    ∃ c, Search.start model (makeLinkedEntries es).1 (makeLinkedEntries es).2 = some c ∧
      Sim model ((makeLinkedEntries es).1.withHead (makeLinkedEntries es).2).1 es.length
        (List.range es.length).reverse (es.length / 2) c
        (Probe.start (acceptor model es) (es.map Entry.mark)) := by
  obtain ⟨hsize, hroot, hlen⟩ := makeLinkedEntries_length hw.paired.nodup
  have hL := layout_start hw.paired
  refine ⟨_, by rw [Search.start, hlen]; rfl, hsize, rfl, .nil, Bitset.shows_newBitset _,
    fun _ _ _ _ _ => rfl, [], _, rfl, ?_, ?_⟩
  · show (makeLinkedEntries es).2 = _
    rw [hroot]
    simp [gone, Probe.start]
  · exact (hL.map_left ∅).symm

/-- **`checkSingle` returns**, and returns true if and only if there is an order in which what
    returned before another was called comes first and which `Step` takes. -/
theorem checkSingle_returns {model : Model S I O} (hm : model.Respects) {es : List (Entry I O)}
    (hw : WellFormed es (es.length / 2)) :
    ∃ c k b, Search.start model (makeLinkedEntries es).1 (makeLinkedEntries es).2 = some c ∧
      Returns (Search.iterate model false) c k b ∧
      (b = true ↔ ∃ L, Finishes (acceptor model es) (es.map Entry.mark) ∅ model.init L) := by
  obtain ⟨c, hc, hsim⟩ := exists_start model hw
  obtain ⟨k, b, hr, hiff⟩ := probe_returns hw.paired (hm.congruence es)
  refine ⟨c, k, b, hc, hr.sim (fun t s r hR => hR.round (layout_start hw.paired) hw) hsim, ?_⟩
  rw [hiff, solvable_iff hw.paired]
  rfl

/-! ## 6. Complete lists of entries -/

/-- **Every id below `n` has one call and one later return**, and no other id has an entry. -/
structure Complete (es : List (Entry I O)) (n : Nat) : Prop where
  ids : ∀ e ∈ es, e.id < n
  pair : ∀ x < n, ∃ c r i o, es.filter (fun e => e.id = x) = [c, r] ∧ c.value = .inl i ∧
    r.value = .inr o

namespace Complete

variable {es : List (Entry I O)} {n : Nat}

/-- Two entries of one id are its call and its return, in this order. -/
theorem of_sublist (h : Complete es n) {a b : Entry I O} (hs : [a, b].Sublist es)
    (hid : a.id = b.id) : a.mark = .call a.id ∧ b.mark = .ret a.id := by
  obtain ⟨c, r, i, o, hcr, hc, hr⟩ := h.pair a.id (h.ids a (hs.subset (by simp)))
  have hf := hs.filter fun e => decide (e.id = a.id)
  rw [List.filter_cons_of_pos (by simp), List.filter_cons_of_pos (by simp [hid]), List.filter_nil,
    hcr] at hf
  obtain ⟨rfl, rfl⟩ : a = c ∧ b = r := by simpa using hf.eq_of_length rfl
  simp only [Entry.mark, hc, hr, hid, and_self]

/-- The call of an id, and its return behind it. -/
theorem before (h : Complete es n) {x : Nat} (hx : x < n) :
    Before (es.map Entry.mark) (.call x) (.ret x) := by
  obtain ⟨c, r, i, o, hcr, hc, hr⟩ := h.pair x hx
  have hmem : ∀ e ∈ [c, r], e.id = x := by
    intro e he
    rw [← hcr, List.mem_filter] at he
    exact of_decide_eq_true he.2
  have hs : [c, r].Sublist es := hcr ▸ List.filter_sublist
  refine before_map.mpr ⟨c, r, before_iff_sublist.mpr hs, ?_, ?_⟩
  · rw [Entry.mark, hc, hmem c (by simp)]
  · rw [Entry.mark, hr, hmem r (by simp)]

theorem paired (h : Complete es n) : Paired (es.map Entry.mark) := by
  refine ⟨List.pairwise_map.mpr (List.pairwise_iff_forall_sublist.mpr fun {a b} hs heq => ?_),
    fun m hm => ?_⟩
  · have hid : a.id = b.id := by rw [← Entry.mark_id, heq, Entry.mark_id]
    obtain ⟨ha, hb⟩ := h.of_sublist hs hid
    rw [ha, hb] at heq
    cases heq
  · obtain ⟨e, he, rfl⟩ := List.mem_map.mp hm
    rw [Entry.mark_id]
    exact h.before (h.ids e he)

/-- The entries with an id below `k`, one id after the other. -/
theorem countP_lt (h : Complete es n) {k : Nat} (hk : k ≤ n) :
    es.countP (fun e => decide (e.id < k)) = 2 * k := by
  induction k with
  | zero => simp
  | succ k ih =>
      obtain ⟨c, r, _, _, hcr, _⟩ := h.pair k (by omega)
      have hnew : es.countP (fun e => decide (e.id = k)) = 2 := by
        rw [List.countP_eq_length_filter, hcr]
        rfl
      have hsplit : es.countP (fun e => decide (e.id < k + 1)) =
          es.countP (fun e => decide (e.id < k)) + es.countP (fun e => decide (e.id = k)) := by
        clear hcr hnew h ih
        induction es with
        | nil => rfl
        | cons e es ih =>
            simp only [List.countP_cons, ih, decide_eq_true_eq]
            split_ifs <;> omega
      have := ih (by omega)
      omega

theorem length_eq (h : Complete es n) : es.length = 2 * n := by
  rw [← h.countP_lt (Nat.le_refl n), eq_comm, List.countP_eq_length]
  intro e he
  exact decide_eq_true (h.ids e he)

theorem wellFormed (h : Complete es n) : WellFormed es (es.length / 2) where
  paired := h.paired
  ids := by
    rw [h.length_eq]
    intro e he
    have := h.ids e he
    omega

theorem call_mem (h : Complete es n) {x : Nat} : .call x ∈ es.map Entry.mark ↔ x < n := by
  refine ⟨fun hx => ?_, fun hx => (h.before hx).mem.1⟩
  obtain ⟨e, he, hm⟩ := List.mem_map.mp hx
  rw [← (Entry.call_of_mark hm).1]
  exact h.ids e he

theorem lt_of_ret_mem (h : Complete es n) {x : Nat} (hx : .ret x ∈ es.map Entry.mark) : x < n := by
  obtain ⟨e, he, hm⟩ := List.mem_map.mp hx
  rw [← (Entry.ret_of_mark hm).1]
  exact h.ids e he

/-- What the search looks for is an order of all operations. -/
theorem finishes_iff (h : Complete es n) (model : Model S I O) (L : List Nat) :
    Finishes (acceptor model es) (es.map Entry.mark) ∅ model.init L ↔
      L.Perm (List.range n) ∧
      (∀ x y, Before (es.map Entry.mark) (.ret x) (.call y) → Before L x y) ∧
      ((acceptor model es).run model.init L).isSome = true := by
  have hirr : ∀ x, ¬ Before (es.map Entry.mark) (.ret x) (.call x) := by
    intro x hb
    exact hb.asymm h.paired.nodup (h.before (h.call_mem.mp hb.mem.2))
  have hall : (∀ x, x ∈ L ↔ .call x ∈ es.map Entry.mark ∧ x ∉ (∅ : Finset Nat)) ↔
      ∀ x, x ∈ L ↔ x ∈ List.range n := by
    simp only [h.call_mem, List.mem_range, Finset.notMem_empty, not_false_eq_true, and_true]
  constructor
  · intro hf
    have hmem := hall.mp hf.all
    refine ⟨(List.perm_ext_iff_of_nodup hf.nodup List.nodup_range).mpr hmem, fun x y hb => ?_, hf.run⟩
    have hx := (hmem x).mpr (List.mem_range.mpr (h.lt_of_ret_mem hb.mem.1))
    have hy := (hmem y).mpr (List.mem_range.mpr (h.call_mem.mp hb.mem.2))
    exact (pairwise_iff_before hf.nodup hirr).mp hf.order x hx y hy hb
  · intro hL
    obtain ⟨hp, hord, hrun⟩ := hL
    have hnd : L.Nodup := hp.nodup_iff.mpr List.nodup_range
    exact ⟨hnd, hall.mpr fun x => hp.mem_iff,
      (pairwise_iff_before hnd hirr).mpr fun x _ y _ hb => hord x y hb, hrun⟩

end Complete

/-- **`checkSingle` decides linearizability.** On every complete list of entries it returns, and it
    returns true if and only if the operations have an order in which what returned before another
    was called comes first, and along which `Step` succeeds from `Init` on at every operation. -/
theorem checkSingle_decides {model : Model S I O} (hm : model.Respects) {es : List (Entry I O)}
    {n : Nat} (hes : Complete es n) :
    ∃ c k b, Search.start model (makeLinkedEntries es).1 (makeLinkedEntries es).2 = some c ∧
      Returns (Search.iterate model false) c k b ∧
      (b = true ↔ ∃ order : List Nat, order.Perm (List.range n) ∧
        (∀ x y, Before (es.map Entry.mark) (.ret x) (.call y) → Before order x y) ∧
        ((acceptor model es).run model.init order).isSome = true) := by
  obtain ⟨c, k, b, hc, hk, hb⟩ := checkSingle_returns hm hes.wellFormed
  exact ⟨c, k, b, hc, hk, hb.trans (exists_congr fun L => hes.finishes_iff model L)⟩

/-- A counter that returns what it held before. -/
def counter : Model Nat Unit Nat := ⟨fun h => [h], 0, fun s _ o => (o = s, s + 1), shallowEqual⟩

/-- Two increments at once: the first that was called is the second that counted. -/
theorem checkSingle_decides_counter : ∃ c k,
    Search.start counter
      (makeLinkedEntries [⟨.inl (), 0, 1⟩, ⟨.inl (), 1, 2⟩, ⟨.inr 1, 0, 3⟩, ⟨.inr 0, 1, 4⟩]).1
      (makeLinkedEntries [⟨.inl (), 0, 1⟩, ⟨.inl (), 1, 2⟩, ⟨.inr 1, 0, 3⟩, ⟨.inr 0, 1, 4⟩]).2 =
        some c ∧
    Returns (Search.iterate counter false) c k true := by
  have hes : Complete ([⟨.inl (), 0, 1⟩, ⟨.inl (), 1, 2⟩, ⟨.inr 1, 0, 3⟩, ⟨.inr 0, 1, 4⟩] :
      List (Entry Unit Nat)) 2 := by
    refine ⟨by simp, fun x hx => ?_⟩
    have h01 : x = 0 ∨ x = 1 := by omega
    rcases h01 with rfl | rfl
    · exact ⟨_, _, _, _, rfl, rfl, rfl⟩
    · exact ⟨_, _, _, _, rfl, rfl, rfl⟩
  have hm : counter.Respects := Model.respects_of_shallowEqual rfl
  obtain ⟨c, k, b, hc, hk, hb⟩ := checkSingle_decides hm hes
  obtain rfl : b = true := by
    refine hb.mpr ⟨[1, 0], by decide, fun x y hbef => ?_, by decide⟩
    rw [before_iff_sublist] at hbef
    simp [Entry.mark, List.sublist_cons_iff] at hbef
  exact ⟨c, k, hc, hk⟩

end Mit6824.Lin
