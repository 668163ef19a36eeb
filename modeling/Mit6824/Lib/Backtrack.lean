/-
  File:      Mit6824/Lib/Backtrack.lean
  Subject:   SEARCHING AN ORDER OF OPERATIONS, with backtracking and a memory of what was tried.

  The operations are numbers; their calls and returns stand in a list, earliest first. An operation
  may go next when no operation that is still to go has returned before its call, that is, when its
  call stands before the first return of what is left. The search tries these calls from left to
  right, goes on with what is left behind the first that the object takes, and goes back when it
  meets a return. It never enters a set of operations twice with states that are the same.

  * `Paired es` -- every operation has one call and, later, one return;
  * `Solvable A es D s` -- from `s`, with the operations of `D` gone, the others can go;
  * `solvable_iff` -- **what that means**: an order that respects the list and that the object takes;
  * `probe` -- one round of the search;
  * `probe_returns` -- **the search comes to an end, and with the right answer**;
  * `exists_finishes_rename` -- the numbers of the operations do not matter.
-/
import Mathlib.Data.Finset.Card
import Mathlib.Data.List.Permutation
import Mathlib.Data.List.Sublists
import Mathlib.Data.Prod.Lex
import Mit6824.Lib.Linearizable
import Mit6824.Lib.Locality
import Mit6824.Lib.Loops

namespace Mit6824.Lib

variable {S : Type}

/-! ## 1. Calls and returns -/

inductive Mark where
  | call (x : ℕ)
  | ret (x : ℕ)
  deriving DecidableEq, Repr

def Mark.id : Mark → ℕ
  | .call x => x
  | .ret x => x

def Mark.isCall : Mark → Bool
  | .call _ => true
  | .ret _ => false

/-- One call and, later, one return for every operation. -/
structure Paired (es : List Mark) : Prop where
  nodup : es.Nodup
  order : ∀ e ∈ es, Before es (.call e.id) (.ret e.id)

theorem before_iff_sublist {α : Type} {L : List α} {x y : α} : Before L x y ↔ [x, y].Sublist L := by
  constructor
  · rintro ⟨l₁, l₂, rfl, hy⟩
    exact ((List.singleton_sublist.mpr hy).cons_cons x).trans (List.sublist_append_right _ _)
  · intro h
    induction L with
    | nil => cases h
    | cons z L ih =>
        cases h with
        | cons _ h =>
            obtain ⟨l₁, l₂, rfl, hy⟩ := ih h
            exact ⟨z :: l₁, l₂, rfl, hy⟩
        | cons_cons _ h => exact ⟨[], L, rfl, List.singleton_sublist.mp h⟩

theorem before_map {α β : Type} {f : α → β} {L : List α} {u v : β} :
    Before (L.map f) u v ↔ ∃ a b, Before L a b ∧ f a = u ∧ f b = v := by
  simp only [before_iff_sublist]
  constructor
  · intro h
    obtain ⟨l, hl, heq⟩ := List.sublist_map_iff.mp h
    obtain ⟨a, l, rfl, rfl, htail⟩ := List.map_eq_cons_iff.mp heq.symm
    obtain ⟨b, l, rfl, rfl, hnil⟩ := List.map_eq_cons_iff.mp htail
    rw [List.map_eq_nil_iff.mp hnil] at hl
    exact ⟨a, b, hl, rfl, rfl⟩
  · rintro ⟨a, b, h, rfl, rfl⟩
    exact h.map f

theorem Before.mem {α : Type} {L : List α} {x y : α} (h : Before L x y) : x ∈ L ∧ y ∈ L := by
  have hs := (before_iff_sublist.mp h).subset
  exact ⟨hs (by simp), hs (by simp)⟩

/-- In a list without repetition, what stands before an element stands in front of it. -/
theorem Before.mem_left {α : Type} {x y : α} {l₁ l₂ : List α} (h : Before (l₁ ++ y :: l₂) x y)
    (hnd : (l₁ ++ y :: l₂).Nodup) : x ∈ l₁ := by
  rw [before_iff_sublist] at h
  induction l₁ with
  | nil =>
      refine absurd ?_ (List.nodup_cons.mp hnd).1
      cases h with
      | cons _ h => exact h.subset (by simp)
      | cons_cons _ h => exact List.singleton_sublist.mp h
  | cons z l₁ ih =>
      cases h with
      | cons _ h => exact List.mem_cons_of_mem _ (ih h (List.nodup_cons.mp hnd).2)
      | cons_cons _ h => exact List.mem_cons_self

theorem Before.asymm {α : Type} {L : List α} {x y : α} (h : Before L x y) (hnd : L.Nodup) :
    ¬ Before L y x := by
  intro h'
  obtain ⟨l₁, l₂, rfl, hy⟩ := h
  have hmem := h'.mem_left hnd
  exact (List.nodup_append.mp hnd).2.2 y hmem y (List.mem_cons_of_mem _ hy) rfl

theorem before_total {α : Type} {L : List α} {x y : α} (hx : x ∈ L) (hy : y ∈ L) (hne : x ≠ y) :
    Before L x y ∨ Before L y x := by
  obtain ⟨l₁, l₂, rfl⟩ := List.append_of_mem hx
  rcases List.mem_append.mp hy with hy | hy
  · exact Or.inr (before_append hy List.mem_cons_self)
  · exact Or.inl ⟨l₁, l₂, rfl, (List.mem_cons.mp hy).resolve_left (Ne.symm hne)⟩

theorem Before.rel {α : Type} {R : α → α → Prop} {L : List α} {x y : α} (h : Before L x y)
    (hR : L.Pairwise R) : R x y := by
  have := hR.sublist (before_iff_sublist.mp h)
  simpa using this

/-- An order in which nothing stands in front of what has to come before it. -/
theorem pairwise_iff_before {α : Type} {L : List α} (hnd : L.Nodup) {R : α → α → Prop}
    (hirr : ∀ x, ¬ R x x) :
    L.Pairwise (fun x y => ¬ R y x) ↔ ∀ x ∈ L, ∀ y ∈ L, R x y → Before L x y := by
  constructor
  · intro hp x hx y hy hR
    have hne : x ≠ y := fun e => hirr x (e ▸ hR)
    exact (before_total hx hy hne).resolve_right fun hb => hb.rel hp hR
  · intro h
    refine List.pairwise_iff_forall_sublist.mpr fun {x y} hs hR => ?_
    have hb : Before L x y := before_iff_sublist.mpr hs
    exact hb.asymm hnd (h y hb.mem.2 x hb.mem.1 hR)

theorem Before.reverse {α : Type} {L : List α} {x y : α} (h : Before L x y) :
    Before L.reverse y x := by
  rw [before_iff_sublist] at h ⊢
  simpa using h.reverse

/-- The marks of the operations that are still to go. -/
def remaining (es : List Mark) (D : Finset ℕ) : List Mark := es.filter fun e => e.id ∉ D

theorem mem_remaining {es : List Mark} {D : Finset ℕ} {e : Mark} :
    e ∈ remaining es D ↔ e ∈ es ∧ e.id ∉ D := by
  simp [remaining]

theorem before_remaining {es : List Mark} {D : Finset ℕ} {e f : Mark} :
    Before (remaining es D) e f ↔ Before es e f ∧ e.id ∉ D ∧ f.id ∉ D := by
  rw [before_iff_sublist, before_iff_sublist]
  constructor
  · intro h
    refine ⟨h.trans List.filter_sublist, ?_, ?_⟩
    · exact (mem_remaining.mp (h.subset (by simp))).2
    · exact (mem_remaining.mp (h.subset (by simp))).2
  · rintro ⟨h, he, hf⟩
    have := h.filter fun e => decide (e.id ∉ D)
    rwa [List.filter_cons_of_pos (by simpa using he), List.filter_cons_of_pos (by simpa using hf),
      List.filter_nil] at this

/-! ## 2. What can go next, and what can be finished -/

/-- The call of `x` stands before the first return of what is left. -/
def Enabled (es : List Mark) (D : Finset ℕ) (x : ℕ) : Prop :=
  ∃ cs more, remaining es D = cs ++ .call x :: more ∧ ∀ e ∈ cs, e.isCall = true

/-- Nothing that is left has returned before the call. -/
theorem enabled_iff {es : List Mark} (h : es.Nodup) {D : Finset ℕ} {x : ℕ} :
    Enabled es D x ↔ .call x ∈ es ∧ x ∉ D ∧ ∀ y ∉ D, ¬ Before es (.ret y) (.call x) := by
  have hnd : (remaining es D).Nodup := h.filter _
  constructor
  · rintro ⟨cs, more, hrem, hcs⟩
    obtain ⟨hx, hD⟩ := mem_remaining.mp (show Mark.call x ∈ remaining es D by rw [hrem]; simp)
    refine ⟨hx, hD, fun y hy hb => ?_⟩
    have hb' : Before (remaining es D) (.ret y) (.call x) := before_remaining.mpr ⟨hb, hy, hD⟩
    rw [hrem] at hb' hnd
    cases hcs _ (hb'.mem_left hnd)
  · rintro ⟨hx, hD, hno⟩
    obtain ⟨cs, more, hrem⟩ := List.append_of_mem
      (show Mark.call x ∈ remaining es D from mem_remaining.mpr ⟨hx, hD⟩)
    refine ⟨cs, more, hrem, fun e he => ?_⟩
    cases e with
    | call y => rfl
    | ret y =>
        have hb : Before (remaining es D) (.ret y) (.call x) := by
          rw [hrem]
          obtain ⟨c₁, c₂, rfl⟩ := List.append_of_mem he
          exact ⟨c₁, c₂ ++ .call x :: more, by simp, by simp⟩
        obtain ⟨hb, hy, _⟩ := before_remaining.mp hb
        exact absurd hb (hno y hy)

/-- **From `s`, with the operations of `D` gone, the others can go.** -/
inductive Solvable (A : Acceptor S ℕ) (es : List Mark) : Finset ℕ → S → Prop where
  | done (D : Finset ℕ) (s : S) (h : remaining es D = []) : Solvable A es D s
  | next (D : Finset ℕ) (s s' : S) (x : ℕ) (hx : Enabled es D x) (hs : A.step s x = some s')
      (h : Solvable A es (insert x D) s') : Solvable A es D s

/-- An order of the operations that are left. -/
structure Finishes (A : Acceptor S ℕ) (es : List Mark) (D : Finset ℕ) (s : S) (L : List ℕ) :
    Prop where
  nodup : L.Nodup
  all : ∀ x, x ∈ L ↔ .call x ∈ es ∧ x ∉ D
  order : L.Pairwise fun x y => ¬ Before es (.ret y) (.call x)
  run : (A.run s L).isSome = true

theorem Solvable.finishes {A : Acceptor S ℕ} {es : List Mark} (hp : Paired es) {D : Finset ℕ}
    {s : S} (h : Solvable A es D s) : ∃ L, Finishes A es D s L := by
  induction h with
  | done D s h =>
      refine ⟨[], List.nodup_nil, fun x => ⟨nofun, fun ⟨hx, hD⟩ => ?_⟩, List.Pairwise.nil, rfl⟩
      have := mem_remaining.mpr (⟨hx, hD⟩ : Mark.call x ∈ es ∧ (Mark.call x).id ∉ D)
      rw [h] at this
      cases this
  | next D s s' x hx hs _ ih =>
      obtain ⟨L, hL⟩ := ih
      obtain ⟨hcall, hD, hmin⟩ := (enabled_iff hp.nodup).mp hx
      have hnot : ∀ y ∈ L, y ∉ insert x D := fun y hy => ((hL.all y).mp hy).2
      refine ⟨x :: L, List.nodup_cons.mpr ⟨fun hm => ?_, hL.nodup⟩, fun y => ?_,
        List.pairwise_cons.mpr ⟨fun y hy => ?_, hL.order⟩, ?_⟩
      · exact hnot x hm (Finset.mem_insert_self x D)
      · rw [List.mem_cons, hL.all, Finset.mem_insert, not_or]
        by_cases hyx : y = x
        · subst hyx
          exact ⟨fun _ => ⟨hcall, hD⟩, fun _ => Or.inl rfl⟩
        · simp [hyx]
      · exact hmin y fun hy' => hnot y hy (Finset.mem_insert_of_mem hy')
      · rw [Acceptor.run, hs]
        exact hL.run

theorem Finishes.solvable {A : Acceptor S ℕ} {es : List Mark} (hp : Paired es) {L : List ℕ} :
    ∀ {D : Finset ℕ} {s : S}, Finishes A es D s L → Solvable A es D s := by
  induction L with
  | nil =>
      intro D s h
      refine .done D s (List.eq_nil_iff_forall_not_mem.mpr fun e he => ?_)
      obtain ⟨hmem, hD⟩ := mem_remaining.mp he
      cases (h.all e.id).mpr ⟨(hp.order e hmem).mem.1, hD⟩
  | cons x L ih =>
      intro D s h
      obtain ⟨hx, hnd⟩ := List.nodup_cons.mp h.nodup
      obtain ⟨hfirst, hord⟩ := List.pairwise_cons.mp h.order
      obtain ⟨hcall, hD⟩ := (h.all x).mp List.mem_cons_self
      have hrun := h.run
      rw [Acceptor.run, Option.isSome_bind, Option.any_eq_true] at hrun
      obtain ⟨s', hs, hrun⟩ := hrun
      have hen : Enabled es D x := by
        refine (enabled_iff hp.nodup).mpr ⟨hcall, hD, fun y hy hb => ?_⟩
        by_cases hyx : y = x
        · -- an operation does not return before its own call
          subst hyx
          exact hb.asymm hp.nodup (hp.order _ hb.mem.1)
        · have hyL : y ∈ x :: L := (h.all y).mpr ⟨(hp.order _ hb.mem.1).mem.1, hy⟩
          exact hfirst y ((List.mem_cons.mp hyL).resolve_left hyx) hb
      refine .next D s s' x hen hs (ih ⟨hnd, fun y => ?_, hord, hrun⟩)
      have := h.all y
      rw [Finset.mem_insert, not_or]
      constructor
      · intro hy
        exact ⟨(this.mp (List.mem_cons_of_mem _ hy)).1, fun e => hx (e ▸ hy),
          (this.mp (List.mem_cons_of_mem _ hy)).2⟩
      · rintro ⟨hc, hne, hyD⟩
        exact (List.mem_cons.mp (this.mpr ⟨hc, hyD⟩)).resolve_left hne

/-- **What the search looks for.** -/
theorem solvable_iff {A : Acceptor S ℕ} {es : List Mark} (hp : Paired es) {D : Finset ℕ} {s : S} :
    Solvable A es D s ↔ ∃ L, Finishes A es D s L :=
  ⟨Solvable.finishes hp, fun ⟨_, h⟩ => h.solvable hp⟩

/-! ## 3. The search -/

/-- What the search knows: the operations it has let go, last first, each with the state before
    it; the state; the sets and states it has entered; and what is left of the calls to try. -/
structure Probe (S : Type) where
  path : List (ℕ × S)
  state : S
  seen : List (Finset ℕ × S)
  rest : List Mark

/-- The operations that have gone. -/
def gone (path : List (ℕ × S)) : Finset ℕ := (path.map Prod.fst).toFinset

theorem gone_cons (x : ℕ) (s : S) (path : List (ℕ × S)) :
    gone ((x, s) :: path) = insert x (gone path) := by
  simp [gone]

section Probe

variable (A : Acceptor S ℕ) (same : S → S → Bool) (es : List Mark)

/-- Has the set been entered with the same state? -/
def Probe.known (a : Probe S) (D : Finset ℕ) (s : S) : Bool :=
  a.seen.any fun p => decide (D = p.1) && same s p.2

/-- **One round.** -/
def probe (a : Probe S) : Option (Probe S ⊕ Bool) :=
  if remaining es (gone a.path) = [] then some (.inr true)
  else
    match a.rest with
    | [] => none
    | .call x :: rest =>
        match A.step a.state x with
        | none => some (.inl { a with rest := rest })
        | some s' =>
            if a.known same (insert x (gone a.path)) s' then some (.inl { a with rest := rest })
            else
              some (.inl
                { path := (x, a.state) :: a.path
                  state := s'
                  seen := (insert x (gone a.path), s') :: a.seen
                  rest := remaining es (insert x (gone a.path)) })
    | .ret _ :: _ =>
        match a.path with
        | [] => some (.inr false)
        | (x, s) :: path =>
            some (.inl
              { path := path
                state := s
                seen := a.seen
                rest := ((remaining es (gone path)).dropWhile (· ≠ .call x)).tail })

/-- Where the search goes on after a call. -/
theorem tail_dropWhile_call {l₁ l₂ : List Mark} {x : ℕ} (hnd : (l₁ ++ .call x :: l₂).Nodup) :
    ((l₁ ++ .call x :: l₂).dropWhile (· ≠ .call x)).tail = l₂ := by
  rw [List.dropWhile_append_of_pos fun e he => ?_]
  · simp
  · refine decide_eq_true fun heq => ?_
    exact (List.nodup_append.mp hnd).2.2 e he _ List.mem_cons_self heq

/-- Before the first round. -/
def Probe.start : Probe S := ⟨[], A.init, [], remaining es ∅⟩

/-- States that are the same take the same operations, to states that are the same. -/
structure Congruence : Prop where
  refl : ∀ s, same s s = true
  step : ∀ s t x s', same s t = true → A.step s x = some s' →
    ∃ t', A.step t x = some t' ∧ same s' t' = true

variable {A same es}

theorem Solvable.congr (hc : Congruence A same) {D : Finset ℕ} {s t : S} (h : Solvable A es D s)
    (hst : same s t = true) : Solvable A es D t := by
  induction h generalizing t with
  | done D s h => exact .done D t h
  | next D s s' x hx hs _ ih =>
      obtain ⟨t', ht, hst'⟩ := hc.step s t x s' hst hs
      exact .next D t t' x hx ht (ih hst')

/-! ## 4. The invariant -/

/-- Calls that lead nowhere. -/
def Tried (A : Acceptor S ℕ) (es : List Mark) (D : Finset ℕ) (s : S) (tried : List Mark) : Prop :=
  ∀ e ∈ tried, ∃ y, e = .call y ∧ ∀ s', A.step s y = some s' → ¬ Solvable A es (insert y D) s'

theorem Tried.isCall {D : Finset ℕ} {s : S} {tried : List Mark} (h : Tried A es D s tried) :
    ∀ e ∈ tried, e.isCall = true := by
  intro e he
  obtain ⟨y, rfl, _⟩ := h e he
  rfl

theorem Tried.concat {D : Finset ℕ} {s : S} {tried : List Mark} (h : Tried A es D s tried) {x : ℕ}
    (hdead : ∀ s', A.step s x = some s' → ¬ Solvable A es (insert x D) s') :
    Tried A es D s (tried ++ [.call x]) := by
  intro e he
  rcases List.mem_append.mp he with he | he
  · exact h e he
  · exact ⟨x, List.mem_singleton.mp he, hdead⟩

/-- What has gone could go, and what was tried before leads nowhere. -/
inductive Trail (A : Acceptor S ℕ) (es : List Mark) : List (ℕ × S) → S → Prop where
  | nil : Trail A es [] A.init
  | cons (path : List (ℕ × S)) (s s' : S) (x : ℕ) (tried more : List Mark)
      (h : Trail A es path s) (hrem : remaining es (gone path) = tried ++ .call x :: more)
      (ht : Tried A es (gone path) s tried) (hs : A.step s x = some s') :
      Trail A es ((x, s) :: path) s'

/-- The sets and states along the way. -/
def visits : List (ℕ × S) → S → List (Finset ℕ × S)
  | [], _ => []
  | (x, s) :: path, s' => (gone ((x, s) :: path), s') :: visits path s

/-- **Everything tried leads nowhere**: if a return is next, nothing does. -/
theorem not_solvable_of_tried {D : Finset ℕ} {s : S} {tried more : List Mark} {x : ℕ}
    (hrem : remaining es D = tried ++ .ret x :: more) (ht : Tried A es D s tried) :
    ¬ Solvable A es D s := by
  intro h
  cases h with
  | done _ _ h =>
      rw [hrem] at h
      simp at h
  | next _ _ s' y hy hs h =>
      obtain ⟨cs, more', hrem', hcs⟩ := hy
      -- the calls in front of the first return are those that were tried
      have hmem : Mark.call y ∈ tried := by
        rw [hrem] at hrem'
        rcases List.append_eq_append_iff.mp hrem' with ⟨l, rfl, hl⟩ | ⟨l, rfl, hl⟩
        · cases l with
          | nil => cases hl
          | cons z l =>
              cases hl
              cases hcs (.ret x) (by simp)
        · cases l with
          | nil => cases hl
          | cons z l =>
              cases hl
              simp
      obtain ⟨z, hz, hdead⟩ := ht _ hmem
      cases hz
      exact hdead s' hs h

theorem Trail.solvable {path : List (ℕ × S)} {s : S} (h : Trail A es path s)
    (hs : Solvable A es (gone path) s) : Solvable A es ∅ A.init := by
  induction h with
  | nil => exact hs
  | cons path s s' x tried more _ hrem ht hstep ih =>
      rw [gone_cons] at hs
      exact ih (.next _ _ _ x ⟨tried, more, hrem, ht.isCall⟩ hstep hs)

theorem Trail.nil_state {s : S} (h : Trail A es [] s) : s = A.init := by
  cases h
  rfl

theorem Trail.back {path : List (ℕ × S)} {s s' : S} {x : ℕ} (h : Trail A es ((x, s) :: path) s') :
    Trail A es path s ∧ A.step s x = some s' ∧ ∃ tried more,
      remaining es (gone path) = tried ++ .call x :: more ∧ Tried A es (gone path) s tried := by
  cases h with
  | cons _ _ _ _ tried more h hrem ht hs => exact ⟨h, hs, tried, more, hrem, ht⟩

theorem Trail.mem {path : List (ℕ × S)} {s : S} (h : Trail A es path s) :
    (path.map Prod.fst).Nodup ∧ ∀ x ∈ path.map Prod.fst, .call x ∈ es := by
  induction h with
  | nil => exact ⟨List.nodup_nil, nofun⟩
  | cons path s s' x tried more _ hrem _ _ ih =>
      obtain ⟨hx, hD⟩ := mem_remaining.mp
        (show Mark.call x ∈ remaining es (gone path) by rw [hrem]; simp)
      refine ⟨List.nodup_cons.mpr ⟨fun hm => hD (List.mem_toFinset.mpr hm), ih.1⟩, fun y hy => ?_⟩
      rcases List.mem_cons.mp hy with rfl | hy
      · exact hx
      · exact ih.2 y hy

theorem Trail.run {path : List (ℕ × S)} {s : S} (h : Trail A es path s) :
    A.run A.init (path.map Prod.fst).reverse = some s := by
  induction h with
  | nil => rfl
  | cons path s s' x tried more _ _ _ hs ih =>
      rw [List.map_cons, List.reverse_cons, A.run_append, ih]
      simp [Acceptor.run, hs]

theorem visits_subset {path : List (ℕ × S)} : ∀ {s : S} {p : Finset ℕ × S},
    p ∈ visits path s → p.1 ⊆ gone path := by
  induction path with
  | nil => exact nofun
  | cons y path ih =>
      intro s p hp
      rcases List.mem_cons.mp hp with rfl | hp
      · exact Finset.Subset.refl _
      · refine (ih hp).trans ?_
        rw [gone_cons]
        exact Finset.subset_insert _ _

theorem exists_of_forall₂ {α β : Type} {R : α → β → Prop} {xs : List α} {ys : List β}
    (h : List.Forall₂ R xs ys) {x : α} (hx : x ∈ xs) : ∃ y ∈ ys, R x y := by
  induction h with
  | nil => cases hx
  | cons hR _ ih =>
      rcases List.mem_cons.mp hx with rfl | hx
      · exact ⟨_, List.mem_cons_self, hR⟩
      · obtain ⟨y, hy, hR⟩ := ih hx
        exact ⟨y, List.mem_cons_of_mem _ hy, hR⟩

/-- **The invariant.** What was entered is on the way or leads nowhere; and what was entered was
    entered by different orders of operations, so there is an end to it. -/
structure Probe.Inv (A : Acceptor S ℕ) (es : List Mark) (a : Probe S) : Prop where
  trail : Trail A es a.path a.state
  tried : ∃ tried, remaining es (gone a.path) = tried ++ a.rest ∧
    Tried A es (gone a.path) a.state tried
  seen : ∀ p ∈ a.seen, p ∈ visits a.path a.state ∨ ¬ Solvable A es p.1 p.2
  orders : ∃ ls : List (List ℕ), ls.Nodup ∧ (∀ l ∈ ls, l.Nodup ∧ ∀ x ∈ l, .call x ∈ es) ∧
    List.Forall₂ (fun l p => p.1 = l.toFinset ∧ A.run A.init l = some p.2) ls a.seen

theorem inv_start : (Probe.start A es).Inv A es where
  trail := .nil
  tried := ⟨[], rfl, nofun⟩
  seen := nofun
  orders := ⟨[], List.nodup_nil, nofun, .nil⟩

/-- The call at the front leads nowhere. -/
theorem Probe.Inv.skip {a : Probe S} (h : a.Inv A es) {x : ℕ} {rest : List Mark}
    (hrest : a.rest = .call x :: rest)
    (hdead : ∀ s', A.step a.state x = some s' → ¬ Solvable A es (insert x (gone a.path)) s') :
    Probe.Inv A es { a with rest := rest } where
  trail := h.trail
  tried := by
    obtain ⟨tried, hrem, ht⟩ := h.tried
    exact ⟨tried ++ [.call x], by simp [hrem, hrest], ht.concat hdead⟩
  seen := h.seen
  orders := h.orders

theorem Probe.Inv.call_left {a : Probe S} (h : a.Inv A es) {x : ℕ} {rest : List Mark}
    (hrest : a.rest = .call x :: rest) : x ∉ gone a.path := by
  obtain ⟨tried, hrem, _⟩ := h.tried
  exact (mem_remaining.mp (show Mark.call x ∈ remaining es (gone a.path) by
    rw [hrem, hrest]; simp)).2

/-- What is known leads nowhere: it is not on the way, where `x` has not gone. -/
theorem Probe.Inv.dead_of_known (hc : Congruence A same) {a : Probe S} (h : a.Inv A es) {x : ℕ}
    (hx : x ∉ gone a.path) {s' : S} (hk : a.known same (insert x (gone a.path)) s' = true) :
    ¬ Solvable A es (insert x (gone a.path)) s' := by
  obtain ⟨p, hp, heq⟩ := List.any_eq_true.mp hk
  obtain ⟨hD, hsame⟩ := (by simpa using heq : insert x (gone a.path) = p.1 ∧ same s' p.2 = true)
  rw [hD]
  intro hs
  rcases h.seen p hp with hv | hdead
  · refine hx (visits_subset hv ?_)
    rw [← hD]
    exact Finset.mem_insert_self _ _
  · exact hdead (hs.congr hc hsame)

theorem Probe.Inv.push (hc : Congruence A same) {a : Probe S} (h : a.Inv A es) {x : ℕ}
    {rest : List Mark} (hrest : a.rest = .call x :: rest) {s' : S} (hs : A.step a.state x = some s')
    (hk : a.known same (insert x (gone a.path)) s' = false) :
    Probe.Inv A es
      { path := (x, a.state) :: a.path
        state := s'
        seen := (insert x (gone a.path), s') :: a.seen
        rest := remaining es (insert x (gone a.path)) } := by
  obtain ⟨tried, hrem, ht⟩ := h.tried
  rw [hrest] at hrem
  have htrail := Trail.cons _ _ _ _ _ _ h.trail hrem ht hs
  refine ⟨htrail, ⟨[], by rw [gone_cons]; rfl, nofun⟩, fun p hp => ?_, ?_⟩
  · rcases List.mem_cons.mp hp with rfl | hp
    · refine Or.inl (List.mem_cons.mpr (Or.inl ?_))
      rw [gone_cons]
    · exact (h.seen p hp).imp_left (List.mem_cons_of_mem _)
  · obtain ⟨ls, hnd, hls, hall⟩ := h.orders
    have hnew : insert x (gone a.path) = (((x, a.state) :: a.path).map Prod.fst).reverse.toFinset := by
      rw [List.toFinset_reverse, ← gone_cons x a.state]
      rfl
    refine ⟨_ :: ls, List.nodup_cons.mpr ⟨fun hm => ?_, hnd⟩, fun l hl => ?_,
      .cons ⟨hnew, htrail.run⟩ hall⟩
    · -- an order that was seen has led to this very set and state
      obtain ⟨p, hp, hD, hrun⟩ := exists_of_forall₂ hall hm
      have hstate : p.2 = s' := Option.some.inj (hrun.symm.trans htrail.run)
      rw [Probe.known, List.any_eq_false] at hk
      refine hk p hp ?_
      rw [hD, ← hnew, hstate]
      simp [hc.refl]
    · rcases List.mem_cons.mp hl with rfl | hl
      · exact ⟨List.nodup_reverse.mpr htrail.mem.1,
          fun y hy => htrail.mem.2 y (List.mem_reverse.mp hy)⟩
      · exact hls l hl

theorem Probe.Inv.pop (hp : Paired es) {a : Probe S} (h : a.Inv A es) {y : ℕ} {more : List Mark}
    (hrest : a.rest = .ret y :: more) {x : ℕ} {s : S} {path : List (ℕ × S)}
    (hpath : a.path = (x, s) :: path) :
    Probe.Inv A es
      { path := path
        state := s
        seen := a.seen
        rest := ((remaining es (gone path)).dropWhile (· ≠ .call x)).tail } := by
  obtain ⟨tried, hrem, ht⟩ := h.tried
  have hdead : ¬ Solvable A es (gone a.path) a.state := by
    rw [hrest] at hrem
    exact not_solvable_of_tried hrem ht
  have htrail := h.trail
  rw [hpath] at htrail hdead
  rw [gone_cons] at hdead
  obtain ⟨hback, hs, tried', more', hrem', ht'⟩ := htrail.back
  -- the search goes on behind the call of `x`
  have hrest' : ((remaining es (gone path)).dropWhile (· ≠ .call x)).tail = more' := by
    have hnd : (remaining es (gone path)).Nodup := hp.nodup.filter _
    rw [hrem'] at hnd ⊢
    exact tail_dropWhile_call hnd
  refine ⟨hback, ⟨tried' ++ [.call x], ?_, ht'.concat fun s' hs' => ?_⟩, fun p hp' => ?_, h.orders⟩
  · dsimp only
    rw [hrest', hrem', List.append_assoc, List.singleton_append]
  · rw [hs, Option.some.injEq] at hs'
    rwa [← hs']
  · rcases h.seen p hp' with hv | hv
    · rw [hpath] at hv
      rcases List.mem_cons.mp hv with rfl | hv
      · right
        rwa [gone_cons]
      · exact Or.inl hv
    · exact Or.inr hv

/-- There is always something to look at. -/
theorem Probe.Inv.rest_ne (hp : Paired es) {a : Probe S} (h : a.Inv A es)
    (hne : remaining es (gone a.path) ≠ []) : a.rest ≠ [] := by
  intro hnil
  obtain ⟨tried, hrem, ht⟩ := h.tried
  rw [hnil, List.append_nil] at hrem
  obtain ⟨e, he⟩ := List.exists_mem_of_ne_nil _ hne
  obtain ⟨hmem, hD⟩ := mem_remaining.mp he
  have hret : Mark.ret e.id ∈ remaining es (gone a.path) :=
    mem_remaining.mpr ⟨(hp.order e hmem).mem.2, hD⟩
  rw [hrem] at hret
  cases ht.isCall _ hret

/-! ## 5. The answer -/

/-- All orders of some of the operations. -/
def allOrders (es : List Mark) : List (List ℕ) :=
  (es.map Mark.id).sublists.flatMap List.permutations

theorem Probe.Inv.seen_le {a : Probe S} (h : a.Inv A es) :
    a.seen.length ≤ (allOrders es).length := by
  obtain ⟨ls, hnd, hls, hall⟩ := h.orders
  rw [← hall.length_eq]
  refine (List.subperm_of_subset hnd fun l hl => ?_).length_le
  obtain ⟨hl, hmem⟩ := hls l hl
  have hids : l ⊆ es.map Mark.id := fun x hx => List.mem_map.mpr ⟨.call x, hmem x hx, rfl⟩
  obtain ⟨l', hperm, hsub⟩ := List.subperm_of_subset hl hids
  exact List.mem_flatMap.mpr ⟨l', List.mem_sublists.mpr hsub, List.mem_permutations.mpr hperm.symm⟩

/-- What falls with every round. -/
def Probe.weight (es : List Mark) (a : Probe S) : ℕ ×ₗ ℕ ×ₗ ℕ :=
  toLex ((allOrders es).length - a.seen.length, toLex (a.path.length, a.rest.length))

/-- **The step lemma**: a round gives the answer, or keeps the invariant and goes down. -/
theorem Probe.Inv.round (hp : Paired es) (hc : Congruence A same) {a : Probe S} (h : a.Inv A es) :
    (∃ b, probe A same es a = some (.inr b) ∧ (b = true ↔ Solvable A es ∅ A.init)) ∨
      ∃ a', probe A same es a = some (.inl a') ∧ a'.Inv A es ∧ a'.weight es < a.weight es := by
  by_cases hrem : remaining es (gone a.path) = []
  · refine Or.inl ⟨true, by rw [probe, if_pos hrem], fun _ => ?_, fun _ => rfl⟩
    exact h.trail.solvable (.done _ _ hrem)
  · rcases hrest : a.rest with _ | ⟨e, rest⟩
    · exact absurd hrest (h.rest_ne hp hrem)
    · cases e with
      | call x =>
          right
          have hskip : Probe.weight es { a with rest := rest } < a.weight es := by
            simp [Probe.weight, Prod.Lex.toLex_lt_toLex, hrest]
          cases hs : A.step a.state x with
          | none =>
              refine ⟨_, by rw [probe, if_neg hrem, hrest]; simp only [hs], h.skip hrest ?_, hskip⟩
              rw [hs]
              exact nofun
          | some s' =>
              cases hk : a.known same (insert x (gone a.path)) s' with
              | true =>
                  refine ⟨_, by rw [probe, if_neg hrem, hrest]; simp only [hs, hk, if_true],
                    h.skip hrest fun t ht => ?_, hskip⟩
                  rw [hs, Option.some.injEq] at ht
                  subst ht
                  exact h.dead_of_known hc (h.call_left hrest) hk
              | false =>
                  have hpush := h.push hc hrest hs hk
                  refine ⟨_, by
                    rw [probe, if_neg hrem, hrest]
                    simp only [hs, hk, Bool.false_eq_true, if_false], hpush, ?_⟩
                  have hle := hpush.seen_le
                  rw [List.length_cons] at hle
                  rw [Probe.weight, Probe.weight, Prod.Lex.toLex_lt_toLex]
                  left
                  dsimp only
                  rw [List.length_cons]
                  omega
      | ret y =>
          cases hpath : a.path with
          | nil =>
              refine Or.inl ⟨false, by rw [probe, if_neg hrem, hrest]; simp only [hpath], nofun,
                fun hs => ?_⟩
              obtain ⟨tried, hrem', ht⟩ := h.tried
              have htrail := h.trail
              rw [hrest] at hrem'
              rw [hpath] at hrem' ht htrail
              rw [← htrail.nil_state] at hs
              exact absurd hs (not_solvable_of_tried hrem' ht)
          | cons q path =>
              obtain ⟨x, s⟩ := q
              refine Or.inr ⟨_, by rw [probe, if_neg hrem, hrest]; simp only [hpath],
                h.pop hp hrest hpath, ?_⟩
              rw [Probe.weight, Probe.weight, Prod.Lex.toLex_lt_toLex]
              right
              simp [Prod.Lex.toLex_lt_toLex, hpath]

/-- **The search comes to an end, and says whether the operations can be ordered.** -/
theorem probe_returns (hp : Paired es) (hc : Congruence A same) :
    ∃ k b, Returns (probe A same es) (Probe.start A es) k b ∧
      (b = true ↔ Solvable A es ∅ A.init) := by
  suffices hall : ∀ a : Probe S, a.Inv A es → ∃ k b, Returns (probe A same es) a k b ∧
      (b = true ↔ Solvable A es ∅ A.init) from hall _ inv_start
  intro a
  induction hw : a.weight es using WellFoundedLT.induction generalizing a with
  | _ w ih =>
      intro h
      rcases h.round hp hc with ⟨b, hb, hiff⟩ | ⟨a', ha', hinv, hlt⟩
      · exact ⟨1, b, .done _ _ hb, hiff⟩
      · obtain ⟨k, b, hr, hiff⟩ := ih _ (hw ▸ hlt) a' rfl hinv
        exact ⟨k + 1, b, .next _ _ _ _ ha' hr, hiff⟩

end Probe

/-! ## 6. Other numbers -/

section Rename

variable {A A' : Acceptor S ℕ} {es : List Mark} {f : ℕ → ℕ} {s : S}

def Mark.rename (f : ℕ → ℕ) : Mark → Mark
  | .call x => .call (f x)
  | .ret x => .ret (f x)

/-- The operations of a list keep apart under their new numbers. -/
def Renames (f : ℕ → ℕ) (es : List Mark) : Prop :=
  ∀ e ∈ es, ∀ e' ∈ es, f e.id = f e'.id → e.id = e'.id

theorem Renames.call_mem (h : Renames f es) {x : ℕ} (hx : ∃ e ∈ es, e.id = x) :
    .call (f x) ∈ es.map (Mark.rename f) ↔ .call x ∈ es := by
  obtain ⟨e, he, rfl⟩ := hx
  constructor
  · intro hmem
    obtain ⟨e', he', heq⟩ := List.mem_map.mp hmem
    cases e' with
    | ret y => cases heq
    | call y => exact h e he _ he' (Mark.call.inj heq).symm ▸ he'
  · intro hmem
    exact List.mem_map.mpr ⟨_, hmem, rfl⟩

theorem Renames.before (h : Renames f es) {x y : ℕ} (hx : ∃ e ∈ es, e.id = x)
    (hy : ∃ e ∈ es, e.id = y) :
    Before (es.map (Mark.rename f)) (.ret (f y)) (.call (f x)) ↔ Before es (.ret y) (.call x) := by
  obtain ⟨e, he, rfl⟩ := hx
  obtain ⟨e', he', rfl⟩ := hy
  rw [before_map]
  constructor
  · rintro ⟨a, b, hab, ha, hb⟩
    obtain ⟨hma, hmb⟩ := hab.mem
    cases a with
    | call _ => cases ha
    | ret u =>
        cases b with
        | ret _ => cases hb
        | call v =>
            have hu : u = e'.id := h _ hma _ he' (Mark.ret.inj ha)
            have hv : v = e.id := h _ hmb _ he (Mark.call.inj hb)
            rwa [hu, hv] at hab
  · intro hab
    exact ⟨_, _, hab, rfl, rfl⟩

/-- What comes in pairs under new numbers does so under the old ones. -/
theorem Renames.paired (h : Renames f es) (hp : Paired (es.map (Mark.rename f))) : Paired es := by
  refine ⟨hp.nodup.of_map _, fun e he => ?_⟩
  have hid : (e.rename f).id = f e.id := by cases e <;> rfl
  obtain ⟨a, b, hab, ha, hb⟩ := before_map.mp (hp.order _ (List.mem_map_of_mem he))
  rw [hid] at ha hb
  obtain ⟨hma, hmb⟩ := hab.mem
  cases a with
  | ret _ => cases ha
  | call u =>
      cases b with
      | call _ => cases hb
      | ret v =>
          have hu : u = e.id := h _ hma _ he (Mark.call.inj ha)
          have hv : v = e.id := h _ hmb _ he (Mark.ret.inj hb)
          rwa [hu, hv] at hab

/-- All operations, under their new numbers. -/
theorem Renames.calls (h : Renames f es) {L : List ℕ} (hL : ∀ x ∈ L, ∃ e ∈ es, e.id = x) :
    (∀ y, y ∈ L.map f ↔ .call y ∈ es.map (Mark.rename f)) ↔ ∀ x, x ∈ L ↔ .call x ∈ es := by
  constructor
  · intro hy x
    refine ⟨fun hx => (h.call_mem (hL x hx)).mp ((hy (f x)).mp (List.mem_map_of_mem hx)),
      fun hx => ?_⟩
    obtain ⟨x', hx', heq⟩ := List.mem_map.mp ((hy (f x)).mpr
      ((h.call_mem ⟨_, hx, rfl⟩).mpr hx))
    obtain ⟨e, he, rfl⟩ := hL x' hx'
    rwa [h e he _ hx heq] at hx'
  · intro hx y
    constructor
    · intro hy
      obtain ⟨x, hxL, rfl⟩ := List.mem_map.mp hy
      exact (h.call_mem (hL x hxL)).mpr ((hx x).mp hxL)
    · intro hy
      obtain ⟨e, he, heq⟩ := List.mem_map.mp hy
      cases e with
      | ret _ => cases heq
      | call x => exact Mark.call.inj heq ▸ List.mem_map_of_mem ((hx x).mpr he)

/-- An order of the operations, under their new numbers. -/
theorem Renames.finishes (h : Renames f es)
    (hstep : ∀ s, ∀ e ∈ es, A.step s e.id = A'.step s (f e.id)) {L : List ℕ}
    (hL : ∀ x ∈ L, ∃ e ∈ es, e.id = x) :
    Finishes A' (es.map (Mark.rename f)) ∅ s (L.map f) ↔ Finishes A es ∅ s L := by
  have hrel : List.Forall₂ (fun x y => y = f x ∧ ∃ e ∈ es, e.id = x) L (L.map f) := by
    rw [List.forall₂_map_right_iff, List.forall₂_same]
    exact fun x hx => ⟨rfl, hL x hx⟩
  have hinj : ∀ x ∈ L, ∀ y ∈ L, f x = f y → x = y := by
    intro x hx y hy heq
    obtain ⟨e, he, rfl⟩ := hL x hx
    obtain ⟨e', he', rfl⟩ := hL y hy
    exact h e he e' he' heq
  have hrun : A.run s L = A'.run s (L.map f) := by
    refine run_forall₂ (fun s x y hxy => ?_) hrel
    obtain ⟨rfl, e, he, rfl⟩ := hxy
    exact hstep s e he
  have hord : (L.Pairwise fun x y => ¬ Before es (.ret y) (.call x)) ↔
      (L.map f).Pairwise fun x y => ¬ Before (es.map (Mark.rename f)) (.ret y) (.call x) := by
    refine pairwise_forall₂ hrel fun x y x' y' hxy hxy' => not_congr ?_
    obtain ⟨rfl, hx⟩ := hxy
    obtain ⟨rfl, hx'⟩ := hxy'
    exact (h.before hx hx').symm
  have hall := h.calls hL
  constructor
  · rintro ⟨hnd, hmem, hpair, hr⟩
    simp only [Finset.notMem_empty, not_false_eq_true, and_true] at hmem
    exact ⟨hnd.of_map f, by simpa using hall.mp hmem, hord.mpr hpair, by rwa [hrun]⟩
  · rintro ⟨hnd, hmem, hpair, hr⟩
    simp only [Finset.notMem_empty, not_false_eq_true, and_true] at hmem
    refine ⟨hnd.map_on hinj, fun y => ?_, hord.mp hpair, by rwa [← hrun]⟩
    rw [hall.mpr hmem y]
    simp only [Finset.notMem_empty, not_false_eq_true, and_true]

/-- Numbers that all come from somewhere. -/
theorem exists_map_eq {P : ℕ → Prop} : ∀ {M : List ℕ}, (∀ y ∈ M, ∃ x, P x ∧ f x = y) →
    ∃ L : List ℕ, (∀ x ∈ L, P x) ∧ L.map f = M
  | [], _ => ⟨[], fun _ hx => absurd hx List.not_mem_nil, rfl⟩
  | y :: M, h => by
      obtain ⟨L, hL, rfl⟩ := exists_map_eq fun y hy => h y (List.mem_cons_of_mem _ hy)
      obtain ⟨x, hx, rfl⟩ := h y List.mem_cons_self
      exact ⟨x :: L, List.forall_mem_cons.mpr ⟨hx, hL⟩, rfl⟩

/-- **The numbers of the operations do not matter.** -/
theorem exists_finishes_rename (h : Renames f es)
    (hstep : ∀ s, ∀ e ∈ es, A.step s e.id = A'.step s (f e.id)) :
    (∃ L, Finishes A' (es.map (Mark.rename f)) ∅ s L) ↔ ∃ L, Finishes A es ∅ s L := by
  constructor
  · rintro ⟨M, hM⟩
    obtain ⟨L, hL, rfl⟩ : ∃ L : List ℕ, (∀ x ∈ L, ∃ e ∈ es, e.id = x) ∧ L.map f = M := by
      refine exists_map_eq fun y hy => ?_
      obtain ⟨e, he, heq⟩ := List.mem_map.mp ((hM.all y).mp hy).1
      cases e with
      | ret _ => cases heq
      | call x => exact ⟨x, ⟨_, he, rfl⟩, Mark.call.inj heq⟩
    exact ⟨L, (h.finishes hstep hL).mp hM⟩
  · rintro ⟨L, hL⟩
    exact ⟨L.map f, (h.finishes hstep fun x hx => ⟨_, ((hL.all x).mp hx).1, rfl⟩).mpr hL⟩

end Rename

end Mit6824.Lib
