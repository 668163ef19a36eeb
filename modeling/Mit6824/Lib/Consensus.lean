/-
  File:      Mit6824/Lib/Consensus.lean
  Subject:   A LEADER-BASED REPLICATED LOG, as a board of facts. No message, no process state.

  The board records what matters for agreement: the term and the (whole) log of each member, the
  ballots, the leader and the LINE of each term, how far a member has acknowledged a line, and
  which positions of a line a leader has fixed. Six moves change it: a member enters a later
  term, votes, is crowned leader by a quorum of ballots, extends its line, accepts a beginning of
  the line of its term, and a leader fixes a position a quorum has acknowledged.

  * `Board.Inv` -- the invariant, kept by each of the six moves; what speaks only of facts that are
    never taken back is carried over once for all of them (`Inv.ballot_safe_of_grows` and the like);
  * `Inv.fixed_carried` -- **leader completeness**: what is fixed in a term stands at the start
    of the line of every later term, whenever its leader was crowned;
  * `Inv.settled_compare` -- two settled lists are never in conflict;
  * `Inv.settled_accept` -- a member keeps what is settled when it accepts.

  The carrier of the induction is `Safe t i u`: no leader of a term between `t` and `u` has lost
  the first `i + 1` entries of the line of `t`. Ballots and logs are right UNDER that hypothesis
  (`ballot_safe`, `log_safe`); the hypothesis itself is then proved by induction on the term.
-/
import Mathlib.Data.Finset.Basic
import Mathlib.Data.Set.Basic
import Mathlib.Data.Fintype.Card
import Mathlib.Logic.Function.Basic
import Mit6824.Lib.TermLog

namespace Mit6824.Lib

/-! ## Tables with two keys -/

section Table

variable {A B C : Type} [DecidableEq A] [DecidableEq B]

theorem update_entry_self (f : A → B → C) (x : A) (y : B) (z : C) :
    Function.update f x (Function.update (f x) y z) x y = z := by
  rw [Function.update_self, Function.update_self]

/-- One entry is replaced; the others stay. -/
theorem update_entry_of_ne (f : A → B → C) {x x' : A} {y y' : B} (z : C)
    (hne : x' ≠ x ∨ y' ≠ y) :
    Function.update f x (Function.update (f x) y z) x' y' = f x' y' := by
  by_cases hx : x' = x
  · subst hx
    rw [Function.update_self, Function.update_of_ne (hne.resolve_left fun h => h rfl)]
  · rw [Function.update_of_ne hx]

end Table

/-- Quorums of members: any two of them meet. -/
structure Quorums (V : Type) where
  is : Finset V → Prop
  meet : ∀ {P Q}, is P → is Q → ∃ v, v ∈ P ∧ v ∈ Q

/-- The majorities of a finite set of members. -/
def majorities (V : Type) [Fintype V] [DecidableEq V] : Quorums V where
  is Q := Fintype.card V / 2 + 1 ≤ Q.card
  meet {P Q} hP hQ := by
    by_contra hno
    have hd : Disjoint P Q := Finset.disjoint_left.mpr fun v h1 h2 => hno ⟨v, h1, h2⟩
    have h1 := Finset.card_union_of_disjoint hd
    have h2 := Finset.card_le_univ (P ∪ Q)
    omega

/-- A ballot: whom it names, the last term and length the candidate claimed, and the log the
    voter held. -/
structure Ballot (V E : Type) where
  cand : V
  claim : ℕ × ℕ
  held : List E

/-- The board. -/
structure Board (V E : Type) where
  term : V → ℕ
  log : V → List E
  vote : ℕ → V → Option (Ballot V E)
  lead : ℕ → Option V
  start : ℕ → List E
  line : ℕ → List E
  chose : ℕ → Finset V
  ack : ℕ → V → ℕ
  fixed : Set (ℕ × ℕ)

namespace Board

variable {V E : Type}

/-! ## 1. The moves -/

/-- All members in term 0 with the same log `base` (whose entries have term 0). -/
def init (base : List E) : Board V E where
  term _ := 0
  log _ := base
  vote _ _ := none
  lead _ := none
  start _ := []
  line t := if t = 0 then base else []
  chose _ := ∅
  ack _ _ := 0
  fixed := ∅

section Moves

variable [DecidableEq V]

def enter (a : Board V E) (v : V) (t : ℕ) : Board V E :=
  { a with term := Function.update a.term v t }

def cast (a : Board V E) (v : V) (b : Ballot V E) : Board V E :=
  { a with
    vote := Function.update a.vote (a.term v)
      (Function.update (a.vote (a.term v)) v (some b)) }

def crown (a : Board V E) (c : V) (Q : Finset V) : Board V E :=
  { a with
    lead := Function.update a.lead (a.term c) (some c)
    start := Function.update a.start (a.term c) (a.log c)
    line := Function.update a.line (a.term c) (a.log c)
    chose := Function.update a.chose (a.term c) Q
    ack := Function.update a.ack (a.term c)
      (Function.update (a.ack (a.term c)) c (a.log c).length) }

def extend (a : Board V E) (c : V) (e : E) : Board V E :=
  { a with
    log := Function.update a.log c (a.log c ++ [e])
    line := Function.update a.line (a.term c) (a.log c ++ [e])
    ack := Function.update a.ack (a.term c)
      (Function.update (a.ack (a.term c)) c ((a.log c).length + 1)) }

open Classical in
/-- The log of a member that accepts the first `k` entries of the line of its term: it changes
    only when it does not hold them yet. -/
noncomputable def accepted (a : Board V E) (v : V) (k : ℕ) : List E :=
  if (a.line (a.term v)).take k <+: a.log v then a.log v else (a.line (a.term v)).take k

noncomputable def accept (a : Board V E) (v : V) (k : ℕ) : Board V E :=
  { a with
    log := Function.update a.log v (a.accepted v k)
    ack := Function.update a.ack (a.term v)
      (Function.update (a.ack (a.term v)) v (max (a.ack (a.term v) v) k)) }

def fix (a : Board V E) (t i : ℕ) : Board V E := { a with fixed := insert (t, i) a.fixed }

/-- Enter `t`, unless the member is there already or beyond. -/
def advance (a : Board V E) (v : V) (t : ℕ) : Board V E := if a.term v < t then a.enter v t else a

end Moves

/-! ## 2. Growth and the invariant -/

/-- **What a board never takes back.** -/
structure Grows (a a' : Board V E) : Prop where
  term : ∀ v, a.term v ≤ a'.term v
  vote : ∀ t v b, a.vote t v = some b → a'.vote t v = some b
  lead : ∀ t c, a.lead t = some c → a'.lead t = some c ∧ a'.start t = a.start t
  line : ∀ t, a.line t <+: a'.line t
  ack : ∀ t v, a.ack t v ≤ a'.ack t v
  fixed : a.fixed ⊆ a'.fixed

instance : Preorder (Board V E) where
  le := Grows
  le_refl a := ⟨fun _ => le_refl _, fun _ _ _ h => h, fun _ _ h => ⟨h, rfl⟩,
    fun _ => List.prefix_rfl, fun _ _ => le_refl _, fun _ h => h⟩
  le_trans a b c h h' := by
    refine ⟨fun v => le_trans (h.term v) (h'.term v), fun t v x hx => h'.vote t v x (h.vote t v x hx),
      fun t d hd => ?_, fun t => (h.line t).trans (h'.line t),
      fun t v => le_trans (h.ack t v) (h'.ack t v), fun x hx => h'.fixed (h.fixed hx)⟩
    obtain ⟨h1, h2⟩ := h.lead t d hd
    obtain ⟨h3, h4⟩ := h'.lead t d h1
    exact ⟨h3, h4.trans h2⟩

/-- No leader of a term strictly between `t` and `u` has lost the first `i + 1` entries of the
    line of `t`. -/
def Safe (a : Board V E) (t i u : ℕ) : Prop :=
  ∀ s, t < s → s < u → a.lead s ≠ none → (a.line t).take (i + 1) <+: a.start s

theorem Safe.le {a : Board V E} {t i u u' : ℕ} (h : a.Safe t i u) (hu : u' ≤ u) :
    a.Safe t i u' := fun s h1 h2 h3 => h s h1 (by omega) h3

/-- **The invariant of the board.** -/
structure Inv (term : E → ℕ) (qs : Quorums V) (base : List E) (a : Board V E) : Prop where
  base_term : ∀ e ∈ base, term e = 0
  line_zero : a.line 0 = base ∧ a.lead 0 = none
  base_log : ∀ v, base <+: a.log v
  agree_log : ∀ v, Agree term a.line (a.log v)
  agree_line : ∀ t, Agree term a.line (a.line t)
  line_le : ∀ t, ∀ e ∈ a.line t, term e ≤ t
  log_le : ∀ v, ∀ e ∈ a.log v, term e ≤ a.term v
  line_lead : ∀ t, t ≠ 0 → a.lead t = none → a.line t = []
  lead_term : ∀ t c, a.lead t = some c → t ≤ a.term c
  lead_log : ∀ t c, a.lead t = some c → a.term c = t → a.log c = a.line t
  start_line : ∀ t, a.lead t ≠ none → a.start t <+: a.line t
  start_lt : ∀ t, a.lead t ≠ none → ∀ e ∈ a.start t, term e < t
  start_base : ∀ t, a.lead t ≠ none → base <+: a.start t
  ballot : ∀ t v b, a.vote t v = some b →
    t ≤ a.term v ∧ Agree term a.line b.held ∧ UpToDate b.claim (lastOf term b.held)
  chosen : ∀ t c, a.lead t = some c → qs.is (a.chose t) ∧
    ∀ v ∈ a.chose t, ∃ b, a.vote t v = some b ∧ b.cand = c ∧ b.claim = lastOf term (a.start t)
  ack_len : ∀ t v, a.ack t v ≤ (a.line t).length
  ack_term : ∀ t v, 0 < a.ack t v → t ≤ a.term v ∧ a.lead t ≠ none
  fixed_ack : ∀ t i, (t, i) ∈ a.fixed → a.lead t ≠ none ∧
    (∃ e, (a.line t)[i]? = some e ∧ term e = t) ∧ ∃ Q, qs.is Q ∧ ∀ v ∈ Q, i < a.ack t v
  ballot_safe : ∀ t u v b i, t < u → a.vote u v = some b → (a.lead u = none ∨ v ∈ a.chose u) →
    i < a.ack t v → a.Safe t i u → (a.line t).take (i + 1) <+: b.held
  log_safe : ∀ t v i, i < a.ack t v → a.Safe t i (a.term v + 1) →
    (a.line t).take (i + 1) <+: a.log v

variable {term : E → ℕ} {qs : Quorums V} {base : List E} {a : Board V E}

theorem inv_init (hb : ∀ e ∈ base, term e = 0) : Inv term qs base (init base : Board V E) := by
  have hag : Agree term (init base : Board V E).line base := by
    intro i e hi
    rw [hb e (List.mem_of_getElem? hi)]
    exact List.take_prefix (i + 1) base
  have hline : ∀ t, ∀ e ∈ (init base : Board V E).line t, e ∈ base := by
    intro t e he
    by_cases ht : t = 0
    · simpa [init, ht] using he
    · simp [init, ht] at he
  refine ⟨hb, ⟨rfl, rfl⟩, fun _ => List.prefix_rfl, fun _ => hag, fun t => ?_, ?_, ?_, ?_, ?_, ?_,
    ?_, ?_, ?_, ?_, ?_, ?_, ?_, ?_, ?_, ?_⟩
  · by_cases ht : t = 0
    · subst ht; exact hag
    · intro i e hi; simp [init, ht] at hi
  · intro t e he
    rw [hb e (hline t e he)]
    exact Nat.zero_le t
  · intro v e he
    exact Nat.le_of_eq (hb e he)
  · intro t ht _
    simp [init, ht]
  all_goals intros; simp_all [init]

/-! ## 3. The moves keep the invariant -/

/-- A term that has a leader was not won by anyone else. -/
theorem Inv.lead_unique (h : Inv term qs base a) {t : ℕ} {c d : V} {Q : Finset V} (hQ : qs.is Q)
    (hbal : ∀ v ∈ Q, ∃ b, a.vote t v = some b ∧ b.cand = c) (hd : a.lead t = some d) : d = c := by
  obtain ⟨hQ', hall⟩ := h.chosen t d hd
  obtain ⟨v, hv, hv'⟩ := qs.meet hQ hQ'
  obtain ⟨b, hb, hbc⟩ := hbal v hv
  obtain ⟨b', hb', hbd, _⟩ := hall v hv'
  rw [hb] at hb'
  cases hb'
  exact hbd.symm.trans hbc

/-- The entries of a member in a term without a leader are older than the term. -/
theorem Inv.log_lt (h : Inv term qs base a) {c : V} (hpos : 0 < a.term c)
    (hnone : a.lead (a.term c) = none) : ∀ e ∈ a.log c, term e < a.term c := by
  intro e he
  refine lt_of_le_of_ne (h.log_le c e he) fun heq => ?_
  obtain ⟨i, hi⟩ := List.mem_iff_getElem?.mp he
  have h1 := h.agree_log c i e hi
  rw [heq, h.line_lead _ (by omega) hnone] at h1
  have hlt := (List.getElem?_eq_some_iff.mp hi).1
  have := h1.length_le
  rw [List.length_take, List.length_nil] at this
  omega

theorem Inv.ack_zero (h : Inv term qs base a) {t : ℕ} (hnone : a.lead t = none) (v : V) :
    a.ack t v = 0 := by
  rcases Nat.eq_zero_or_pos (a.ack t v) with h0 | h0
  · exact h0
  · exact absurd hnone (h.ack_term t v h0).2

/-- A list that both the member's log and the line of its term hold survives an `accept`. -/
theorem begins_accepted {v : V} {k : ℕ} {P : List E} (hlog : P <+: a.log v)
    (hline : P <+: a.line (a.term v)) : P <+: a.accepted v k := by
  unfold accepted
  split
  · exact hlog
  · rename_i hno
    rcases Nat.le_total P.length k with hle | hle
    · exact begins_take hline hle
    · refine absurd (List.IsPrefix.trans ?_ hlog) hno
      have hcut : (a.line (a.term v)).take k <+: a.line (a.term v) := List.take_prefix _ _
      exact begins_of_begins hcut hline (by rw [List.length_take]; omega)

theorem take_begins_accepted {v : V} {k : ℕ} :
    (a.line (a.term v)).take k <+: a.accepted v k := by
  unfold accepted
  split
  · assumption
  · exact List.prefix_rfl

theorem mem_accepted {v : V} {k : ℕ} {e : E} (he : e ∈ a.accepted v k) :
    e ∈ a.log v ∨ e ∈ a.line (a.term v) := by
  unfold accepted at he
  split at he
  · exact Or.inl he
  · exact Or.inr (List.mem_of_mem_take he)

/-! ### What growth alone keeps

The clauses about ballots, acknowledgements and fixed positions speak of facts the board never
takes back. They are carried over once for every move. -/

section Growth

variable {a' : Board V E} {t u i : ℕ} {v : V} {b : Ballot V E}

theorem led_of_grows (hg : a ≤ a') (hl : a.lead t ≠ none) :
    a'.lead t ≠ none ∧ a'.start t = a.start t := by
  obtain ⟨c, hc⟩ := Option.ne_none_iff_exists'.mp hl
  obtain ⟨hc', hs⟩ := hg.lead t c hc
  exact ⟨by rw [hc']; exact Option.some_ne_none c, hs⟩

theorem Inv.ballot_of_grows (h : Inv term qs base a) (hg : a ≤ a') (hb : a.vote t v = some b) :
    t ≤ a'.term v ∧ Agree term a'.line b.held ∧ UpToDate b.claim (lastOf term b.held) := by
  obtain ⟨hle, hag, hcmp⟩ := h.ballot t v b hb
  exact ⟨le_trans hle (hg.term v), hag.grow hg.line, hcmp⟩

theorem Inv.ack_term_of_grows (h : Inv term qs base a) (hg : a ≤ a') (hp : 0 < a.ack t v) :
    t ≤ a'.term v ∧ a'.lead t ≠ none := by
  obtain ⟨hle, hl⟩ := h.ack_term t v hp
  exact ⟨le_trans hle (hg.term v), (led_of_grows hg hl).1⟩

theorem Inv.fixed_ack_of_grows (h : Inv term qs base a) (hg : a ≤ a') (hf : (t, i) ∈ a.fixed) :
    a'.lead t ≠ none ∧ (∃ e, (a'.line t)[i]? = some e ∧ term e = t) ∧
      ∃ Q, qs.is Q ∧ ∀ v ∈ Q, i < a'.ack t v := by
  obtain ⟨hl, ⟨e, he, het⟩, Q, hQ, hall⟩ := h.fixed_ack t i hf
  exact ⟨(led_of_grows hg hl).1, ⟨e, get_of_begins (hg.line t) he, het⟩, Q, hQ,
    fun v hv => lt_of_lt_of_le (hall v hv) (hg.ack t v)⟩

/-- Acknowledged positions read the same in the old and the new line. -/
theorem Inv.take_acked (h : Inv term qs base a) (hg : a ≤ a') (hi : i < a.ack t v) :
    (a'.line t).take (i + 1) = (a.line t).take (i + 1) :=
  (take_of_begins (hg.line t) (by have := h.ack_len t v; omega)).symm

/-- `Safe` on the grown board says at least as much as on the old one. -/
theorem Inv.safe_of_grows (h : Inv term qs base a) (hg : a ≤ a') (hi : i < a.ack t v)
    (hs : a'.Safe t i u) : a.Safe t i u := by
  intro s h1 h2 hl
  obtain ⟨hl', hstart⟩ := led_of_grows hg hl
  have hpre := hs s h1 h2 hl'
  rwa [h.take_acked hg hi, hstart] at hpre

theorem Inv.ballot_safe_of_grows (h : Inv term qs base a) (hg : a ≤ a') (htu : t < u)
    (hb : a.vote u v = some b) (hor : a.lead u = none ∨ v ∈ a.chose u) (hi : i < a.ack t v)
    (hs : a'.Safe t i u) : (a'.line t).take (i + 1) <+: b.held := by
  rw [h.take_acked hg hi]
  exact h.ballot_safe t u v b i htu hb hor hi (h.safe_of_grows hg hi hs)

theorem Inv.log_safe_of_grows (h : Inv term qs base a) (hg : a ≤ a') (hi : i < a.ack t v)
    (hs : a'.Safe t i (a'.term v + 1)) : (a'.line t).take (i + 1) <+: a.log v := by
  rw [h.take_acked hg hi]
  exact h.log_safe t v i hi
    (h.safe_of_grows hg hi (hs.le (Nat.add_le_add_right (hg.term v) 1)))

/-- A member has not voted beyond its term: an acknowledgement it gives now is none of those
    its ballots answer for. -/
theorem Inv.voted_ne (h : Inv term qs base a) (htu : t < u) (hb : a.vote u v = some b) (c : V) :
    t ≠ a.term c ∨ v ≠ c := by
  by_cases hv : v = c
  · subst hv
    have := (h.ballot u v b hb).1
    exact Or.inl (by omega)
  · exact Or.inr hv

end Growth

section Keep

variable [DecidableEq V]

/-! ### Entering a term -/

theorem enter_grows {v : V} {t : ℕ} (ht : a.term v < t) : a ≤ a.enter v t := by
  refine ⟨fun u => ?_, fun _ _ _ h => h, fun _ _ h => ⟨h, rfl⟩, fun _ => List.prefix_rfl,
    fun _ _ => le_refl _, fun _ h => h⟩
  by_cases huv : u = v
  · subst huv; simp only [Board.enter, Function.update_self]; omega
  · simp only [Board.enter, Function.update_of_ne huv]; exact le_refl _

theorem Inv.enter (h : Inv term qs base a) {v : V} {t : ℕ} (ht : a.term v < t) :
    Inv term qs base (a.enter v t) := by
  have hg := enter_grows ht
  exact {
    base_term := h.base_term
    line_zero := h.line_zero
    base_log := h.base_log
    agree_log := h.agree_log
    agree_line := h.agree_line
    line_le := h.line_le
    log_le := fun u e he => le_trans (h.log_le u e he) (hg.term u)
    line_lead := h.line_lead
    lead_term := fun s c hc => le_trans (h.lead_term s c hc) (hg.term c)
    lead_log := by
      intro s c hc hs
      by_cases hcv : c = v
      · -- the new term is beyond every term `v` has led
        subst hcv
        have := h.lead_term s c hc
        simp only [Board.enter, Function.update_self] at hs
        omega
      · simp only [Board.enter, Function.update_of_ne hcv] at hs
        exact h.lead_log s c hc hs
    start_line := h.start_line
    start_lt := h.start_lt
    start_base := h.start_base
    ballot := fun _ _ _ hb => h.ballot_of_grows hg hb
    chosen := h.chosen
    ack_len := h.ack_len
    ack_term := fun _ _ hp => h.ack_term_of_grows hg hp
    fixed_ack := h.fixed_ack
    ballot_safe := h.ballot_safe
    log_safe := fun _ _ _ hi hs => h.log_safe_of_grows hg hi hs }

/-! ### Voting -/

theorem cast_vote_self {v : V} {b : Ballot V E} : (a.cast v b).vote (a.term v) v = some b :=
  update_entry_self a.vote (a.term v) v (some b)

theorem cast_vote_of_ne {v u : V} {b : Ballot V E} {t : ℕ} (hne : t ≠ a.term v ∨ u ≠ v) :
    (a.cast v b).vote t u = a.vote t u :=
  update_entry_of_ne a.vote (some b) hne

/-- The only new ballot is the one that is cast. -/
theorem cast_vote {v u : V} {b x : Ballot V E} {t : ℕ} (hx : (a.cast v b).vote t u = some x) :
    a.vote t u = some x ∨ (t = a.term v ∧ u = v ∧ x = b) := by
  by_cases hself : t = a.term v ∧ u = v
  · obtain ⟨rfl, rfl⟩ := hself
    rw [cast_vote_self] at hx
    exact Or.inr ⟨rfl, rfl, (Option.some.inj hx).symm⟩
  · rw [cast_vote_of_ne (not_and_or.mp hself)] at hx
    exact Or.inl hx

theorem cast_grows {v : V} {b : Ballot V E} (hnone : a.vote (a.term v) v = none) :
    a ≤ a.cast v b := by
  refine ⟨fun _ => le_refl _, fun t u x hx => ?_, fun _ _ h => ⟨h, rfl⟩, fun _ => List.prefix_rfl,
    fun _ _ => le_refl _, fun _ h => h⟩
  have hne : t ≠ a.term v ∨ u ≠ v := by
    refine not_and_or.mp ?_
    rintro ⟨rfl, rfl⟩
    rw [hnone] at hx
    cases hx
  rw [cast_vote_of_ne hne]
  exact hx

omit [DecidableEq V] in
/-- A term in which a member of the quorum has not voted has no leader. -/
theorem Inv.lead_none_of_vote_none (h : Inv term qs base a) {t : ℕ} {v : V}
    (hnone : a.vote t v = none) (hor : a.lead t = none ∨ v ∈ a.chose t) : a.lead t = none := by
  cases hc : a.lead t with
  | none => rfl
  | some c =>
      rcases hor with hor | hor
      · rw [hc] at hor; cases hor
      · obtain ⟨y, hy, _⟩ := (h.chosen t c hc).2 v hor
        rw [hnone] at hy; cases hy

theorem Inv.cast (h : Inv term qs base a) {v : V} {b : Ballot V E}
    (hnone : a.vote (a.term v) v = none) (hheld : b.held = a.log v)
    (hcmp : UpToDate b.claim (lastOf term (a.log v))) : Inv term qs base (a.cast v b) := by
  have hkeep := (cast_grows (a := a) (b := b) hnone).vote
  exact {
    base_term := h.base_term
    line_zero := h.line_zero
    base_log := h.base_log
    agree_log := h.agree_log
    agree_line := h.agree_line
    line_le := h.line_le
    log_le := h.log_le
    line_lead := h.line_lead
    lead_term := h.lead_term
    lead_log := h.lead_log
    start_line := h.start_line
    start_lt := h.start_lt
    start_base := h.start_base
    ballot := by
      intro t u x hx
      rcases cast_vote hx with hold | ⟨rfl, rfl, rfl⟩
      · exact h.ballot t u x hold
      · exact ⟨le_refl _, hheld ▸ h.agree_log _, hheld ▸ hcmp⟩
    chosen := by
      intro t c hc
      obtain ⟨hq, hall⟩ := h.chosen t c hc
      refine ⟨hq, fun u hu => ?_⟩
      obtain ⟨x, hx, hx'⟩ := hall u hu
      exact ⟨x, hkeep t u x hx, hx'⟩
    ack_len := h.ack_len
    ack_term := h.ack_term
    fixed_ack := h.fixed_ack
    ballot_safe := by
      intro t u w x i htu hx hor hi hs
      rcases cast_vote hx with hold | ⟨rfl, rfl, rfl⟩
      · exact h.ballot_safe t u w x i htu hold hor hi hs
      · -- the term has no leader yet, so `Safe` up to it is `Safe` up to the next one
        have hl := h.lead_none_of_vote_none hnone hor
        rw [hheld]
        refine h.log_safe t w i hi fun s h1 h2 h3 => ?_
        rcases Nat.lt_or_ge s (a.term w) with hlt | hge
        · exact hs s h1 hlt h3
        · have : s = a.term w := by omega
          exact absurd (this ▸ hl) h3
    log_safe := h.log_safe }

/-! ### Crowning a leader -/

section Crown

variable {c : V} {Q : Finset V} {t : ℕ}

theorem crown_lead_self : (a.crown c Q).lead (a.term c) = some c := Function.update_self _ _ _
theorem crown_start_self : (a.crown c Q).start (a.term c) = a.log c := Function.update_self _ _ _
theorem crown_line_self : (a.crown c Q).line (a.term c) = a.log c := Function.update_self _ _ _
theorem crown_chose_self : (a.crown c Q).chose (a.term c) = Q := Function.update_self _ _ _
theorem crown_ack_self : (a.crown c Q).ack (a.term c) c = (a.log c).length :=
  update_entry_self a.ack (a.term c) c _

theorem crown_lead (ht : t ≠ a.term c) : (a.crown c Q).lead t = a.lead t :=
  Function.update_of_ne ht _ _
theorem crown_start (ht : t ≠ a.term c) : (a.crown c Q).start t = a.start t :=
  Function.update_of_ne ht _ _
theorem crown_line (ht : t ≠ a.term c) : (a.crown c Q).line t = a.line t :=
  Function.update_of_ne ht _ _
theorem crown_chose (ht : t ≠ a.term c) : (a.crown c Q).chose t = a.chose t :=
  Function.update_of_ne ht _ _
theorem crown_ack {v : V} (hne : t ≠ a.term c ∨ v ≠ c) : (a.crown c Q).ack t v = a.ack t v :=
  update_entry_of_ne a.ack _ hne

theorem Inv.crown_grows (h : Inv term qs base a) (hpos : 0 < a.term c)
    (hnone : a.lead (a.term c) = none) : a ≤ a.crown c Q := by
  refine ⟨fun _ => le_refl _, fun _ _ _ hx => hx, fun t d hd => ?_, fun t => ?_, fun t v => ?_,
    fun _ hf => hf⟩
  · have ht : t ≠ a.term c := by rintro rfl; rw [hnone] at hd; cases hd
    rw [crown_lead ht, crown_start ht]
    exact ⟨hd, rfl⟩
  · by_cases ht : t = a.term c
    · subst ht; rw [h.line_lead _ (by omega) hnone]; exact List.nil_prefix
    · rw [crown_line ht]
  · by_cases ht : t = a.term c
    · subst ht; rw [h.ack_zero hnone v]; exact Nat.zero_le _
    · rw [crown_ack (Or.inl ht)]

/-- In the new leader's term the leader alone has acknowledged anything. -/
theorem Inv.crown_ack_own (h : Inv term qs base a) (hnone : a.lead (a.term c) = none) {v : V}
    (hp : 0 < (a.crown c Q).ack (a.term c) v) : v = c := by
  by_contra hv
  rw [crown_ack (Or.inr hv), h.ack_zero hnone] at hp
  omega

theorem Inv.crown (h : Inv term qs base a) (hpos : 0 < a.term c)
    (hnone : a.lead (a.term c) = none) (hQ : qs.is Q)
    (hbal : ∀ v ∈ Q, ∃ b, a.vote (a.term c) v = some b ∧ b.cand = c ∧
      b.claim = lastOf term (a.log c)) : Inv term qs base (a.crown c Q) := by
  have hg := h.crown_grows (Q := Q) hpos hnone
  have h0 : (0 : ℕ) ≠ a.term c := by omega
  exact {
    base_term := h.base_term
    line_zero := by rw [crown_line h0, crown_lead h0]; exact h.line_zero
    base_log := h.base_log
    agree_log := fun v => (h.agree_log v).grow hg.line
    agree_line := by
      intro t
      by_cases ht : t = a.term c
      · subst ht; rw [crown_line_self]; exact (h.agree_log c).grow hg.line
      · rw [crown_line ht]; exact (h.agree_line t).grow hg.line
    line_le := by
      intro t e he
      by_cases ht : t = a.term c
      · subst ht; rw [crown_line_self] at he; exact h.log_le c e he
      · rw [crown_line ht] at he; exact h.line_le t e he
    log_le := h.log_le
    line_lead := by
      intro t ht0 hn
      by_cases ht : t = a.term c
      · subst ht; rw [crown_lead_self] at hn; cases hn
      · rw [crown_lead ht] at hn; rw [crown_line ht]; exact h.line_lead t ht0 hn
    lead_term := by
      intro t d hd
      by_cases ht : t = a.term c
      · subst ht
        rw [crown_lead_self] at hd
        cases hd
        exact le_refl _
      · rw [crown_lead ht] at hd; exact h.lead_term t d hd
    lead_log := by
      intro t d hd hdt
      by_cases ht : t = a.term c
      · subst ht
        rw [crown_lead_self] at hd
        cases hd
        exact (crown_line_self (a := a) (c := c) (Q := Q)).symm
      · rw [crown_lead ht] at hd
        rw [crown_line ht]
        exact h.lead_log t d hd hdt
    start_line := by
      intro t hl
      by_cases ht : t = a.term c
      · subst ht; rw [crown_start_self, crown_line_self]
      · rw [crown_lead ht] at hl; rw [crown_start ht, crown_line ht]; exact h.start_line t hl
    start_lt := by
      intro t hl
      by_cases ht : t = a.term c
      · subst ht; rw [crown_start_self]; exact h.log_lt hpos hnone
      · rw [crown_lead ht] at hl; rw [crown_start ht]; exact h.start_lt t hl
    start_base := by
      intro t hl
      by_cases ht : t = a.term c
      · subst ht; rw [crown_start_self]; exact h.base_log c
      · rw [crown_lead ht] at hl; rw [crown_start ht]; exact h.start_base t hl
    ballot := fun _ _ _ hb => h.ballot_of_grows hg hb
    chosen := by
      intro t d hd
      by_cases ht : t = a.term c
      · subst ht
        rw [crown_lead_self] at hd
        cases hd
        rw [crown_chose_self, crown_start_self]
        exact ⟨hQ, hbal⟩
      · rw [crown_lead ht] at hd
        rw [crown_chose ht, crown_start ht]
        exact h.chosen t d hd
    ack_len := by
      intro t v
      by_cases hself : t = a.term c ∧ v = c
      · obtain ⟨rfl, rfl⟩ := hself
        rw [crown_ack_self, crown_line_self]
      · rw [crown_ack (not_and_or.mp hself)]
        exact le_trans (h.ack_len t v) (hg.line t).length_le
    ack_term := by
      intro t v hp
      by_cases hself : t = a.term c ∧ v = c
      · obtain ⟨rfl, rfl⟩ := hself
        exact ⟨le_refl _, by rw [crown_lead_self]; exact Option.some_ne_none _⟩
      · rw [crown_ack (not_and_or.mp hself)] at hp
        exact h.ack_term_of_grows hg hp
    fixed_ack := fun _ _ hf => h.fixed_ack_of_grows hg hf
    ballot_safe := by
      intro t u v b i htu hb hor hi hs
      rw [crown_ack (h.voted_ne htu hb c)] at hi
      refine h.ballot_safe_of_grows hg htu hb ?_ hi hs
      by_cases hu : u = a.term c
      · exact Or.inl (hu ▸ hnone)
      · rwa [crown_lead hu, crown_chose hu] at hor
    log_safe := by
      intro t v i hi hs
      by_cases ht : t = a.term c
      · subst ht
        cases h.crown_ack_own hnone (Nat.zero_lt_of_lt hi)
        rw [crown_line_self]
        exact List.take_prefix (i + 1) (a.log c)
      · rw [crown_ack (Or.inl ht)] at hi
        exact h.log_safe_of_grows hg hi hs }

end Crown

/-! ### Extending a line -/

section Extend

variable {c : V} {e : E} {t : ℕ}

theorem extend_log_self : (a.extend c e).log c = a.log c ++ [e] := Function.update_self _ _ _
theorem extend_line_self : (a.extend c e).line (a.term c) = a.log c ++ [e] :=
  Function.update_self _ _ _
theorem extend_ack_self : (a.extend c e).ack (a.term c) c = (a.log c).length + 1 :=
  update_entry_self a.ack (a.term c) c _

theorem extend_log {v : V} (hv : v ≠ c) : (a.extend c e).log v = a.log v :=
  Function.update_of_ne hv _ _
theorem extend_line (ht : t ≠ a.term c) : (a.extend c e).line t = a.line t :=
  Function.update_of_ne ht _ _
theorem extend_ack {v : V} (hne : t ≠ a.term c ∨ v ≠ c) : (a.extend c e).ack t v = a.ack t v :=
  update_entry_of_ne a.ack _ hne

theorem Inv.extend_grows (h : Inv term qs base a) (hl : a.lead (a.term c) = some c) :
    a ≤ a.extend c e := by
  have hlog := h.lead_log _ c hl rfl
  refine ⟨fun _ => le_refl _, fun _ _ _ hx => hx, fun _ _ hd => ⟨hd, rfl⟩, fun t => ?_,
    fun t v => ?_, fun _ hf => hf⟩
  · by_cases ht : t = a.term c
    · subst ht; rw [extend_line_self, hlog]; exact List.prefix_append _ _
    · rw [extend_line ht]
  · by_cases hself : t = a.term c ∧ v = c
    · obtain ⟨rfl, rfl⟩ := hself
      have := h.ack_len (a.term v) v
      rw [extend_ack_self, hlog]
      omega
    · rw [extend_ack (not_and_or.mp hself)]

theorem Inv.agree_extend (h : Inv term qs base a) (hl : a.lead (a.term c) = some c)
    (he : term e = a.term c) : Agree term (a.extend c e).line (a.log c ++ [e]) := by
  refine ((h.agree_log c).grow (h.extend_grows hl).line).concat ?_
  rw [he, extend_line_self]

theorem Inv.extend (h : Inv term qs base a) (hl : a.lead (a.term c) = some c)
    (he : term e = a.term c) : Inv term qs base (a.extend c e) := by
  have hg := h.extend_grows (e := e) hl
  have hag := h.agree_extend hl he
  have hl' : a.lead (a.term c) ≠ none := by rw [hl]; exact Option.some_ne_none _
  have h0 : (0 : ℕ) ≠ a.term c := by
    intro h0
    rw [← h0, h.line_zero.2] at hl
    cases hl
  have hle : ∀ x ∈ a.log c ++ [e], term x ≤ a.term c := by
    intro x hx
    rcases List.mem_append.mp hx with hx | hx
    · exact h.log_le c x hx
    · rw [List.mem_singleton.mp hx]; exact he.le
  exact {
    base_term := h.base_term
    line_zero := by rw [extend_line h0]; exact h.line_zero
    base_log := by
      intro v
      by_cases hv : v = c
      · subst hv; rw [extend_log_self]; exact (h.base_log v).trans (List.prefix_append _ _)
      · rw [extend_log hv]; exact h.base_log v
    agree_log := by
      intro v
      by_cases hv : v = c
      · subst hv; rw [extend_log_self]; exact hag
      · rw [extend_log hv]; exact (h.agree_log v).grow hg.line
    agree_line := by
      intro t
      by_cases ht : t = a.term c
      · subst ht; rw [extend_line_self]; exact hag
      · rw [extend_line ht]; exact (h.agree_line t).grow hg.line
    line_le := by
      intro t x hx
      by_cases ht : t = a.term c
      · subst ht; rw [extend_line_self] at hx; exact hle x hx
      · rw [extend_line ht] at hx; exact h.line_le t x hx
    log_le := by
      intro v x hx
      by_cases hv : v = c
      · subst hv; rw [extend_log_self] at hx; exact hle x hx
      · rw [extend_log hv] at hx; exact h.log_le v x hx
    line_lead := by
      intro t ht0 hn
      have ht : t ≠ a.term c := by rintro rfl; exact hl' hn
      rw [extend_line ht]
      exact h.line_lead t ht0 hn
    lead_term := h.lead_term
    lead_log := by
      intro t d hd hdt
      by_cases hdc : d = c
      · subst hdc
        cases hdt
        exact extend_log_self.trans extend_line_self.symm
      · have ht : t ≠ a.term c := by
          rintro rfl
          exact hdc (Option.some.inj (hd.symm.trans hl))
        rw [extend_log hdc, extend_line ht]
        exact h.lead_log t d hd hdt
    start_line := fun t ht => (h.start_line t ht).trans (hg.line t)
    start_lt := h.start_lt
    start_base := h.start_base
    ballot := fun _ _ _ hb => h.ballot_of_grows hg hb
    chosen := h.chosen
    ack_len := by
      intro t v
      by_cases hself : t = a.term c ∧ v = c
      · obtain ⟨rfl, rfl⟩ := hself
        rw [extend_ack_self, extend_line_self, List.length_append, List.length_singleton]
      · rw [extend_ack (not_and_or.mp hself)]
        exact le_trans (h.ack_len t v) (hg.line t).length_le
    ack_term := by
      intro t v hp
      by_cases hself : t = a.term c ∧ v = c
      · obtain ⟨rfl, rfl⟩ := hself; exact ⟨le_refl _, hl'⟩
      · rw [extend_ack (not_and_or.mp hself)] at hp; exact h.ack_term t v hp
    fixed_ack := fun _ _ hf => h.fixed_ack_of_grows hg hf
    ballot_safe := by
      intro t u v b i htu hb hor hi hs
      rw [extend_ack (h.voted_ne htu hb c)] at hi
      exact h.ballot_safe_of_grows hg htu hb hor hi hs
    log_safe := by
      intro t v i hi hs
      by_cases hv : v = c
      · subst hv
        rw [extend_log_self]
        by_cases ht : t = a.term v
        · subst ht; rw [extend_line_self]; exact List.take_prefix _ _
        · rw [extend_ack (Or.inl ht)] at hi
          exact (h.log_safe_of_grows hg hi hs).trans (List.prefix_append _ _)
      · rw [extend_ack (Or.inr hv)] at hi
        rw [extend_log hv]
        exact h.log_safe_of_grows hg hi hs }

end Extend

/-! ### Accepting a beginning of the line -/

section Accept

variable {v : V} {k t : ℕ}

theorem accept_log_self : (a.accept v k).log v = a.accepted v k := Function.update_self _ _ _
theorem accept_ack : (a.accept v k).ack (a.term v) v = max (a.ack (a.term v) v) k :=
  update_entry_self a.ack (a.term v) v _

theorem accept_log {u : V} (hu : u ≠ v) : (a.accept v k).log u = a.log u :=
  Function.update_of_ne hu _ _
theorem accept_ack_of_ne {u : V} (hne : t ≠ a.term v ∨ u ≠ v) :
    (a.accept v k).ack t u = a.ack t u :=
  update_entry_of_ne a.ack _ hne

theorem accept_grows : a ≤ a.accept v k := by
  refine ⟨fun _ => le_refl _, fun _ _ _ hx => hx, fun _ _ hd => ⟨hd, rfl⟩,
    fun _ => List.prefix_rfl, fun t u => ?_, fun _ hf => hf⟩
  by_cases hself : t = a.term v ∧ u = v
  · obtain ⟨rfl, rfl⟩ := hself
    rw [accept_ack]
    exact le_max_left _ _
  · rw [accept_ack_of_ne (not_and_or.mp hself)]

omit [DecidableEq V] in
theorem Inv.agree_accepted (h : Inv term qs base a) : Agree term a.line (a.accepted v k) := by
  unfold accepted
  split
  · exact h.agree_log v
  · exact (h.agree_line _).begins <| List.take_prefix _ _

omit [DecidableEq V] in
/-- The leader itself holds the whole line already. -/
theorem Inv.accepted_lead (h : Inv term qs base a) (hl : a.lead (a.term v) = some v) :
    a.accepted v k = a.line (a.term v) := by
  have hlog := h.lead_log _ v hl rfl
  unfold accepted
  rw [if_pos (by rw [hlog]; exact List.take_prefix _ _)]
  exact hlog

/-- What a member has acknowledged it holds, also after it has accepted: of the line of its term
    because it was there before or is there now, of an older line because the leaders since have
    not lost it. -/
theorem Inv.accept_acked (h : Inv term qs base a) (hl : a.lead (a.term v) ≠ none) {i : ℕ}
    (hi : i < (a.accept v k).ack t v) (hs : a.Safe t i (a.term v + 1)) :
    (a.line t).take (i + 1) <+: a.accepted v k := by
  by_cases ht : t = a.term v
  · subst ht
    rw [accept_ack] at hi
    rcases Nat.lt_or_ge i k with hik | hik
    · have h1 : (a.line (a.term v)).take (i + 1) <+: (a.line (a.term v)).take k :=
        List.take_prefix_take_left (by omega)
      exact h1.trans take_begins_accepted
    · have hi' : i < a.ack (a.term v) v := by omega
      exact begins_accepted (h.log_safe _ v i hi' hs) <| List.take_prefix _ _
  · rw [accept_ack_of_ne (Or.inl ht)] at hi
    have htv : t < a.term v := by
      have := (h.ack_term t v (by omega)).1
      omega
    have h1 := hs (a.term v) htv (Nat.lt_succ_self _) hl
    exact begins_accepted (h.log_safe t v i hi hs) (h1.trans (h.start_line _ hl))

theorem Inv.accept (h : Inv term qs base a) (hl : a.lead (a.term v) ≠ none)
    (hk : k ≤ (a.line (a.term v)).length) : Inv term qs base (a.accept v k) := by
  have hg := accept_grows (a := a) (v := v) (k := k)
  have hbase : base <+: a.line (a.term v) := (h.start_base _ hl).trans (h.start_line _ hl)
  exact {
    base_term := h.base_term
    line_zero := h.line_zero
    base_log := by
      intro u
      by_cases hu : u = v
      · subst hu; rw [accept_log_self]; exact begins_accepted (h.base_log u) hbase
      · rw [accept_log hu]; exact h.base_log u
    agree_log := by
      intro u
      by_cases hu : u = v
      · subst hu; rw [accept_log_self]; exact h.agree_accepted
      · rw [accept_log hu]; exact h.agree_log u
    agree_line := h.agree_line
    line_le := h.line_le
    log_le := by
      intro u e he
      by_cases hu : u = v
      · subst hu
        rw [accept_log_self] at he
        rcases mem_accepted he with h1 | h1
        · exact h.log_le u e h1
        · exact h.line_le _ e h1
      · rw [accept_log hu] at he; exact h.log_le u e he
    line_lead := h.line_lead
    lead_term := h.lead_term
    lead_log := by
      intro t c hc hct
      by_cases hcv : c = v
      · subst hcv
        cases hct
        rw [accept_log_self]
        exact h.accepted_lead hc
      · rw [accept_log hcv]; exact h.lead_log t c hc hct
    start_line := h.start_line
    start_lt := h.start_lt
    start_base := h.start_base
    ballot := h.ballot
    chosen := h.chosen
    ack_len := by
      intro t u
      by_cases hself : t = a.term v ∧ u = v
      · obtain ⟨rfl, rfl⟩ := hself
        rw [accept_ack]
        exact max_le (h.ack_len _ _) hk
      · rw [accept_ack_of_ne (not_and_or.mp hself)]; exact h.ack_len t u
    ack_term := by
      intro t u hp
      by_cases hself : t = a.term v ∧ u = v
      · obtain ⟨rfl, rfl⟩ := hself; exact ⟨le_refl _, hl⟩
      · rw [accept_ack_of_ne (not_and_or.mp hself)] at hp; exact h.ack_term t u hp
    fixed_ack := fun _ _ hf => h.fixed_ack_of_grows hg hf
    ballot_safe := by
      intro t u w b i htu hb hor hi hs
      rw [accept_ack_of_ne (h.voted_ne htu hb v)] at hi
      exact h.ballot_safe t u w b i htu hb hor hi hs
    log_safe := by
      intro t u i hi hs
      by_cases hu : u = v
      · subst hu; rw [accept_log_self]; exact h.accept_acked hl hi hs
      · rw [accept_ack_of_ne (Or.inr hu)] at hi
        rw [accept_log hu]
        exact h.log_safe t u i hi hs }

end Accept

/-! ### Fixing a position -/

omit [DecidableEq V] in
theorem fix_grows {t i : ℕ} : a ≤ a.fix t i :=
  ⟨fun _ => le_refl _, fun _ _ _ h => h, fun _ _ h => ⟨h, rfl⟩, fun _ => List.prefix_rfl,
    fun _ _ => le_refl _, fun _ h => Set.mem_insert_of_mem _ h⟩

omit [DecidableEq V] in
theorem Inv.fix (h : Inv term qs base a) {t i : ℕ} {e : E} {Q : Finset V}
    (hl : a.lead t ≠ none) (he : (a.line t)[i]? = some e) (het : term e = t) (hQ : qs.is Q)
    (hall : ∀ v ∈ Q, i < a.ack t v) : Inv term qs base (a.fix t i) where
  base_term := h.base_term
  line_zero := h.line_zero
  base_log := h.base_log
  agree_log := h.agree_log
  agree_line := h.agree_line
  line_le := h.line_le
  log_le := h.log_le
  line_lead := h.line_lead
  lead_term := h.lead_term
  lead_log := h.lead_log
  start_line := h.start_line
  start_lt := h.start_lt
  start_base := h.start_base
  ballot := h.ballot
  chosen := h.chosen
  ack_len := h.ack_len
  ack_term := h.ack_term
  fixed_ack := by
    intro s j hf
    rcases Set.mem_insert_iff.mp hf with heq | hf
    · cases heq
      exact ⟨hl, ⟨e, he, het⟩, Q, hQ, hall⟩
    · exact h.fixed_ack s j hf
  ballot_safe := h.ballot_safe
  log_safe := h.log_safe

/-! ## 4. Moves of one member -/

/-- **The board after moves of `v`**: the others are where they were, and have won nothing. -/
structure MovedBy (v : V) (a a' : Board V E) : Prop where
  grows : a ≤ a'
  term : ∀ w, w ≠ v → a'.term w = a.term w
  log : ∀ w, w ≠ v → a'.log w = a.log w
  vote : ∀ t w, w ≠ v → a'.vote t w = a.vote t w
  lead : ∀ t w, w ≠ v → a'.lead t = some w → a.lead t = some w

omit [DecidableEq V] in
theorem MovedBy.refl (v : V) (a : Board V E) : MovedBy v a a :=
  ⟨le_refl a, fun _ _ => rfl, fun _ _ => rfl, fun _ _ _ => rfl, fun _ _ _ h => h⟩

omit [DecidableEq V] in
theorem MovedBy.trans {v : V} {a' a'' : Board V E} (h : MovedBy v a a') (h' : MovedBy v a' a'') :
    MovedBy v a a'' :=
  ⟨le_trans h.grows h'.grows, fun w hw => (h'.term w hw).trans (h.term w hw),
    fun w hw => (h'.log w hw).trans (h.log w hw),
    fun t w hw => (h'.vote t w hw).trans (h.vote t w hw),
    fun t w hw hl => h.lead t w hw (h'.lead t w hw hl)⟩

theorem enter_moved {v : V} {t : ℕ} (ht : a.term v < t) : MovedBy v a (a.enter v t) :=
  ⟨enter_grows ht, fun _ hw => Function.update_of_ne hw _ _, fun _ _ => rfl, fun _ _ _ => rfl,
    fun _ _ _ h => h⟩

theorem advance_moved (v : V) (t : ℕ) : MovedBy v a (a.advance v t) := by
  unfold advance
  split
  · exact enter_moved ‹_›
  · exact MovedBy.refl v a

theorem Inv.advance (h : Inv term qs base a) (v : V) (t : ℕ) : Inv term qs base (a.advance v t) := by
  unfold Board.advance
  split
  · exact h.enter ‹_›
  · exact h

theorem advance_term {v : V} {t : ℕ} (h : a.term v ≤ t) : (a.advance v t).term v = t := by
  unfold advance
  split
  · exact Function.update_self _ _ _
  · omega

@[simp] theorem advance_log (v : V) (t : ℕ) : (a.advance v t).log = a.log := by
  unfold advance; split <;> rfl
@[simp] theorem advance_vote (v : V) (t : ℕ) : (a.advance v t).vote = a.vote := by
  unfold advance; split <;> rfl
@[simp] theorem advance_lead (v : V) (t : ℕ) : (a.advance v t).lead = a.lead := by
  unfold advance; split <;> rfl
@[simp] theorem advance_line (v : V) (t : ℕ) : (a.advance v t).line = a.line := by
  unfold advance; split <;> rfl
@[simp] theorem advance_ack (v : V) (t : ℕ) : (a.advance v t).ack = a.ack := by
  unfold advance; split <;> rfl

theorem cast_moved {v : V} {b : Ballot V E} (hnone : a.vote (a.term v) v = none) :
    MovedBy v a (a.cast v b) := by
  exact ⟨cast_grows hnone, fun _ _ => rfl, fun _ _ => rfl,
    fun _ _ hw => cast_vote_of_ne (Or.inr hw), fun _ _ _ h => h⟩

theorem Inv.crown_moved (h : Inv term qs base a) {c : V} {Q : Finset V} (hpos : 0 < a.term c)
    (hnone : a.lead (a.term c) = none) : MovedBy c a (a.crown c Q) := by
  refine ⟨h.crown_grows hpos hnone, fun _ _ => rfl, fun _ _ => rfl, fun _ _ _ => rfl,
    fun t w hw hl => ?_⟩
  by_cases ht : t = a.term c
  · subst ht
    rw [crown_lead_self] at hl
    exact absurd (Option.some.inj hl).symm hw
  · rwa [crown_lead ht] at hl

theorem Inv.extend_moved (h : Inv term qs base a) {c : V} {e : E}
    (hl : a.lead (a.term c) = some c) : MovedBy c a (a.extend c e) :=
  ⟨h.extend_grows hl, fun _ _ => rfl, fun _ hw => Function.update_of_ne hw _ _, fun _ _ _ => rfl,
    fun _ _ _ h => h⟩

theorem accept_moved {v : V} {k : ℕ} : MovedBy v a (a.accept v k) :=
  ⟨accept_grows, fun _ _ => rfl, fun _ hw => Function.update_of_ne hw _ _, fun _ _ _ => rfl,
    fun _ _ _ h => h⟩

omit [DecidableEq V] in
theorem fix_moved {v : V} {t i : ℕ} : MovedBy v a (a.fix t i) :=
  ⟨fix_grows, fun _ _ => rfl, fun _ _ => rfl, fun _ _ _ => rfl, fun _ _ _ h => h⟩

/-- A leader has acknowledged the whole line of its term. -/
def LeadAcked (a : Board V E) : Prop := ∀ t c, a.lead t = some c → (a.line t).length ≤ a.ack t c

omit [DecidableEq V] in
theorem LeadAcked.init : LeadAcked (Board.init base : Board V E) := nofun

theorem LeadAcked.advance (h : LeadAcked a) (v : V) (t : ℕ) : LeadAcked (a.advance v t) := by
  intro u c hc
  rw [advance_lead] at hc
  rw [advance_line, advance_ack]
  exact h u c hc

theorem LeadAcked.crown (h : LeadAcked a) (c : V) (Q : Finset V) : LeadAcked (a.crown c Q) := by
  intro t d hd
  by_cases ht : t = a.term c
  · subst ht
    rw [crown_lead_self] at hd
    cases hd
    rw [crown_line_self, crown_ack_self]
  · rw [crown_lead ht] at hd
    rw [crown_line ht, crown_ack (Or.inl ht)]
    exact h t d hd

theorem LeadAcked.extend (h : LeadAcked a) {c : V} {e : E} (hl : a.lead (a.term c) = some c) :
    LeadAcked (a.extend c e) := by
  intro t d hd
  have hd' : a.lead t = some d := hd
  by_cases ht : t = a.term c
  · subst ht
    rw [hl] at hd'
    cases hd'
    rw [extend_line_self, extend_ack_self, List.length_append, List.length_singleton]
  · rw [extend_line ht, extend_ack (Or.inl ht)]
    exact h t d hd'

theorem LeadAcked.accept (h : LeadAcked a) (v : V) (k : ℕ) : LeadAcked (a.accept v k) :=
  fun t d hd => le_trans (h t d hd) (accept_grows.ack t d)

end Keep

/-! ## 5. What the invariant says about agreement -/

/-- **Leader completeness.** By induction on the later term `u`: a member of both quorums voted
    in `u` with a log that held what is fixed, and the candidate won the comparison against it. -/
theorem Inv.fixed_carried (h : Inv term qs base a) {t i : ℕ} (hf : (t, i) ∈ a.fixed) :
    ∀ u, t < u → a.lead u ≠ none → (a.line t).take (i + 1) <+: a.start u := by
  obtain ⟨hlead, ⟨e, he, het⟩, Q, hQ, hack⟩ := h.fixed_ack t i hf
  have hilt := (List.getElem?_eq_some_iff.mp he).1
  intro u
  induction u using Nat.strong_induction_on with
  | _ u ih =>
    intro htu hlu
    have hsafe : a.Safe t i u := fun s h1 h2 h3 => ih s h2 h1 h3
    obtain ⟨c, hc⟩ := Option.ne_none_iff_exists'.mp hlu
    obtain ⟨hQ', hbal⟩ := h.chosen u c hc
    obtain ⟨v, hvQ, hvQ'⟩ := qs.meet hQ hQ'
    obtain ⟨b, hb, _, hclaim⟩ := hbal v hvQ'
    obtain ⟨_, hheld, hcmp⟩ := h.ballot u v b hb
    rw [hclaim] at hcmp
    have hlen : ((a.line t).take (i + 1)).length = i + 1 := by rw [List.length_take]; omega
    refine upToDate_carries (e := e) (u := u) a.start hheld
      ((h.agree_line u).begins (h.start_line u hlu)) h.line_le
      (h.ballot_safe t u v b i htu hb (Or.inr hvQ') (hack v hvQ) hsafe) ?_ het hcmp
      (h.start_lt u hlu) ?_
    · rw [hlen, Nat.add_sub_cancel, List.getElem?_take_of_lt (by omega)]
      exact he
    · intro s hts hsu hne
      have hls : a.lead s ≠ none := fun hn => hne (h.line_lead s (by omega) hn)
      exact ⟨hsafe s hts hsu hls, h.start_line s hls, h.start_lt s hls⟩

/-- `P` is settled as of term `u`: part of the common base, or of what a leader of a term up to
    `u` has fixed. -/
def Settled (base : List E) (a : Board V E) (u : ℕ) (P : List E) : Prop :=
  P <+: base ∨ ∃ t i, t ≤ u ∧ (t, i) ∈ a.fixed ∧ P <+: (a.line t).take (i + 1)

theorem Settled.begins {u : ℕ} {P P' : List E} (h : Settled base a u P) (hP : P' <+: P) :
    Settled base a u P' := by
  rcases h with h | ⟨t, i, h1, h2, h3⟩
  · exact Or.inl (hP.trans h)
  · exact Or.inr ⟨t, i, h1, h2, hP.trans h3⟩

theorem Settled.grow {a' : Board V E} {u : ℕ} {P : List E} (hg : a ≤ a')
    (h : Settled base a u P) : Settled base a' u P := by
  rcases h with h | ⟨t, i, h1, h2, h3⟩
  · exact Or.inl h
  · exact Or.inr ⟨t, i, h1, hg.fixed h2, h3.trans ((hg.line t).take (i + 1))⟩

theorem Settled.le {u u' : ℕ} {P : List E} (h : Settled base a u P) (hu : u ≤ u') :
    Settled base a u' P := by
  rcases h with h | ⟨t, i, h1, h2, h3⟩
  · exact Or.inl h
  · exact Or.inr ⟨t, i, by omega, h2, h3⟩

/-- What is settled stands in the line of the term. -/
theorem Inv.settled_line (h : Inv term qs base a) {u : ℕ} {P : List E}
    (hs : Settled base a u P) (hl : a.lead u ≠ none) : P <+: a.line u := by
  rcases hs with hb | ⟨t, i, htu, hf, hP⟩
  · exact (hb.trans (h.start_base u hl)).trans (h.start_line u hl)
  · rcases Nat.lt_or_ge t u with hlt | hge
    · exact (hP.trans (h.fixed_carried hf u hlt hl)).trans (h.start_line u hl)
    · have htu' : t = u := by omega
      subst htu'
      exact (List.prefix_take_iff.mp hP).1

/-- **Two settled lists are never in conflict.** -/
theorem Inv.settled_compare (h : Inv term qs base a) {u u' : ℕ} {P P' : List E}
    (hs : Settled base a u P) (hs' : Settled base a u' P') (hle : P.length ≤ P'.length) :
    P <+: P' := by
  have key : ∀ {t i : ℕ}, (t, i) ∈ a.fixed → a.lead t ≠ none := fun hf => (h.fixed_ack _ _ hf).1
  rcases hs with hb | ⟨t, i, htu, hf, hP⟩
  · rcases hs' with hb' | ⟨t', i', _, hf', hP'⟩
    · exact begins_of_begins hb hb' hle
    · have hl' := h.settled_line (u := t') (Or.inl hb) (key hf')
      exact begins_of_begins hl' (List.prefix_take_iff.mp hP').1 hle
  · rcases hs' with hb' | ⟨t', i', _, hf', hP'⟩
    · have hl := h.settled_line (u := t) (Or.inl hb') (key hf)
      exact begins_of_begins (List.prefix_take_iff.mp hP).1 hl hle
    · -- both are beginnings of the line of the later of the two terms
      rcases Nat.le_total t t' with htt | htt
      · have h1 := h.settled_line (u := t') (Or.inr ⟨t, i, htt, hf, hP⟩) (key hf')
        exact begins_of_begins h1 (List.prefix_take_iff.mp hP').1 hle
      · have h1 := h.settled_line (u := t) (Or.inr ⟨t', i', htt, hf', hP'⟩) (key hf)
        exact begins_of_begins (List.prefix_take_iff.mp hP).1 h1 hle

/-- **A member keeps what is settled when it accepts.** -/
theorem Inv.settled_accept (h : Inv term qs base a) {v : V} {k : ℕ} {P : List E}
    (hs : Settled base a (a.term v) P) (hl : a.lead (a.term v) ≠ none) (hP : P <+: a.log v) :
    P <+: a.accepted v k :=
  begins_accepted hP (h.settled_line hs hl)

end Board

end Mit6824.Lib
