/-
  File:      Mit6824/Lib/TermLog.lean
  Subject:   LOGS OF ENTRIES THAT CARRY A TERM. Lists only; no server, no message.

  In a protocol with at most one leader per term, the entries of term `t` are written one after
  the other into a single list, the LINE of `t`. A log is then right when every part of it that
  ends in an entry of term `t` is a beginning of that line:

  * `Agree term line F` -- the log `F` is right with respect to the lines `line`;
  * `Agree.matching` -- two right logs with entries of one term at one position are the same up
    to that position;
  * `Agree.sorted` -- the terms along a right log do not fall;
  * `lastOf`, `UpToDate` -- the comparison of last term and length a voter makes;
  * `upToDate_carries` -- a log that wins this comparison against a log that holds `P` holds `P`,
    provided the lines of the terms in between hold `P`;
  * `Adopts` -- a log takes over a slice of another one, unless the terms are there already;
    `Adopts.commonLength_le` -- what the two had in common they still have.
-/
import Mathlib.Data.List.Infix
import Mathlib.Order.Basic

namespace Mit6824.Lib

variable {E : Type}

/-! ## 1. Beginnings of a list -/

theorem take_of_begins {F G : List E} (h : F <+: G) {k : ℕ} (hk : k ≤ F.length) :
    F.take k = G.take k := by
  obtain ⟨r, rfl⟩ := h
  rw [List.take_append_of_le_length hk]

theorem get_of_begins {F G : List E} (h : F <+: G) {i : ℕ} {e : E} (hi : F[i]? = some e) :
    G[i]? = some e := by
  obtain ⟨r, rfl⟩ := h
  rw [List.getElem?_append_left (List.getElem?_eq_some_iff.mp hi).1]
  exact hi

theorem forall_get_cons {P : ℕ → E → Prop} {x : E} {F : List E} :
    (∀ k e, (x :: F)[k]? = some e → P k e) ↔ P 0 x ∧ ∀ k e, F[k]? = some e → P (k + 1) e := by
  constructor
  · intro hall
    exact ⟨hall 0 x rfl, fun k e he => hall (k + 1) e (by rwa [List.getElem?_cons_succ])⟩
  · rintro ⟨hx, hF⟩ k e he
    cases k with
    | zero =>
        cases he
        exact hx
    | succ k => exact hF k e (by rwa [List.getElem?_cons_succ] at he)

/-- An entry of a list with one more at its end is an old one, or the last one. -/
theorem get_concat {F : List E} {x e : E} {i : ℕ} (h : (F ++ [x])[i]? = some e) :
    F[i]? = some e ∨ (i = F.length ∧ e = x) := by
  rcases Nat.lt_or_ge i F.length with hlt | hge
  · rw [List.getElem?_append_left hlt] at h
    exact Or.inl h
  · have hlen := (List.getElem?_eq_some_iff.mp h).1
    rw [List.length_append, List.length_singleton] at hlen
    obtain rfl : i = F.length := by omega
    rw [List.getElem?_concat_length, Option.some.injEq] at h
    exact Or.inr ⟨rfl, h.symm⟩

theorem take_begins_iff {F G : List E} {k : ℕ} (hk : k ≤ F.length) :
    F.take k <+: G ↔ k ≤ G.length ∧ F.take k = G.take k := by
  constructor
  · intro h
    have hl : (F.take k).length = k := by rw [List.length_take]; omega
    have hle : k ≤ G.length := hl ▸ h.length_le
    refine ⟨hle, ?_⟩
    have := take_of_begins h (k := k) (by omega)
    rwa [List.take_take, Nat.min_self] at this
  · rintro ⟨_, h⟩
    rw [h]
    exact List.take_prefix k G

/-- Two beginnings of one list: the shorter one is a beginning of the longer one. -/
theorem begins_of_begins {F G H : List E} (hF : F <+: H) (hG : G <+: H)
    (hle : F.length ≤ G.length) : F <+: G :=
  List.prefix_of_prefix_length_le hF hG hle

theorem begins_take {F G : List E} (h : F <+: G) {k : ℕ} (hk : F.length ≤ k) : F <+: G.take k := by
  rw [List.prefix_take_iff]
  exact ⟨h, hk⟩

/-- Two lists that agree wherever both have an entry: one is a beginning of the other. -/
theorem begins_or_begins {F G : List E}
    (h : ∀ (i : ℕ) (x y : E), F[i]? = some x → G[i]? = some y → x = y) : F <+: G ∨ G <+: F := by
  induction F generalizing G with
  | nil => exact Or.inl List.nil_prefix
  | cons a F ih =>
      cases G with
      | nil => exact Or.inr List.nil_prefix
      | cons b G =>
          obtain rfl := h 0 a b rfl rfl
          rcases ih fun i x y hx hy => h (i + 1) x y hx hy with hp | hp
          · exact Or.inl (List.cons_prefix_cons.mpr ⟨rfl, hp⟩)
          · exact Or.inr (List.cons_prefix_cons.mpr ⟨rfl, hp⟩)

/-! ## 2. Logs that agree with the lines -/

section Agree

variable (term : E → ℕ)

/-- **A right log**: what ends in an entry of term `t` is a beginning of the line of `t`. -/
def Agree (line : ℕ → List E) (F : List E) : Prop :=
  ∀ i e, F[i]? = some e → F.take (i + 1) <+: line (term e)

variable {term} {line line' : ℕ → List E} {F G : List E}

theorem Agree.begins (h : Agree term line F) (hG : G <+: F) : Agree term line G := by
  intro i e hi
  have hlt := (List.getElem?_eq_some_iff.mp hi).1
  rw [take_of_begins hG (by omega)]
  exact h i e (get_of_begins hG hi)

theorem Agree.grow (h : Agree term line F) (hl : ∀ t, line t <+: line' t) : Agree term line' F :=
  fun i e hi => (h i e hi).trans (hl _)

theorem Agree.concat (h : Agree term line F) {e : E} (he : F ++ [e] <+: line (term e)) :
    Agree term line (F ++ [e]) := by
  intro i x hi
  rcases get_concat hi with hi | ⟨rfl, rfl⟩
  · rw [List.take_append_of_le_length (List.getElem?_eq_some_iff.mp hi).1]
    exact h i x hi
  · rw [List.take_of_length_le (by simp)]
    exact he

/-- **Log matching**: one term at one position, one beginning up to it. -/
theorem Agree.matching (hF : Agree term line F) (hG : Agree term line G) {i : ℕ} {e f : E}
    (he : F[i]? = some e) (hf : G[i]? = some f) (ht : term e = term f) :
    F.take (i + 1) = G.take (i + 1) := by
  have h1 := hF i e he
  have h2 := hG i f hf
  rw [← ht] at h2
  have l1 := (List.getElem?_eq_some_iff.mp he).1
  have l2 := (List.getElem?_eq_some_iff.mp hf).1
  have e1 : (F.take (i + 1)).length = i + 1 := by rw [List.length_take]; omega
  have e2 : (G.take (i + 1)).length = i + 1 := by rw [List.length_take]; omega
  exact (begins_of_begins h1 h2 (by omega)).eq_of_length (by omega)

/-- The terms along a right log do not fall. -/
theorem Agree.sorted (h : Agree term line F) (hle : ∀ t, ∀ e ∈ line t, term e ≤ t) {i j : ℕ}
    (hij : i ≤ j) {e f : E} (he : F[i]? = some e) (hf : F[j]? = some f) : term e ≤ term f := by
  refine hle _ e ((h j f hf).subset ?_)
  refine List.mem_of_getElem? (i := i) ?_
  rw [List.getElem?_take_of_lt (by omega)]
  exact he

end Agree

/-! ## 3. The comparison of a voter -/

section Last

variable (term : E → ℕ)

/-- Last term and length of a log (term 0 for the empty log). -/
def lastOf (F : List E) : ℕ × ℕ := ((F.getLast?.map term).getD 0, F.length)

/-- The claim `c` of a candidate is at least as up to date as the pair `l`. -/
def UpToDate (c l : ℕ × ℕ) : Prop := l.1 < c.1 ∨ (l.1 = c.1 ∧ l.2 ≤ c.2)

variable {term} {line : ℕ → List E} {F G P : List E}

theorem lastOf_eq {F : List E} {e : E} (h : F[F.length - 1]? = some e) :
    (lastOf term F).1 = term e := by
  unfold lastOf
  rw [List.getLast?_eq_getElem?, h]
  rfl

theorem last_exists {F : List E} (h : F ≠ []) : ∃ e, F[F.length - 1]? = some e := by
  have : F.length - 1 < F.length := by have := List.length_pos_iff.mpr h; omega
  exact ⟨_, List.getElem?_eq_getElem this⟩

/-- A right log is a beginning of the line of its last term. -/
theorem Agree.self_begins (h : Agree term line F) (hF : F ≠ []) :
    F <+: line (lastOf term F).1 := by
  obtain ⟨e, he⟩ := last_exists hF
  have h1 := h _ e he
  have : 0 < F.length := List.length_pos_iff.mpr hF
  rw [List.take_of_length_le (by omega)] at h1
  rwa [lastOf_eq he]

/-- **The winner of the comparison holds what the loser holds.** `V` is the voter's log and holds
    `P`, which ends in an entry of term `t`; `K` is the candidate's. The lines of all terms
    strictly between `t` and `u` begin with lists that hold `P` and stay below their own term
    (`start`), and the candidate's terms are below `u`. -/
theorem upToDate_carries {V K P : List E} {t u : ℕ} (start : ℕ → List E)
    (hV : Agree term line V) (hK : Agree term line K) (hle : ∀ t, ∀ e ∈ line t, term e ≤ t)
    (hP : P <+: V) {e : E} (hPe : P[P.length - 1]? = some e) (het : term e = t)
    (hcmp : UpToDate (lastOf term K) (lastOf term V)) (hu : ∀ e ∈ K, term e < u)
    (hstart : ∀ s, t < s → s < u → line s ≠ [] →
      P <+: start s ∧ start s <+: line s ∧ ∀ e ∈ start s, term e < s) : P <+: K := by
  have hPne : P ≠ [] := by rintro rfl; simp at hPe
  have hVne : V ≠ [] := fun h => hPne (List.prefix_nil.mp (h ▸ hP))
  have hV1 := hV.self_begins hVne
  obtain ⟨v, hv⟩ := last_exists hVne
  have hPlen := hP.length_le
  have hPpos := List.length_pos_iff.mpr hPne
  -- the voter's last term is at least `t`: its log holds an entry of term `t`
  have htv : t ≤ (lastOf term V).1 := by
    rw [lastOf_eq hv, ← het]
    exact hV.sorted hle (by omega) (get_of_begins hP hPe) hv
  rcases hcmp with hgt | ⟨heq, hlen⟩
  · -- a later term: the line of that term holds `P` below its own first entry
    have hKne : K ≠ [] := by
      rintro rfl
      simp [lastOf] at hgt
    obtain ⟨k, hk⟩ := last_exists hKne
    have hK1 := hK.self_begins hKne
    have hkT : (lastOf term K).1 = term k := lastOf_eq hk
    have hku : (lastOf term K).1 < u := by rw [hkT]; exact hu k (List.mem_of_getElem? hk)
    have hKpos := List.length_pos_iff.mpr hKne
    have hlne : line (lastOf term K).1 ≠ [] := fun h => hKne (List.prefix_nil.mp (h ▸ hK1))
    obtain ⟨h1, h2, h3⟩ := hstart _ (by omega) hku hlne
    rcases Nat.lt_or_ge K.length P.length with hl | hl
    · exfalso
      have hKs : K <+: start (lastOf term K).1 :=
        begins_of_begins hK1 h2 (by have := h1.length_le; omega)
      have := h3 k (hKs.subset (List.mem_of_getElem? hk))
      omega
    · exact begins_of_begins (h1.trans h2) hK1 hl
  · -- the same last term: both logs are beginnings of one line, the candidate's the longer
    have hKne : K ≠ [] := by
      rintro rfl
      simp [lastOf] at hlen
      exact hVne hlen
    have hK1 := hK.self_begins hKne
    rw [heq] at hV1
    exact hP.trans (begins_of_begins hV1 hK1 hlen)

end Last

/-! ## 4. A slice of another log -/

section Slice

/-- The length of the common beginning of two lists. -/
def commonLength [DecidableEq E] : List E → List E → ℕ
  | x :: xs, y :: ys => if x = y then commonLength xs ys + 1 else 0
  | _, _ => 0

theorem le_commonLength_iff [DecidableEq E] {k : ℕ} : ∀ {xs ys : List E},
    k ≤ commonLength xs ys ↔ k ≤ xs.length ∧ k ≤ ys.length ∧ xs.take k = ys.take k := by
  induction k with
  | zero => simp
  | succ k ih =>
      intro xs ys
      cases xs with
      | nil => simp [commonLength]
      | cons x xs =>
          cases ys with
          | nil => simp [commonLength]
          | cons y ys =>
              rw [commonLength, List.take_succ_cons, List.take_succ_cons, List.cons.injEq]
              split
              · rename_i heq
                rw [Nat.succ_le_succ_iff, ih, List.length_cons, List.length_cons,
                  Nat.succ_le_succ_iff, Nat.succ_le_succ_iff, and_iff_right heq]
              · rename_i hne
                exact ⟨fun h => absurd h (Nat.not_succ_le_zero k), fun h => absurd h.2.2.1 hne⟩

/-- Within the common beginning the elements are the same. -/
theorem get_of_lt_commonLength [DecidableEq E] {xs ys : List E} {k : ℕ}
    (h : k < commonLength xs ys) : ∃ e, xs[k]? = some e ∧ ys[k]? = some e := by
  obtain ⟨hx, _, heq⟩ := le_commonLength_iff.mp (Nat.succ_le_of_lt h)
  refine ⟨xs[k], List.getElem?_eq_getElem hx, ?_⟩
  have := congrArg (·[k]?) heq
  simp only [List.getElem?_take_of_lt (Nat.lt_succ_self k)] at this
  rw [← this, List.getElem?_eq_getElem hx]

variable (term : E → ℕ)

/-- **Matching logs**: one term at one position, one beginning up to it. -/
def Matching (M F : List E) : Prop :=
  ∀ i x y, M[i]? = some x → F[i]? = some y → term x = term y → F.take (i + 1) = M.take (i + 1)

/-- From position `q` on, `F` has the terms of the first `m` elements of `M`. -/
def SameTerms (M F : List E) (q m : ℕ) : Prop :=
  ∀ k e, q ≤ k → k < m → M[k]? = some e → ∃ y, F[k]? = some y ∧ term y = term e

/-- **`F` takes over the elements `q .. m - 1` of `M`** and becomes `F'`: it stays as it is if it has
    their terms already, and is cut and continued with them otherwise. -/
def Adopts (M F : List E) (q m : ℕ) (F' : List E) : Prop :=
  (SameTerms term M F q m ∧ F' = F) ∨
    (¬ SameTerms term M F q m ∧ F' = F.take q ++ (M.take m).drop q)

variable {term} {M F F' : List E} {q m : ℕ}

theorem matching_of_begins (h : F <+: M) : Matching term M F := by
  intro i x y _ hy _
  exact take_of_begins h (Nat.succ_le_of_lt (List.getElem?_eq_some_iff.mp hy).1)

/-- An element with the term of the other log is within the common beginning. -/
theorem Matching.lt_commonLength [DecidableEq E] (h : Matching term M F) {i : ℕ} {x y : E}
    (hx : M[i]? = some x) (hy : F[i]? = some y) (ht : term x = term y) : i < commonLength F M :=
  le_commonLength_iff.mpr ⟨(List.getElem?_eq_some_iff.mp hy).1, (List.getElem?_eq_some_iff.mp hx).1,
    h i x y hx hy ht⟩

/-- Terms that are there already: matching logs have the slice itself. -/
theorem SameTerms.le_commonLength [DecidableEq E] (h : SameTerms term M F q m)
    (hM : Matching term M F) (hq : q ≤ commonLength F M) (hm : m ≤ M.length) :
    max q m ≤ commonLength F M := by
  rcases Nat.lt_or_ge q m with hlt | hge
  · obtain ⟨x, hx⟩ : ∃ x, M[m - 1]? = some x := ⟨_, List.getElem?_eq_getElem (by omega)⟩
    obtain ⟨y, hy, ht⟩ := h (m - 1) x (by omega) (by omega) hx
    have := hM.lt_commonLength hx hy ht.symm
    omega
  · rwa [Nat.max_eq_left hge]

theorem sameTerms_of_le [DecidableEq E] (h : m ≤ commonLength F M) : SameTerms term M F q m := by
  intro k e _ hk he
  obtain ⟨y, hy, hy'⟩ := get_of_lt_commonLength (Nat.lt_of_lt_of_le hk h)
  rw [he, Option.some.injEq] at hy'
  exact ⟨y, hy, congrArg term hy'.symm⟩

/-- **What taking over a slice can do**, when the logs match and are the same up to it: nothing, or
    the log becomes the beginning of the other one, longer than what they had in common. -/
theorem Adopts.cases [DecidableEq E] (h : Adopts term M F q m F') (hM : Matching term M F)
    (hq : q ≤ commonLength F M) (hm : m ≤ M.length) :
    (F' = F ∧ max q m ≤ commonLength F M) ∨
      (F' = M.take m ∧ q < m ∧ commonLength F M < m) := by
  rcases h with ⟨hsame, rfl⟩ | ⟨hdiff, rfl⟩
  · exact Or.inl ⟨rfl, hsame.le_commonLength hM hq hm⟩
  · have hlt : commonLength F M < m := by
      by_contra hge
      exact hdiff (sameTerms_of_le (Nat.le_of_not_lt hge))
    refine Or.inr ⟨?_, by omega, hlt⟩
    have hcut : M.take q = (M.take m).take q := by rw [List.take_take, Nat.min_eq_left (by omega)]
    rw [(le_commonLength_iff.mp hq).2.2, hcut, List.take_append_drop]

theorem commonLength_take [DecidableEq E] (hm : m ≤ M.length) : m ≤ commonLength (M.take m) M :=
  le_commonLength_iff.mpr ⟨by rw [List.length_take]; omega, hm, by rw [List.take_take, Nat.min_self]⟩

section Kept

variable [DecidableEq E] (h : Adopts term M F q m F') (hM : Matching term M F)
  (hq : q ≤ commonLength F M) (hm : m ≤ M.length)

include h hM hq hm

/-- **What the two logs had in common they still have.** -/
theorem Adopts.commonLength_le : commonLength F M ≤ commonLength F' M := by
  rcases h.cases hM hq hm with ⟨rfl, _⟩ | ⟨rfl, _, hlt⟩
  · exact Nat.le_refl _
  · exact Nat.le_trans (Nat.le_of_lt hlt) (commonLength_take hm)

/-- **And they have the slice in common.** -/
theorem Adopts.le_commonLength : max q m ≤ commonLength F' M := by
  rcases h.cases hM hq hm with ⟨rfl, hle⟩ | ⟨rfl, hlt, _⟩
  · exact hle
  · rw [Nat.max_eq_right (Nat.le_of_lt hlt)]
    exact commonLength_take hm

theorem Adopts.matching : Matching term M F' := by
  rcases h.cases hM hq hm with ⟨rfl, _⟩ | ⟨rfl, _⟩
  · exact hM
  · exact matching_of_begins (List.take_prefix m M)

end Kept

end Slice

end Mit6824.Lib
