/-
  File:      Mit6824/Lin/Bitset.lean
  Subject:   SETS OF OPERATION IDS AS WORDS (linearizability/bitset.go).

  Bits 0-63 are in word 0, the next in word 1, and so on. Ids are below the number of bits the set
  was made for; an index beyond the words is Go's panic and `none` here.

  * `newBitset`, `set`, `clear`, `equals`, `hash` -- as the checker uses them; `clone` is nothing,
    values are not shared here;
  * `Shows n b D` -- the words of `b`, made for `n` bits, show the set `D`;
  * `Shows.set`, `Shows.clear`, `equals_iff` -- the operations, said about `D`.
-/
import Mathlib.Data.Finset.Insert

namespace Mit6824.Lin

abbrev Bitset := List (BitVec 64)

namespace Bitset

/-! ## 1. The words -/

/-- The number of words for `bits` bits. -/
def chunks (bits : Nat) : Nat := bits / 64 + if bits % 64 ≠ 0 then 1 else 0

def newBitset (bits : Nat) : Bitset := List.replicate (chunks bits) 0

def bitsetIndex (pos : Nat) : Nat × Nat := (pos / 64, pos % 64)

def set (b : Bitset) (pos : Nat) : Option Bitset :=
  let (major, minor) := bitsetIndex pos
  (b[major]?).map fun v => List.set b major (v ||| 1#64 <<< minor)

def clear (b : Bitset) (pos : Nat) : Option Bitset :=
  let (major, minor) := bitsetIndex pos
  (b[major]?).map fun v => List.set b major (v &&& ~~~(1#64 <<< minor))

/-- The number of bits of one word. -/
def popcntWord (v : BitVec 64) : BitVec 64 :=
  let v := (v &&& 0x5555555555555555) + ((v &&& 0xAAAAAAAAAAAAAAAA) >>> 1)
  let v := (v &&& 0x3333333333333333) + ((v &&& 0xCCCCCCCCCCCCCCCC) >>> 2)
  let v := (v &&& 0x0F0F0F0F0F0F0F0F) + ((v &&& 0xF0F0F0F0F0F0F0F0) >>> 4)
  let v := v * 0x0101010101010101
  (v >>> 56) &&& 0xFF

def popcnt (b : Bitset) : BitVec 64 := b.foldl (fun total v => total + popcntWord v) 0

def hash (b : Bitset) : BitVec 64 := b.foldl (fun hash v => hash ^^^ v) (popcnt b)

def equals (b b2 : Bitset) : Bool :=
  if b.length ≠ b2.length then false else (b.zip b2).all fun v => v.1 == v.2

/-! ## 2. The set they show -/

theorem equals_iff_eq {b b2 : Bitset} : equals b b2 = true ↔ b = b2 := by
  unfold equals
  split
  · rename_i hne
    refine ⟨nofun, fun h => absurd (congrArg List.length h) hne⟩
  · rename_i heq
    rw [not_not] at heq
    induction b generalizing b2 with
    | nil =>
        cases b2 with
        | nil => simp
        | cons w b2 => cases heq
    | cons v b ih =>
        cases b2 with
        | nil => cases heq
        | cons w b2 =>
            have hlen : b.length = b2.length := by simpa using heq
            have := ih hlen
            simp only [List.zip_cons_cons, List.all_cons, Bool.and_eq_true, beq_iff_eq, this,
              List.cons.injEq]

/-- **The words show the set `D`.** -/
structure Shows (n : Nat) (b : Bitset) (D : Finset Nat) : Prop where
  length : b.length = chunks n
  bits : ∀ i v, b[i]? = some v → ∀ j < 64, v.getLsbD j = decide (64 * i + j ∈ D)

theorem shows_newBitset (n : Nat) : Shows n (newBitset n) ∅ where
  length := by simp [newBitset]
  bits := by
    intro i v hv j _
    rw [newBitset, List.getElem?_replicate] at hv
    split at hv
    · cases hv
      simp
    · cases hv

theorem div_lt_chunks {n x : Nat} (h : x < n) : x / 64 < chunks n := by
  unfold chunks
  split <;> omega

theorem getLsbD_bit {m j : Nat} (hm : m < 64) (hj : j < 64) :
    (1#64 <<< m).getLsbD j = decide (j = m) := by
  rw [BitVec.getLsbD_shiftLeft, BitVec.getLsbD_one]
  by_cases h : j = m
  · simp [h, hm]
  · simp only [hj, decide_true, Bool.true_and, h, decide_false]
    simp
    omega

/-- One word changed, at one bit. -/
theorem Shows.update {n : Nat} {b : Bitset} {D D' : Finset Nat} (h : Shows n b D) {x : Nat}
    {v w : BitVec 64} (hv : b[x / 64]? = some v)
    (hw : ∀ j < 64, w.getLsbD j = if j = x % 64 then decide (x ∈ D') else v.getLsbD j)
    (hD : ∀ y, y ≠ x → (y ∈ D' ↔ y ∈ D)) : Shows n (List.set b (x / 64) w) D' where
  length := by rw [List.length_set, h.length]
  bits := by
    intro i u hu j hj
    rw [List.getElem?_set] at hu
    split at hu
    · rename_i heq
      subst heq
      split at hu
      · cases hu
        rw [hw j hj]
        split
        · rename_i hjx
          rw [hjx, Nat.div_add_mod]
        · rename_i hjx
          rw [h.bits _ v hv j hj]
          have : 64 * (x / 64) + j ≠ x := by omega
          simp only [hD _ this]
      · cases hu
    · rename_i hne
      rw [h.bits i u hu j hj]
      have : 64 * i + j ≠ x := by omega
      simp only [hD _ this]

/-- There is a word for every id, and it has its bit. -/
theorem Shows.word {n : Nat} {b : Bitset} {D : Finset Nat} (h : Shows n b D) {x : Nat} (hx : x < n) :
    ∃ v, b[x / 64]? = some v ∧ v.getLsbD (x % 64) = decide (x ∈ D) := by
  have hlt : x / 64 < b.length := by
    rw [h.length]
    exact div_lt_chunks hx
  refine ⟨_, List.getElem?_eq_getElem hlt, ?_⟩
  rw [h.bits _ _ (List.getElem?_eq_getElem hlt) _ (Nat.mod_lt _ (by decide)), Nat.div_add_mod]

theorem Shows.set {n : Nat} {b : Bitset} {D : Finset Nat} (h : Shows n b D) {x : Nat} (hx : x < n) :
    ∃ b', Bitset.set b x = some b' ∧ Shows n b' (insert x D) := by
  obtain ⟨v, hv, _⟩ := h.word hx
  refine ⟨List.set b (x / 64) (v ||| 1#64 <<< (x % 64)), by simp [Bitset.set, bitsetIndex, hv], ?_⟩
  refine h.update hv (fun j hj => ?_) fun y hy => ?_
  · rw [BitVec.getLsbD_or, getLsbD_bit (Nat.mod_lt _ (by decide)) hj]
    split <;> simp_all
  · simp [hy]

theorem Shows.clear {n : Nat} {b : Bitset} {D : Finset Nat} {x : Nat}
    (h : Shows n b (insert x D)) (hx : x < n) (hxD : x ∉ D) :
    ∃ b', Bitset.clear b x = some b' ∧ Shows n b' D := by
  obtain ⟨v, hv, _⟩ := h.word hx
  refine ⟨List.set b (x / 64) (v &&& ~~~(1#64 <<< (x % 64))),
    by simp [Bitset.clear, bitsetIndex, hv], ?_⟩
  refine h.update hv (fun j hj => ?_) fun y hy => ?_
  · rw [BitVec.getLsbD_and, BitVec.getLsbD_not, getLsbD_bit (Nat.mod_lt _ (by decide)) hj]
    split <;> simp_all
  · simp [hy]

/-- **Equal words, equal sets.** -/
theorem Shows.equals_iff {n : Nat} {b b' : Bitset} {D D' : Finset Nat} (h : Shows n b D)
    (h' : Shows n b' D') (hD : ∀ x ∈ D, x < n) (hD' : ∀ x ∈ D', x < n) :
    equals b b' = true ↔ D = D' := by
  rw [equals_iff_eq]
  constructor
  · rintro rfl
    have hbit : ∀ x, x < n → (x ∈ D ↔ x ∈ D') := by
      intro x hx
      obtain ⟨v, hv, hm⟩ := h.word hx
      obtain ⟨v', hv', hm'⟩ := h'.word hx
      rw [hv, Option.some.injEq] at hv'
      rw [← hv', hm] at hm'
      exact decide_eq_decide.mp hm'
    ext x
    exact ⟨fun hx => (hbit x (hD x hx)).mp hx, fun hx => (hbit x (hD' x hx)).mpr hx⟩
  · rintro rfl
    refine List.ext_getElem (h.length.trans h'.length.symm) fun i h₁ h₂ => ?_
    refine BitVec.eq_of_getLsbD_eq fun j hj => ?_
    rw [h.bits i _ (List.getElem?_eq_getElem h₁) j hj, h'.bits i _ (List.getElem?_eq_getElem h₂) j hj]

end Bitset

end Mit6824.Lin
