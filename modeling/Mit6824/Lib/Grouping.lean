/-
  File:      Mit6824/Lib/Grouping.lean
  Subject:   GROUPING RECORDS BY KEY, however it is done.

  A record has a key and a value. `Groups l g` says that `g` lists every key of `l` once, with the
  values of that key in some order. What a function that does not mind the order of the values
  makes of a grouping does not depend on how the grouping was found:

  * `Groups.perm_map` -- two groupings of the same records give the same results;
  * `groups_flatMap` -- the groupings of the parts of a partition by key are a grouping together;
  * `groups_run` -- a run of equal keys whose key does not come again;
  * `collect`, `groups_collect` -- a map from keys to lists of values, filled record by record.
-/
import Mathlib.Data.List.AList
import Mathlib.Data.List.Perm.Basic
import Mathlib.Data.List.Nodup
import Mathlib.Data.List.Flatten

namespace Mit6824.Lib

variable {α κ ν β : Type} [DecidableEq κ] (key : α → κ) (value : α → ν)

/-- The values of `k`, in the order of the records. -/
def valuesOf (k : κ) (l : List α) : List ν := (l.filter fun a => key a = k).map value

theorem valuesOf_append (k : κ) (l l' : List α) :
    valuesOf key value k (l ++ l') = valuesOf key value k l ++ valuesOf key value k l' := by
  simp [valuesOf]

theorem valuesOf_perm (k : κ) {l l' : List α} (h : l.Perm l') :
    (valuesOf key value k l).Perm (valuesOf key value k l') := (h.filter _).map _

theorem valuesOf_eq_nil {k : κ} {l : List α} :
    valuesOf key value k l = [] ↔ k ∉ l.map key := by
  simp [valuesOf]

/-- **`g` groups `l` by key.** -/
structure Groups (l : List α) (g : List (κ × List ν)) : Prop where
  nodup : (g.map Prod.fst).Nodup
  keys : ∀ k, k ∈ g.map Prod.fst ↔ k ∈ l.map key
  values : ∀ k vs, (k, vs) ∈ g → vs.Perm (valuesOf key value k l)

variable {key value}

/-- What a function makes of a grouping, read off the records alone. -/
theorem Groups.map_eq {l : List α} {g : List (κ × List ν)} (h : Groups key value l g)
    {f : κ → List ν → β} (hf : ∀ k vs vs', vs.Perm vs' → f k vs = f k vs') :
    (g.map fun x => f x.1 x.2) = (g.map Prod.fst).map fun k => f k (valuesOf key value k l) := by
  rw [List.map_map]
  refine List.map_congr_left fun x hx => ?_
  exact hf x.1 _ _ (h.values x.1 x.2 hx)

theorem Groups.perm {l l' : List α} {g : List (κ × List ν)} (h : Groups key value l g)
    (hl : l.Perm l') : Groups key value l' g where
  nodup := h.nodup
  keys k := (h.keys k).trans (hl.map key).mem_iff
  values k vs hv := (h.values k vs hv).trans (valuesOf_perm key value k hl)

/-- **Two groupings of the same records give the same results.** -/
theorem Groups.perm_map {l l' : List α} {g g' : List (κ × List ν)} (h : Groups key value l g)
    (h' : Groups key value l' g') (hl : l.Perm l') {f : κ → List ν → β}
    (hf : ∀ k vs vs', vs.Perm vs' → f k vs = f k vs') :
    (g.map fun x => f x.1 x.2).Perm (g'.map fun x => f x.1 x.2) := by
  have h := h.perm hl
  have hkeys : (g.map Prod.fst).Perm (g'.map Prod.fst) := by
    refine (List.perm_ext_iff_of_nodup h.nodup h'.nodup).mpr fun k => ?_
    rw [h.keys, h'.keys]
  rw [h.map_eq hf, h'.map_eq hf]
  exact hkeys.map _

theorem groups_nil : Groups key value [] [] :=
  ⟨List.nodup_nil, fun _ => Iff.rfl, fun _ _ h => by cases h⟩

/-- **A run of one key**, and a rest in which that key does not come again. -/
theorem groups_run {k : κ} {run rest : List α} {g : List (κ × List ν)} (hne : run ≠ [])
    (hrun : ∀ a ∈ run, key a = k) (hrest : ∀ a ∈ rest, key a ≠ k)
    (h : Groups key value rest g) :
    Groups key value (run ++ rest) ((k, run.map value) :: g) := by
  have hk : k ∉ g.map Prod.fst := by
    rw [h.keys, List.mem_map]
    rintro ⟨a, ha, e⟩
    exact hrest a ha e
  have hall : run.filter (fun a => key a = k) = run := by
    rw [List.filter_eq_self]
    simpa using hrun
  refine ⟨List.nodup_cons.mpr ⟨hk, h.nodup⟩, fun k' => ?_, fun k' vs hv => ?_⟩
  · rw [List.map_cons, List.mem_cons, List.map_append, List.mem_append, h.keys]
    refine or_congr_left ⟨fun e => ?_, fun e => ?_⟩
    · obtain ⟨a, ha⟩ := List.exists_mem_of_ne_nil run hne
      exact List.mem_map.mpr ⟨a, ha, (hrun a ha).trans e.symm⟩
    · obtain ⟨a, ha, e⟩ := List.mem_map.mp e
      exact e.symm.trans (hrun a ha)
  · rw [valuesOf_append]
    rcases List.mem_cons.mp hv with e | hv
    · obtain ⟨rfl, rfl⟩ := Prod.mk.inj e
      have hnil : valuesOf key value k' rest = [] := by
        rw [valuesOf_eq_nil, List.mem_map]
        rintro ⟨a, ha, e⟩
        exact hrest a ha e
      rw [hnil, List.append_nil, valuesOf, hall]
    · have hk' : k' ≠ k := fun e => hk (e ▸ List.mem_map_of_mem hv)
      have hnil : valuesOf key value k' run = [] := by
        rw [valuesOf_eq_nil, List.mem_map]
        rintro ⟨a, ha, e⟩
        exact hk' (e.symm.trans (hrun a ha))
      rw [hnil, List.nil_append]
      exact h.values k' vs hv

/-- **A partition by key**: the part `r` holds the records whose key `part` sends to `r`. -/
theorem groups_flatMap {l : List α} {n : Nat} (part : κ → Nat) {g : Nat → List (κ × List ν)}
    (hpart : ∀ k, part k < n)
    (h : ∀ r < n, Groups key value (l.filter fun a => part (key a) = r) (g r)) :
    Groups key value l ((List.range n).flatMap g) := by
  -- a key stands in the part it belongs to and in no other
  have hpt : ∀ r < n, ∀ k, k ∈ (g r).map Prod.fst → part k = r := by
    intro r hr k hk
    obtain ⟨a, ha, e⟩ := List.mem_map.mp (((h r hr).keys k).mp hk)
    have := (List.mem_filter.mp ha).2
    rw [← e]
    simpa using this
  refine ⟨?_, fun k => ?_, fun k vs hv => ?_⟩
  · rw [List.map_flatMap, List.nodup_flatMap]
    refine ⟨fun r hr => (h r (List.mem_range.mp hr)).nodup, ?_⟩
    refine List.nodup_range.imp_of_mem fun {r r'} hr hr' hne => ?_
    intro k hk hk'
    exact hne ((hpt r (List.mem_range.mp hr) k hk).symm.trans
      (hpt r' (List.mem_range.mp hr') k hk'))
  · rw [List.map_flatMap, List.mem_flatMap]
    constructor
    · rintro ⟨r, hr, hk⟩
      have hk := ((h r (List.mem_range.mp hr)).keys k).mp hk
      obtain ⟨a, ha, e⟩ := List.mem_map.mp hk
      exact List.mem_map.mpr ⟨a, (List.mem_filter.mp ha).1, e⟩
    · intro hk
      obtain ⟨a, ha, e⟩ := List.mem_map.mp hk
      refine ⟨part k, List.mem_range.mpr (hpart k), ((h _ (hpart k)).keys k).mpr ?_⟩
      exact List.mem_map.mpr ⟨a, List.mem_filter.mpr ⟨ha, by simp [e]⟩, e⟩
  · obtain ⟨r, hr, hv⟩ := List.mem_flatMap.mp hv
    have hr := List.mem_range.mp hr
    have hk := hpt r hr k (List.mem_map_of_mem hv)
    have hsame : valuesOf key value k (l.filter fun a => part (key a) = r) =
        valuesOf key value k l := by
      unfold valuesOf
      rw [List.filter_filter]
      refine congrArg _ (List.filter_congr fun a _ => ?_)
      by_cases e : key a = k <;> simp [e, hk]
    rw [← hsame]
    exact (h r hr).values k vs hv

/-! ## Filling a map -/

variable (key value)

/-- The record `a` is added to the values of its key. -/
def collect (m : AList fun _ : κ => List ν) (a : α) : AList fun _ : κ => List ν :=
  m.insert (key a) ((m.lookup (key a)).getD [] ++ [value a])

/-- The map holds the values of every key of `l`, and no other key. -/
def Collected (l : List α) (m : AList fun _ : κ => List ν) : Prop :=
  ∀ k, m.lookup k = if k ∈ l.map key then some (valuesOf key value k l) else none

variable {key value}

theorem collected_empty : Collected key value [] (∅ : AList fun _ : κ => List ν) := by
  intro k
  simp

theorem Collected.collect {l : List α} {m : AList fun _ : κ => List ν}
    (h : Collected key value l m) (a : α) :
    Collected key value (l ++ [a]) (collect key value m a) := by
  intro k
  have hold : (m.lookup (key a)).getD [] = valuesOf key value (key a) l := by
    rw [h (key a)]
    split
    · rfl
    · rename_i hk
      exact (valuesOf_eq_nil key value |>.mpr hk).symm
  by_cases hk : k = key a
  · subst hk
    rw [Lib.collect, AList.lookup_insert, hold, valuesOf_append]
    simp [valuesOf]
  · have hne : key a ≠ k := fun e => hk e.symm
    rw [Lib.collect, AList.lookup_insert_ne hk, h k, valuesOf_append]
    simp [valuesOf, hne, hk]

theorem collected_foldl {l : List α} {m : AList fun _ : κ => List ν}
    (h : Collected key value l m) (l' : List α) :
    Collected key value (l ++ l') (l'.foldl (collect key value) m) := by
  induction l' generalizing l m with
  | nil => simpa using h
  | cons a l' ih =>
      have := ih (h.collect a)
      rwa [List.append_assoc] at this

/-- The entries of a map as pairs. -/
def entriesOf (m : AList fun _ : κ => List ν) : List (κ × List ν) :=
  m.entries.map fun x => (x.1, x.2)

theorem mem_entriesOf {l : List α} {m : AList fun _ : κ => List ν} (h : Collected key value l m)
    {k : κ} {vs : List ν} :
    (k, vs) ∈ entriesOf m ↔ k ∈ l.map key ∧ vs = valuesOf key value k l := by
  have hlookup : (k, vs) ∈ entriesOf m ↔ m.lookup k = some vs := by
    rw [entriesOf, List.mem_map]
    constructor
    · rintro ⟨x, hx, e⟩
      cases e
      exact AList.mem_lookup_iff.mpr hx
    · intro hl
      exact ⟨⟨k, vs⟩, AList.mem_lookup_iff.mp hl, rfl⟩
  rw [hlookup, h k]
  split
  · rename_i hk
    rw [Option.some.injEq, eq_comm]
    exact (and_iff_right hk).symm
  · rename_i hk
    exact ⟨nofun, fun e => absurd e.1 hk⟩

/-- **The entries of the filled map are a grouping.** -/
theorem groups_collect {l : List α} {m : AList fun _ : κ => List ν}
    (h : Collected key value l m) : Groups key value l (entriesOf m) := by
  have hkeys : (entriesOf m).map Prod.fst = m.keys := by
    unfold entriesOf AList.keys List.keys
    rw [List.map_map]
    rfl
  refine ⟨?_, fun k => ?_, fun k vs hv => ?_⟩
  · rw [hkeys]
    exact m.keys_nodup
  · rw [hkeys, ← AList.mem_keys, ← AList.lookup_isSome, h k]
    split
    · rename_i hk
      exact ⟨fun _ => hk, fun _ => rfl⟩
    · rename_i hk
      exact ⟨fun e => absurd e (by simp), fun e => absurd e hk⟩
  · rw [((mem_entriesOf h).mp hv).2]

end Mit6824.Lib
