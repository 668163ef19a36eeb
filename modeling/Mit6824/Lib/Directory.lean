/-
  File:      Mit6824/Lib/Directory.lean
  Subject:   A DIRECTORY OF FILES as several processes share it: names, and the files behind them.

  A name stands for a file; whoever has created a file keeps its number and goes on writing to the
  file under that number, whatever name it has by then, or none. Items are appended one at a time.

  * `create`, `remove`, `rename`, `write`, `read` -- one system call each; `create` empties a file
    that is there, `rename` takes over a name that is there and does nothing if there is no file;
  * `Sound` -- no file has two names, and new numbers are new: every call keeps it;
  * `read_*`, `entry_*` -- what a call does to its own name; `SameOn` -- and to all others nothing.
-/
import Mathlib.Logic.Function.Basic

namespace Mit6824.Lib

variable {N β : Type}

structure Directory (N β : Type) where
  entry : N → Option Nat
  data : Nat → List β
  fresh : Nat

namespace Directory

/-! ## 1. The calls -/

def empty : Directory N β := ⟨fun _ => none, fun _ => [], 0⟩

def read (d : Directory N β) (a : N) : Option (List β) := (d.entry a).map d.data

def remove [DecidableEq N] (d : Directory N β) (a : N) : Directory N β :=
  { d with entry := Function.update d.entry a none }

/-- The directory and the number of the file. -/
def create [DecidableEq N] (d : Directory N β) (a : N) : Directory N β × Nat :=
  match d.entry a with
  | some i => ({ d with data := Function.update d.data i [] }, i)
  | none =>
      ({ entry := Function.update d.entry a (some d.fresh)
         data := Function.update d.data d.fresh []
         fresh := d.fresh + 1 }, d.fresh)

def write (d : Directory N β) (i : Nat) (x : β) : Directory N β :=
  { d with data := Function.update d.data i (d.data i ++ [x]) }

def rename [DecidableEq N] (d : Directory N β) (a b : N) : Directory N β :=
  match d.entry a with
  | some i => { d with entry := Function.update (Function.update d.entry a none) b (some i) }
  | none => d

/-! ## 2. One file, one name -/

structure Sound (d : Directory N β) : Prop where
  one : ∀ a b i, d.entry a = some i → d.entry b = some i → a = b
  bound : ∀ a i, d.entry a = some i → i < d.fresh

variable {d : Directory N β} {a b : N} {i : Nat}

theorem Sound.remove [DecidableEq N] (h : Sound d) (a : N) : Sound (d.remove a) := by
  have old : ∀ {b i}, (d.remove a).entry b = some i → d.entry b = some i := by
    intro b i hb
    by_cases hba : b = a
    · subst hba
      rw [show (d.remove b).entry b = none from Function.update_self _ _ _] at hb
      cases hb
    · rwa [show (d.remove a).entry b = d.entry b from Function.update_of_ne hba _ _] at hb
  exact ⟨fun b c i hb hc => h.one b c i (old hb) (old hc), fun b i hb => h.bound b i (old hb)⟩

theorem Sound.create [DecidableEq N] (h : Sound d) (a : N) : Sound (d.create a).1 := by
  unfold Directory.create
  split
  · exact ⟨h.one, h.bound⟩
  · have cases' : ∀ {b i}, Function.update d.entry a (some d.fresh) b = some i →
        (b = a ∧ i = d.fresh) ∨ d.entry b = some i ∧ i < d.fresh := by
      intro b i hb
      by_cases hba : b = a
      · subst hba
        rw [Function.update_self] at hb
        exact Or.inl ⟨rfl, (Option.some.inj hb).symm⟩
      · rw [Function.update_of_ne hba] at hb
        exact Or.inr ⟨hb, h.bound b i hb⟩
    refine ⟨fun b c i hb hc => ?_, fun b i hb => ?_⟩
    · rcases cases' hb with ⟨rfl, rfl⟩ | ⟨hb, hlt⟩ <;> rcases cases' hc with ⟨rfl, hi⟩ | ⟨hc, hlt'⟩
      · rfl
      · omega
      · omega
      · exact h.one b c i hb hc
    · show i < d.fresh + 1
      rcases cases' hb with ⟨_, rfl⟩ | ⟨_, hlt⟩ <;> omega

theorem Sound.write (h : Sound d) (i : Nat) (x : β) : Sound (d.write i x) := ⟨h.one, h.bound⟩

theorem Sound.rename [DecidableEq N] (h : Sound d) (a b : N) : Sound (d.rename a b) := by
  unfold Directory.rename
  split
  · rename_i i hi
    have cases' : ∀ {c j}, Function.update (Function.update d.entry a none) b (some i) c = some j →
        (c = b ∧ j = i) ∨ c ≠ a ∧ d.entry c = some j := by
      intro c j hc
      by_cases hcb : c = b
      · subst hcb
        rw [Function.update_self] at hc
        exact Or.inl ⟨rfl, (Option.some.inj hc).symm⟩
      · rw [Function.update_of_ne hcb] at hc
        by_cases hca : c = a
        · subst hca
          rw [Function.update_self] at hc
          cases hc
        · rw [Function.update_of_ne hca] at hc
          exact Or.inr ⟨hca, hc⟩
    refine ⟨fun c c' j hc hc' => ?_, fun c j hc => ?_⟩
    · rcases cases' hc with ⟨e, hj⟩ | ⟨hne, hc⟩ <;> rcases cases' hc' with ⟨e', hj'⟩ | ⟨hne', hc'⟩
      · exact e.trans e'.symm
      · exact absurd (h.one c' a i (hj ▸ hc') hi) hne'
      · exact absurd (h.one c a i (hj' ▸ hc) hi) hne
      · exact h.one c c' j hc hc'
    · rcases cases' hc with ⟨_, rfl⟩ | ⟨_, hc⟩
      · exact h.bound a j hi
      · exact h.bound c j hc
  · exact h

/-! ## 3. What a call does to its own name -/

theorem entry_create [DecidableEq N] (d : Directory N β) (a : N) :
    (d.create a).1.entry a = some (d.create a).2 ∧ (d.create a).1.read a = some [] := by
  unfold create
  split
  · rename_i i hi
    exact ⟨hi, by simp [read, hi]⟩
  · exact ⟨Function.update_self _ _ _, by simp [read]⟩

theorem read_write (h : d.entry a = some i) (x : β) :
    (d.write i x).entry a = some i ∧ (d.write i x).read a = (d.read a).map (· ++ [x]) :=
  ⟨h, by simp [read, write, h]⟩

theorem read_rename [DecidableEq N] {xs : List β} (h : d.read a = some xs) (b : N) :
    (d.rename a b).read b = some xs := by
  obtain ⟨i, hi, hx⟩ := Option.map_eq_some_iff.mp h
  unfold rename
  rw [hi]
  simp [read, hx]

/-! ## 4. And to all others nothing -/

/-- The names in `P` stand for the same files, with the same contents. -/
def SameOn (P : N → Prop) (d d' : Directory N β) : Prop :=
  ∀ a, P a → d'.entry a = d.entry a ∧ d'.read a = d.read a

variable {P : N → Prop}

theorem SameOn.mono {Q : N → Prop} {d' : Directory N β} (h : SameOn P d d') (hQ : ∀ a, Q a → P a) :
    SameOn Q d d' := fun a ha => h a (hQ a ha)

theorem sameOn_of_data {d' : Directory N β} (he : ∀ a, P a → d'.entry a = d.entry a)
    (hd : ∀ a, P a → ∀ j, d.entry a = some j → d'.data j = d.data j) : SameOn P d d' := by
  intro a ha
  refine ⟨he a ha, ?_⟩
  rw [read, read, he a ha]
  exact Option.map_congr fun j hj => hd a ha j hj

theorem SameOn.refl (P : N → Prop) (d : Directory N β) : SameOn P d d := fun _ _ => ⟨rfl, rfl⟩

theorem sameOn_write (hd : Sound d) (hi : d.entry a = some i) (ha : ¬ P a) (x : β) :
    SameOn P d (d.write i x) := by
  refine sameOn_of_data (fun _ _ => rfl) fun b hb j hj => Function.update_of_ne ?_ _ _
  rintro rfl
  exact ha (hd.one a b j hi hj ▸ hb)

theorem sameOn_remove [DecidableEq N] (ha : ¬ P a) : SameOn P d (d.remove a) :=
  sameOn_of_data (fun b hb => Function.update_of_ne (show b ≠ a from fun e => ha (e ▸ hb)) _ _)
    fun _ _ _ _ => rfl

theorem sameOn_create [DecidableEq N] (hd : Sound d) (ha : ¬ P a) : SameOn P d (d.create a).1 := by
  have hne : ∀ b, P b → b ≠ a := fun b hb e => ha (e ▸ hb)
  unfold create
  split
  · rename_i i hi
    refine sameOn_of_data (fun _ _ => rfl) fun b hb j hj => Function.update_of_ne ?_ _ _
    rintro rfl
    exact hne b hb (hd.one b a j hj hi)
  · exact sameOn_of_data (fun b hb => Function.update_of_ne (hne b hb) _ _) fun b _ j hj =>
      Function.update_of_ne (Nat.ne_of_lt (hd.bound b j hj)) _ _

theorem sameOn_rename [DecidableEq N] (ha : ¬ P a) (hb : ¬ P b) : SameOn P d (d.rename a b) := by
  unfold rename
  split
  · refine sameOn_of_data (fun c hc => ?_) fun _ _ _ _ => rfl
    have hca : c ≠ a := fun e => ha (e ▸ hc)
    have hcb : c ≠ b := fun e => hb (e ▸ hc)
    exact (Function.update_of_ne hcb _ _).trans (Function.update_of_ne hca _ _)
  · exact .refl P d

end Directory

end Mit6824.Lib
