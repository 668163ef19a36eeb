/-
  File:      Mit6824/Lib/Loops.lean
  Subject:   LOOPS THAT RETURN, and systems that get somewhere whatever is scheduled.

  The body of a loop goes on with a new state or returns a value; `none` is a failure of the body.

  * `Returns body s k b` -- the loop returns `b` in round `k`;
  * `Returns.sim` -- a loop that follows another one round by round returns what that one returns;
    `Returns.of_eq_on` -- one whose body is the same wherever the loop comes;
  * `returns_of_weight`, `not_returns_of_inv` -- by a number that falls it returns, by an invariant
    that lets it go on it never does;
  * `Inevitable step P s` -- every run from `s` comes to a state with `P`: none ends before, none
    goes on for ever without;
  * `Inevitable.meet` -- two things that are inevitable and stay come together;
  * `inevitable_of_weight` -- by a number that falls with every step.
-/
import Mathlib.Data.Sum.Basic
import Mathlib.Order.Basic

namespace Mit6824.Lib

variable {σ τ α β : Type}

/-! ## 1. Loops -/

/-- **The loop returns `b`**, in the `k`th round from `s`. -/
inductive Returns (body : σ → Option (σ ⊕ β)) : σ → ℕ → β → Prop where
  | done (s : σ) (b : β) (h : body s = some (.inr b)) : Returns body s 1 b
  | next (s s' : σ) (k : ℕ) (b : β) (h : body s = some (.inl s')) (hr : Returns body s' k b) :
      Returns body s (k + 1) b

/-- **The simulation rule for loops**: both go on, or both return the same. -/
theorem Returns.sim {body : σ → Option (σ ⊕ β)} {body' : τ → Option (τ ⊕ β)} {R : τ → σ → Prop}
    (hround : ∀ t s r, R t s → body s = some r → ∃ r', body' t = some r' ∧ Sum.LiftRel R Eq r' r)
    {s : σ} {k : ℕ} {b : β} (h : Returns body s k b) {t : τ} (hR : R t s) : Returns body' t k b := by
  induction h generalizing t with
  | done s b h =>
      obtain ⟨r', ht, hr⟩ := hround t s _ hR h
      cases hr with
      | inr heq => exact .done _ _ (heq ▸ ht)
  | next s s' k b h _ ih =>
      obtain ⟨r', ht, hr⟩ := hround t s _ hR h
      cases hr with
      | inl hR' => exact .next _ _ _ _ ht (ih hR')

/-- The bodies are the same in all states the loop comes to. -/
theorem Returns.of_eq_on {body body' : σ → Option (σ ⊕ β)} {I : σ → Prop}
    (heq : ∀ s, I s → body' s = body s) (hI : ∀ s s', I s → body s = some (.inl s') → I s') {s : σ}
    {k : ℕ} {b : β} (h : Returns body s k b) (h0 : I s) : Returns body' s k b := by
  induction h with
  | done s b h => exact .done s b ((heq s h0).trans h)
  | next s s' k b h _ ih => exact .next s s' k b ((heq s h0).trans h) (ih (hI s s' h0 h))

/-- **The measure rule**: a number that falls with every round bounds the rounds. -/
theorem returns_of_weight {body : σ → Option (σ ⊕ β)} {W : σ → ℕ → Prop} {P : β → Prop}
    (hround : ∀ s w, W s w → (∃ b, body s = some (.inr b) ∧ P b) ∨
      ∃ s' w', body s = some (.inl s') ∧ w' < w ∧ W s' w') {s : σ} {w : ℕ} (h : W s w) :
    ∃ k b, Returns body s k b ∧ k ≤ w + 1 ∧ P b := by
  induction w using Nat.strongRecOn generalizing s with
  | _ w ih =>
      rcases hround s w h with ⟨b, hb, hP⟩ | ⟨s', w', hs, hlt, hW⟩
      · exact ⟨1, b, .done s b hb, by omega, hP⟩
      · obtain ⟨k, b, hr, hk, hP⟩ := ih w' hlt hW
        exact ⟨k + 1, b, .next s s' k b hs hr, by omega, hP⟩

/-- **The rule for endless loops**: states from which the loop only goes on to such states. -/
theorem not_returns_of_inv {body : σ → Option (σ ⊕ β)} {I : σ → Prop}
    (hround : ∀ s, I s → ∃ s', body s = some (.inl s') ∧ I s') {s : σ} (h : I s) {k : ℕ} {b : β} :
    ¬ Returns body s k b := by
  intro hr
  induction hr with
  | done s b hb =>
      obtain ⟨s', hs, _⟩ := hround s h
      rw [hs] at hb
      cases hb
  | next s s' k b hb _ ih =>
      obtain ⟨s₁, hs, hI⟩ := hround s h
      rw [hs, Option.some.injEq, Sum.inl.injEq] at hb
      exact ih (hb ▸ hI)

/-! ## 2. What every schedule leads to -/

/-- **Every run from `s` comes to a state with `P`.** -/
inductive Inevitable (step : σ → α → Option σ) (P : σ → Prop) : σ → Prop where
  | now (s : σ) (h : P s) : Inevitable step P s
  | later (s : σ) (hgo : ∃ a s', step s a = some s')
      (h : ∀ a s', step s a = some s' → Inevitable step P s') : Inevitable step P s

theorem Inevitable.mono {step : σ → α → Option σ} {P Q : σ → Prop} (hPQ : ∀ s, P s → Q s) {s : σ}
    (h : Inevitable step P s) : Inevitable step Q s := by
  induction h with
  | now s h => exact .now s (hPQ s h)
  | later s hgo _ ih => exact .later s hgo ih

/-- What stays and is inevitable comes together with anything else that is. -/
theorem Inevitable.meet {step : σ → α → Option σ} {P Q : σ → Prop}
    (hP : ∀ s a s', P s → step s a = some s' → P s') (hQ : ∀ s a s', Q s → step s a = some s' → Q s')
    {s : σ} (h : Inevitable step P s) (h' : Inevitable step Q s) : ∃ t, P t ∧ Q t := by
  induction h with
  | now s h =>
      induction h' with
      | now s h' => exact ⟨s, h, h'⟩
      | later s hgo _ ih =>
          obtain ⟨a, s', hs⟩ := hgo
          exact ih a s' hs (hP s a s' h hs)
  | later s hgo _ ih =>
      obtain ⟨a, s', hs⟩ := hgo
      refine ih a s' hs ?_
      cases h' with
      | now _ h' => exact .now s' (hQ s a s' h' hs)
      | later _ _ h' => exact h' a s' hs

/-- By a number that falls with every step. -/
theorem inevitable_of_weight {step : σ → α → Option σ} {P : σ → Prop} {W : σ → ℕ → Prop}
    (hW : ∀ s k, W s k → P s ∨ ((∃ a s', step s a = some s') ∧
      ∀ a s', step s a = some s' → ∃ k' < k, W s' k')) {s : σ} {k : ℕ} (h : W s k) :
    Inevitable step P s := by
  induction k using Nat.strongRecOn generalizing s with
  | _ k ih =>
      rcases hW s k h with hP | ⟨hgo, hall⟩
      · exact .now s hP
      · refine .later s hgo fun a s' hs => ?_
        obtain ⟨k', hlt, h'⟩ := hall a s' hs
        exact ih k' hlt h'

end Mit6824.Lib
