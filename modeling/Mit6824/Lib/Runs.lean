/-
  File:      Mit6824/Lib/Runs.lean
  Subject:   RUNS OF A STEP FUNCTION, under a guard on every step.

  A system is a function `step : σ → α → Option σ` (`none`: the action is not possible there).

  * `Reach step G s₀ s` -- a run from `s₀` to `s` all of whose steps meet the guard `G`;
  * `Reach.inv` -- what holds at the start and is kept by every guarded step holds wherever a
    guarded run leads; `Reach.mono`, `Reach.trans` -- weaker guards, runs put together;
  * `Reach.sim` -- the same for a pair of a state and a witness that may grow on the way;
    `Reach.refine` -- for a state of a second system, which runs along;
  * `exec`, `exists_of_exec`, `exists_of_run` -- a run given as a list of actions, guard included,
    by evaluation.
-/
import Mathlib.Logic.Basic
import Mathlib.Order.Basic

namespace Mit6824.Lib

variable {σ α : Type}

/-- **A guarded run**: `s` is reached from `s₀` by steps that all meet `G`. -/
inductive Reach (step : σ → α → Option σ) (G : σ → α → Prop) (s₀ : σ) : σ → Prop where
  | start : Reach step G s₀ s₀
  | move (s s' : σ) (a : α) (h : Reach step G s₀ s) (hg : G s a) (hs : step s a = some s') :
      Reach step G s₀ s'

section Reach

variable {step : σ → α → Option σ} {G G' : σ → α → Prop}

theorem Reach.trans {s₀ s₁ s₂ : σ} (h₁ : Reach step G s₀ s₁) (h₂ : Reach step G s₁ s₂) :
    Reach step G s₀ s₂ := by
  induction h₂ with
  | start => exact h₁
  | move s s' a _ hg hs ih => exact .move _ _ _ ih hg hs

/-- A run under a stronger guard is one under the weaker guard. -/
theorem Reach.mono (hG : ∀ s a, G s a → G' s a) {s₀ s : σ} (h : Reach step G s₀ s) :
    Reach step G' s₀ s := by
  induction h with
  | start => exact .start
  | move s s' a _ hg hs ih => exact .move _ _ _ ih (hG _ _ hg) hs

/-- **The invariant rule.** -/
theorem Reach.inv {I : σ → Prop} {s₀ : σ} (h0 : I s₀)
    (hI : ∀ s a s', I s → G s a → step s a = some s' → I s') {s : σ} (h : Reach step G s₀ s) :
    I s := by
  induction h with
  | start => exact h0
  | move s s' a _ hg hs ih => exact hI _ _ _ ih hg hs

/-- A guard that an invariant implies on the run comes for free. -/
theorem Reach.strengthen {I : σ → Prop} {s₀ : σ} (h0 : I s₀)
    (hI : ∀ s a s', I s → G s a → step s a = some s' → I s')
    (hG : ∀ s a s', I s → G s a → step s a = some s' → G' s a) {s : σ}
    (h : Reach step G s₀ s) : I s ∧ Reach step G' s₀ s := by
  induction h with
  | start => exact ⟨h0, .start⟩
  | move s s' a _ hg hs ih =>
      exact ⟨hI _ _ _ ih.1 hg hs, .move _ _ _ ih.2 (hG _ _ _ ih.1 hg hs) hs⟩

/-- **The simulation rule**: a relation to a second state that every step can follow, while the
    second state only grows in the order `le`. -/
theorem Reach.sim {β : Type*} [Preorder β] {R : σ → β → Prop}
    (hR : ∀ s a s' b, R s b → G s a → step s a = some s' → ∃ b', R s' b' ∧ b ≤ b')
    {s₀ s : σ} (h : Reach step G s₀ s) {b₀ : β} (h0 : R s₀ b₀) : ∃ b, R s b ∧ b₀ ≤ b := by
  induction h with
  | start => exact ⟨b₀, h0, le_refl _⟩
  | move s s' a _ hg hs ih =>
      obtain ⟨b, hb, hle⟩ := ih
      obtain ⟨b', hb', hle'⟩ := hR _ _ _ _ hb hg hs
      exact ⟨b', hb', le_trans hle hle'⟩

/-- **The refinement rule**: a relation to the states of a second system, which can follow every
    step by a run of its own. -/
theorem Reach.refine {τ β : Type} {step' : τ → β → Option τ} {H : τ → β → Prop}
    {R : σ → τ → Prop}
    (hR : ∀ s a s' t, R s t → G s a → step s a = some s' → ∃ t', Reach step' H t t' ∧ R s' t')
    {s₀ s : σ} (h : Reach step G s₀ s) {t₀ : τ} (h0 : R s₀ t₀) :
    ∃ t, Reach step' H t₀ t ∧ R s t := by
  induction h with
  | start => exact ⟨t₀, .start, h0⟩
  | move s s' a _ hg hs ih =>
      obtain ⟨t, hrun, ht⟩ := ih
      obtain ⟨t', hrun', ht'⟩ := hR _ _ _ _ ht hg hs
      exact ⟨t', hrun.trans hrun', ht'⟩

end Reach

/-! ## Runs as lists of actions -/

/-- The state a list of actions leads to; `none` as soon as an action is not possible or does not
    meet the guard. -/
def exec (step : σ → α → Option σ) (guard : σ → α → Bool) : σ → List α → Option σ
  | s, [] => some s
  | s, a :: as =>
      if guard s a then
        match step s a with
        | some s' => exec step guard s' as
        | none => none
      else none

/-- One list of actions after another. -/
theorem exec_append {step : σ → α → Option σ} {guard : σ → α → Bool} (bs : List α) :
    ∀ {as : List α} {s s' : σ}, exec step guard s as = some s' →
      exec step guard s (as ++ bs) = exec step guard s' bs := by
  intro as
  induction as with
  | nil =>
      intro s s' h
      cases Option.some.inj h
      rfl
  | cons a as ih =>
      intro s s' h
      rw [List.cons_append]
      simp only [exec] at h ⊢
      split at h
      · rename_i hg
        rw [if_pos hg]
        split at h
        · rename_i s₁ hs
          exact ih h
        · cases h
      · cases h

theorem reach_of_exec {step : σ → α → Option σ} {guard : σ → α → Bool} :
    ∀ {as : List α} {s s' : σ}, exec step guard s as = some s' →
      Reach step (fun s a => guard s a = true) s s'
  | [], s, s', h => by
      simp only [exec, Option.some.injEq] at h
      subst h
      exact .start
  | a :: as, s, s', h => by
      unfold exec at h
      split at h
      · rename_i hg
        split at h
        · rename_i s₁ hs
          exact (Reach.move _ _ a .start hg hs).trans (reach_of_exec h)
        · cases h
      · cases h

/-- A run by evaluation, with what is to be seen at its end. -/
theorem exists_of_exec {step : σ → α → Option σ} {guard : σ → α → Bool} {s : σ} {as : List α}
    {p : σ → Bool} (h : (exec step guard s as).any p = true) :
    ∃ s', Reach step (fun s a => guard s a = true) s s' ∧ p s' = true := by
  cases he : exec step guard s as with
  | none =>
      rw [he] at h
      cases h
  | some s' =>
      rw [he] at h
      exact ⟨s', reach_of_exec he, h⟩

/-- No guard at all: every run. -/
def AnyStep (_ : σ) (_ : α) : Prop := True

theorem exists_of_run {step : σ → α → Option σ} {s : σ} {as : List α} {p : σ → Bool}
    (h : (exec step (fun _ _ => true) s as).any p = true) :
    ∃ s', Reach step AnyStep s s' ∧ p s' = true := by
  obtain ⟨s', hr, hp⟩ := exists_of_exec h
  exact ⟨s', hr.mono fun _ _ _ => trivial, hp⟩

end Mit6824.Lib
