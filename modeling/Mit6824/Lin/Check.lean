/-
  File:      Mit6824/Lin/Check.lean
  Subject:   THE CHECK OF A HISTORY (linearizability/linearizability.go lines 229-318): what
             `CheckOperationsTimeout` and `CheckEventsTimeout` have in common, and the first of them.

  The parts are given as entries. The first loop makes a goroutine for each; the second one collects
  results until it has all, one of them is false, or the time is over. Without a timeout that never
  happens.

  * `Worker`, `Check`, `Check.step` -- goroutines, both loops and the timer, interleaved at will; a
    result is handed over when both sides are there; a panic of one takes the others down;
  * `CheckTimeout` -- **whatever is scheduled, an answer comes**, whatever order the parts are in;
    `CheckOperationsTimeout`, `CheckOperations`;
  * `Owes` -- what a goroutine still has to do, and what it will answer;
  * `Tally` -- the same for all of them;
  * `Waiting` -- the second loop has no answer yet; `Waiting.inevitable`;
  * `checkTimeout_answers` -- **false is always right, true unless the time was over**;
  * `checkOperations_iff` -- **every part is explained, or the answer is false**.
-/
import Mit6824.Lin.History

namespace Mit6824.Lin

open Lib

variable {S I O : Type}

/-! ## 1. The code -/

/-- A goroutine, from the list it is made for to the result it has handed over. -/
inductive Worker (S I O : Type) where
  | created (heap : Heap I O) (l : Option Nat)
  | searching (c : Search S I O)
  | sending (result : Bool)
  | done
  | panicked

def Worker.isDone : Worker S I O → Bool
  | .done => true
  | _ => false

def Worker.isPanicked : Worker S I O → Bool
  | .panicked => true
  | _ => false

/-- The goroutine for a part, as it starts. -/
def Worker.begin (entries : List (Entry I O)) : Worker S I O :=
  .created (makeLinkedEntries entries).1 (makeLinkedEntries entries).2

/-- `checkSingle`, round by round, up to its result. -/
def Worker.work (model : Model S I O) (kill : Bool) : Worker S I O → Option (Worker S I O)
  | .created heap l => some ((Search.start model heap l).elim .panicked .searching)
  | .searching c => some ((c.iterate model kill).elim .panicked (Sum.elim .searching .sending))
  | _ => none

theorem Worker.work_isDone {model : Model S I O} {kill : Bool} {w w' : Worker S I O}
    (h : w.work model kill = some w') : w'.isDone = w.isDone := by
  cases w with
  | created heap l =>
      cases h
      cases Search.start model heap l <;> rfl
  | searching c =>
      cases h
      rcases c.iterate model kill with _ | _ | _ <;> rfl
  | sending | done | panicked => cases h

/-- The variables of the check: `parts` is what the first loop has before it, `total` is
    `len(partitions)`. -/
structure Check (S I O : Type) where
  parts : List (List (Entry I O))
  workers : List (Worker S I O)
  total : Nat
  ok : Bool
  kill : Bool
  count : Nat
  result : Option Bool

inductive Act where
  | launch
  | work (i : Nat)
  | receive (i : Nat)
  | expire
  deriving DecidableEq, Repr

namespace Check

def start (parts : List (List (Entry I O))) : Check S I O :=
  ⟨parts, [], parts.length, true, false, 0, none⟩

/-- Lines 256-264 and 303-311: a result has come. -/
def collect (s : Check S I O) (result : Bool) : Check S I O :=
  let ok := s.ok && result
  if !ok then { s with ok := ok, kill := true, result := some ok }
  else
    let count := s.count + 1
    { s with ok := ok, count := count, result := if count ≥ s.total then some ok else none }

/-- `timeout` says whether one was given. -/
def step (model : Model S I O) (timeout : Bool) (s : Check S I O) (act : Act) :
    Option (Check S I O) :=
  if s.workers.any Worker.isPanicked then none
  else
    match act with
    | .launch =>
        match s.parts with
        | [] => none
        | entries :: parts =>
            some { s with parts := parts, workers := s.workers ++ [.begin entries] }
    | .work i => do
        let w ← s.workers[i]?
        let w' ← w.work model s.kill
        some { s with workers := s.workers.set i w' }
    | .receive i =>
        if s.parts.isEmpty && s.result.isNone then
          match s.workers[i]? with
          | some (.sending result) =>
              some (collect { s with workers := s.workers.set i .done } result)
          | _ => none
        else none
    | .expire =>
        if timeout && s.parts.isEmpty && s.result.isNone then some { s with result := some s.ok }
        else none

/-- The goroutines, with those the first loop is still to make. -/
def all (s : Check S I O) : List (Worker S I O) := s.workers ++ s.parts.map .begin

end Check

/-- **Whatever is scheduled and whenever the time is over**, an answer comes, and it has `P`; a part
    may stand anywhere among the parts, since a partition can come out of a map. -/
def CheckTimeout {A : Type} (model : Model S I O) (timeout : Bool) (entriesOf : A → List (Entry I O))
    (parts : List A) (P : Bool → Prop) : Prop :=
  ∀ partitions : List A, partitions.Perm parts →
    Inevitable (Check.step model timeout) (fun s => ∃ b, s.result = some b ∧ P b)
      (Check.start (partitions.map entriesOf))

def CheckOperationsTimeout (model : Model S I O) (timeout : Bool) (history : List (Operation I O))
    (P : Bool → Prop) : Prop :=
  CheckTimeout model timeout makeEntries (model.partition history) P

/-- A timeout of 0 is none. -/
def CheckOperations (model : Model S I O) (history : List (Operation I O)) (b : Bool) : Prop :=
  CheckOperationsTimeout model false history (· = b)

/-! ## 2. What a goroutine owes -/

/-- At most `k` steps, the handing over included, and then it has answered `b`. -/
inductive Owes (model : Model S I O) : Worker S I O → Nat → Bool → Prop where
  | created (heap : Heap I O) (l : Option Nat) (c : Search S I O) (k : Nat) (b : Bool)
      (hc : Search.start model heap l = some c)
      (hk : Returns (Search.iterate model false) c k b) : Owes model (.created heap l) (k + 2) b
  | searching (c : Search S I O) (k : Nat) (b : Bool)
      (hk : Returns (Search.iterate model false) c k b) : Owes model (.searching c) (k + 1) b
  | sending (b : Bool) : Owes model (.sending b) 1 b
  | done : Owes model .done 0 true

namespace Owes

variable {model : Model S I O} {w w' : Worker S I O} {k : Nat} {b : Bool}

theorem isPanicked (h : Owes model w k b) : w.isPanicked = false := by
  cases h <;> rfl

theorem of_isDone (h : Owes model w k b) (hd : w.isDone = true) : b = true := by
  cases h <;> first | rfl | cases hd

theorem work (h : Owes model w k b) (hw : w.work model false = some w') :
    ∃ k' < k, Owes model w' k' b := by
  cases h with
  | created heap l c k b hc hk =>
      rw [Worker.work, hc] at hw
      cases hw
      exact ⟨k + 1, by omega, .searching c k b hk⟩
  | searching c k b hk =>
      rw [Worker.work] at hw
      cases hk with
      | done _ _ hret =>
          rw [hret] at hw
          cases hw
          exact ⟨1, by omega, .sending b⟩
      | next _ c' k _ hnext hk =>
          rw [hnext] at hw
          cases hw
          exact ⟨k + 1, by omega, .searching c' k b hk⟩
  | sending | done => cases hw

end Owes

/-- Owed by all together; the answer is that of the conjunction. -/
inductive Tally (model : Model S I O) : List (Worker S I O) → Nat → Bool → Prop where
  | nil : Tally model [] 0 true
  | cons (w : Worker S I O) (ws : List (Worker S I O)) (k k' : Nat) (b b' : Bool)
      (h : Owes model w k b) (hs : Tally model ws k' b') :
      Tally model (w :: ws) (k + k') (b && b')

namespace Tally

variable {model : Model S I O} {ws : List (Worker S I O)} {k : Nat} {b : Bool}

theorem owes (h : Tally model ws k b) {w : Worker S I O} (hw : w ∈ ws) :
    ∃ k b, Owes model w k b := by
  induction h with
  | nil => cases hw
  | cons v ws k k' b b' hv _ ih =>
      rcases List.mem_cons.mp hw with rfl | hw
      · exact ⟨k, b, hv⟩
      · exact ih hw

/-- **One goroutine and the others**: what the others owe does not change when it goes on. -/
theorem replace (h : Tally model ws k b) {i : Nat} {w : Worker S I O} (hw : ws[i]? = some w) :
    ∃ n c k' b', Owes model w n c ∧ k = n + k' ∧ b = (c && b') ∧
      ∀ w' n' c', Owes model w' n' c' → Tally model (ws.set i w') (n' + k') (c' && b') := by
  induction h generalizing i with
  | nil => cases hw
  | cons v ws k k' b b' hv hs ih =>
      cases i with
      | zero =>
          rw [List.getElem?_cons_zero, Option.some.injEq] at hw
          subst hw
          exact ⟨k, b, k', b', hv, rfl, rfl, fun w' n' c' hw' => .cons w' ws n' k' c' b' hw' hs⟩
      | succ i =>
          rw [List.getElem?_cons_succ] at hw
          obtain ⟨n, c, m, d, hown, hk, hb, hset⟩ := ih hw
          refine ⟨n, c, k + m, b && d, hown, by omega, ?_, fun w' n' c' hw' => ?_⟩
          · rw [hb, Bool.and_left_comm]
          · have := Tally.cons v _ k _ b _ hv (hset w' n' c' hw')
            rwa [Nat.add_left_comm, Bool.and_left_comm] at this

theorem of_isDone (h : Tally model ws k b) (hd : ∀ w ∈ ws, w.isDone = true) : b = true := by
  induction h with
  | nil => rfl
  | cons v ws k k' b b' hv _ ih =>
      rw [hv.of_isDone (hd v List.mem_cons_self),
        ih fun w hw => hd w (List.mem_cons_of_mem _ hw)]
      rfl

theorem any_isPanicked (h : Tally model ws k b) : ws.any Worker.isPanicked = false := by
  rw [List.any_eq_false]
  intro w hw
  obtain ⟨_, _, hown⟩ := h.owes hw
  simp [hown.isPanicked]

end Tally

/-! ## 3. The collecting loop -/

/-- **The loop is still waiting**: `b` is what the goroutines will answer together, and `k` bounds the
    steps that are left. -/
structure Waiting (model : Model S I O) (timeout b : Bool) (s : Check S I O) (k : Nat) :
    Prop where
  ok : s.ok = true
  kill : s.kill = false
  result : s.result = none
  total : s.total = s.workers.length + s.parts.length
  count : s.count = s.workers.countP Worker.isDone
  live : s.count < s.total ∨ timeout = true ∧ s.total = 0
  tally : ∃ n, Tally model s.all n b ∧ k = n + s.parts.length + 1

/-- What may come out: the answer of the goroutines, or true when the time is over. -/
def Answered (timeout b : Bool) (s : Check S I O) : Prop :=
  ∃ b', s.result = some b' ∧ (b' = b ∨ timeout = true ∧ b' = true)

namespace Waiting

variable {model : Model S I O} {timeout b : Bool} {s s' : Check S I O} {k : Nat}

theorem any_isPanicked (h : Waiting model timeout b s k) :
    s.workers.any Worker.isPanicked = false := by
  obtain ⟨n, htally, _⟩ := h.tally
  have := htally.any_isPanicked
  rw [Check.all, List.any_append, Bool.or_eq_false_iff] at this
  exact this.1

/-- While there is no answer, something can be done. -/
theorem go (h : Waiting model timeout b s k) : ∃ a s', s.step model timeout a = some s' := by
  have hpan := h.any_isPanicked
  obtain ⟨n, htally, _⟩ := h.tally
  cases hparts : s.parts with
  | cons entries parts => exact ⟨.launch, by simp [Check.step, hpan, hparts]⟩
  | nil =>
      rcases h.live with hshort | ⟨htime, _⟩
      · -- a goroutine that is not done has something to do or to hand over
        obtain ⟨w, hmem, hd⟩ : ∃ w ∈ s.workers, ¬ w.isDone = true := by
          by_contra hall
          push Not at hall
          have hc := h.count
          have ht := h.total
          rw [hparts] at ht
          rw [List.countP_eq_length.mpr hall] at hc
          simp only [List.length_nil] at ht
          omega
        obtain ⟨i, hi⟩ := List.getElem?_of_mem hmem
        obtain ⟨n, c, hown⟩ := htally.owes (List.mem_append_left _ hmem)
        cases hown with
        | created => exact ⟨.work i, by simp [Check.step, hpan, hi, Worker.work]⟩
        | searching => exact ⟨.work i, by simp [Check.step, hpan, hi, Worker.work]⟩
        | sending => exact ⟨.receive i, by simp [Check.step, hpan, hi, hparts, h.result]⟩
        | done => exact absurd rfl hd
      · exact ⟨.expire, by simp [Check.step, hpan, hparts, h.result, htime]⟩

theorem launch (h : Waiting model timeout b s k) (hs : s.step model timeout .launch = some s') :
    ∃ k' < k, Waiting model timeout b s' k' := by
  obtain ⟨n, htally, rfl⟩ := h.tally
  rw [Check.step, h.any_isPanicked] at hs
  cases hparts : s.parts with
  | nil =>
      rw [hparts] at hs
      cases hs
  | cons entries parts =>
      rw [hparts] at hs
      cases hs
      have htotal := h.total
      rw [hparts, List.length_cons] at htotal
      refine ⟨n + parts.length + 1, by rw [List.length_cons]; omega, h.ok, h.kill, h.result, ?_, ?_,
        h.live, n, ?_, rfl⟩
      · dsimp only
        rw [List.length_append, List.length_singleton]
        omega
      · dsimp only
        rw [List.countP_append, h.count]
        rfl
      · -- it was among those still to be made
        rw [Check.all, hparts, List.map_cons, List.append_cons] at htally
        exact htally

/-- **One goroutine goes on**: it owes less than before, and the same answer. -/
theorem work (h : Waiting model timeout b s k) {i : Nat}
    (hs : s.step model timeout (.work i) = some s') : ∃ k' < k, Waiting model timeout b s' k' := by
  obtain ⟨n, htally, rfl⟩ := h.tally
  rw [Check.step, h.any_isPanicked] at hs
  simp only [Bool.false_eq_true, if_false, Option.bind_eq_bind, Option.bind_eq_some_iff,
    Option.some.injEq] at hs
  obtain ⟨w, hw, w', hw', rfl⟩ := hs
  rw [h.kill] at hw'
  obtain ⟨hi, hwi⟩ := List.getElem?_eq_some_iff.mp hw
  have hall : s.all[i]? = some w := by rw [Check.all, List.getElem?_append_left hi, hw]
  obtain ⟨m, c, n', d, hown, hn, hb, hset⟩ := htally.replace hall
  obtain ⟨m', hlt, hown'⟩ := hown.work hw'
  have hsame : (s.workers.set i w').countP Worker.isDone = s.workers.countP Worker.isDone := by
    rw [List.countP_set hi, Worker.work_isDone hw', hwi]
    split
    · rename_i hdone
      have : 0 < s.workers.countP Worker.isDone :=
        List.countP_pos_iff.mpr ⟨_, List.getElem_mem hi, hwi ▸ hdone⟩
      omega
    · rfl
  refine ⟨m' + n' + s.parts.length + 1, by omega, h.ok, h.kill, h.result, ?_, ?_, h.live, m' + n',
    ?_, rfl⟩
  · dsimp only
    rw [List.length_set]
    exact h.total
  · exact h.count.trans hsame.symm
  · have := hset w' m' c hown'
    rw [Check.all, List.set_append_left _ _ hi] at this
    rw [hb]
    exact this

/-- **A result comes in**: the loop has its answer, or waits for one result less. -/
theorem receive (h : Waiting model timeout b s k) {i : Nat}
    (hs : s.step model timeout (.receive i) = some s') :
    ∃ k' < k, Answered timeout b s' ∨ Waiting model timeout b s' k' := by
  obtain ⟨n, htally, rfl⟩ := h.tally
  rw [Check.step, h.any_isPanicked] at hs
  simp only [Bool.false_eq_true, if_false] at hs
  split at hs
  case isFalse => cases hs
  case isTrue hready =>
  split at hs
  case h_2 => cases hs
  case h_1 result hw =>
  cases hs
  have hparts : s.parts = [] := List.isEmpty_iff.mp (Bool.and_eq_true_iff.mp hready).1
  obtain ⟨hi, hwi⟩ := List.getElem?_eq_some_iff.mp hw
  have hall : s.all[i]? = some (.sending result) := by
    rw [Check.all, List.getElem?_append_left hi, hw]
  obtain ⟨m, c, n', d, hown, hn, hb, hset⟩ := htally.replace hall
  cases hown
  have htotal := h.total
  rw [hparts, List.length_nil, Nat.add_zero] at htotal
  refine ⟨n' + s.parts.length + 1, by omega, ?_⟩
  cases result with
  | false =>
      left
      refine ⟨false, ?_, Or.inl hb.symm⟩
      rw [Check.collect, h.ok]
      rfl
  | true =>
      have htally' := hset .done 0 true .done
      rw [Bool.true_and, Nat.zero_add, Check.all, List.set_append_left _ _ hi] at htally'
      rw [Bool.true_and] at hb
      subst hb
      have hcount : s.count + 1 = (s.workers.set i .done).countP Worker.isDone := by
        rw [List.countP_set hi, hwi, h.count]
        rfl
      simp only [Check.collect, h.ok, Bool.and_true, Bool.not_true, Bool.false_eq_true, if_false]
      by_cases hlast : s.count + 1 ≥ s.total
      · -- the last one
        left
        have hlen : (s.workers.set i .done).countP Worker.isDone = (s.workers.set i .done).length := by
          refine Nat.le_antisymm List.countP_le_length ?_
          rw [List.length_set, ← hcount, ← htotal]
          exact hlast
        have hdone := List.countP_eq_length.mp hlen
        rw [hparts, List.map_nil, List.append_nil] at htally'
        exact ⟨true, if_pos hlast, Or.inl (htally'.of_isDone hdone).symm⟩
      · right
        refine ⟨rfl, h.kill, if_neg hlast, ?_, hcount, Or.inl (Nat.lt_of_not_le hlast), n', htally',
          rfl⟩
        dsimp only
        rw [List.length_set]
        exact h.total

/-- **The loop gets an answer.** -/
theorem inevitable (h : Waiting model timeout b s k) :
    Inevitable (Check.step model timeout) (Answered timeout b) s := by
  refine inevitable_of_weight
    (W := fun s k => Answered timeout b s ∨ Waiting model timeout b s k) ?_ (Or.inr h)
  rintro s k (hres | h)
  · exact Or.inl hres
  · refine Or.inr ⟨h.go, fun a s' hs => ?_⟩
    cases a with
    | launch =>
        obtain ⟨k', hlt, h'⟩ := h.launch hs
        exact ⟨k', hlt, Or.inr h'⟩
    | work i =>
        obtain ⟨k', hlt, h'⟩ := h.work hs
        exact ⟨k', hlt, Or.inr h'⟩
    | receive i => exact h.receive hs
    | expire =>
        obtain ⟨n, _, hk⟩ := h.tally
        rw [Check.step, h.any_isPanicked] at hs
        simp only [Bool.false_eq_true, if_false] at hs
        split at hs
        · rename_i hready
          cases hs
          simp only [Bool.and_eq_true] at hready
          exact ⟨0, by omega, Or.inl ⟨true, congrArg some h.ok, Or.inr ⟨hready.1.1, rfl⟩⟩⟩
        · cases hs

end Waiting

theorem waiting_start {model : Model S I O} {timeout : Bool} {parts : List (List (Entry I O))}
    (hgo : parts ≠ [] ∨ timeout = true) {n : Nat} {b : Bool}
    (h : Tally model (parts.map .begin) n b) :
    Waiting model timeout b (Check.start parts) (n + parts.length + 1) where
  ok := rfl
  kill := rfl
  result := rfl
  total := (Nat.zero_add _).symm
  count := rfl
  live := by
    rcases Nat.eq_zero_or_pos parts.length with h0 | hpos
    · exact Or.inr ⟨hgo.resolve_left (not_not.mpr (List.length_eq_zero_iff.mp h0)), h0⟩
    · exact Or.inl hpos
  tally := ⟨n, h, rfl⟩

/-! ## 4. The answer -/

/-- The entries of a part have an order that `Step` takes. -/
def Solved (model : Model S I O) (entries : List (Entry I O)) : Prop :=
  ∃ L, Finishes (acceptor model entries) (entries.map Entry.mark) ∅ model.init L

/-- `checkSingle` on every part. -/
theorem exists_tally {model : Model S I O} (hm : model.Respects)
    {parts : List (List (Entry I O))} (hw : ∀ p ∈ parts, WellFormed p (p.length / 2)) :
    ∃ n b, Tally model (parts.map .begin) n b ∧ (b = true ↔ ∀ p ∈ parts, Solved model p) := by
  induction parts with
  | nil => exact ⟨0, true, .nil, by simp⟩
  | cons p parts ih =>
      obtain ⟨n', b', htally, hb'⟩ := ih fun p' hp => hw p' (List.mem_cons_of_mem _ hp)
      obtain ⟨c, k, b, hc, hk, hb⟩ := checkSingle_returns hm (hw p List.mem_cons_self)
      refine ⟨_, _, .cons _ _ _ _ _ _ (.created _ _ c k b hc hk) htally, ?_⟩
      rw [Bool.and_eq_true, hb, hb', List.forall_mem_cons]
      rfl

theorem Check.step_result {model : Model S I O} {timeout b : Bool} {s s' : Check S I O} {a : Act}
    (h : s.result = some b) (hs : s.step model timeout a = some s') : s'.result = some b := by
  unfold Check.step at hs
  split at hs
  · cases hs
  cases a with
  | launch =>
      dsimp only at hs
      split at hs
      · cases hs
      · cases hs
        exact h
  | work i =>
      simp only [Option.bind_eq_bind, Option.bind_eq_some_iff, Option.some.injEq] at hs
      obtain ⟨w, _, w', _, rfl⟩ := hs
      exact h
  | receive i => simp [h] at hs
  | expire => simp [h] at hs

theorem Check.result_stays {model : Model S I O} {timeout : Bool} {P : Bool → Prop}
    (s : Check S I O) (a : Act) (s' : Check S I O) (h : ∃ b, s.result = some b ∧ P b)
    (hs : s.step model timeout a = some s') : ∃ b, s'.result = some b ∧ P b := by
  obtain ⟨b, hb, hP⟩ := h
  exact ⟨b, Check.step_result hb hs, hP⟩

namespace CheckTimeout

variable {A : Type} {model : Model S I O} {timeout : Bool} {entriesOf : A → List (Entry I O)}
  {parts : List A}

theorem mono {P Q : Bool → Prop} (h : CheckTimeout model timeout entriesOf parts P)
    (hPQ : ∀ b, P b → Q b) : CheckTimeout model timeout entriesOf parts Q := by
  intro partitions hp
  refine (h partitions hp).mono ?_
  rintro s ⟨b, hres, hb⟩
  exact ⟨b, hres, hPQ b hb⟩

/-- There is one answer. -/
theorem unique {b b' : Bool} (h : CheckTimeout model timeout entriesOf parts (· = b))
    (h' : CheckTimeout model timeout entriesOf parts (· = b')) : b = b' := by
  obtain ⟨s, ⟨b₁, hr₁, rfl⟩, b₂, hr₂, rfl⟩ := (h _ (List.Perm.refl _)).meet Check.result_stays
    Check.result_stays (h' _ (List.Perm.refl _))
  exact Option.some.inj (hr₁.symm.trans hr₂)

/-- The answer, from what it has to be. -/
theorem of_iff {P : Prop} (h : CheckTimeout model false entriesOf parts fun b =>
      (b = false → ¬ P) ∧ (false = false → b = true → P)) :
    (∃ b, CheckTimeout model false entriesOf parts (· = b)) ∧
      (CheckTimeout model false entriesOf parts (· = true) ↔ P) := by
  classical
  have hb : CheckTimeout model false entriesOf parts (· = decide P) := by
    refine h.mono ?_
    rintro b ⟨hfalse, htrue⟩
    cases b with
    | true => exact (decide_eq_true (htrue rfl rfl)).symm
    | false => exact (decide_eq_false (hfalse rfl)).symm
  refine ⟨⟨_, hb⟩, fun ht => of_decide_eq_true (hb.unique ht), fun hP => ?_⟩
  rwa [decide_eq_true hP] at hb

end CheckTimeout

/-- **An answer comes**: false is always right, and true is unless the time was over. `E` says what
    it is about. -/
theorem checkTimeout_answers {A : Type} {model : Model S I O} (hm : model.Respects) {timeout : Bool}
    {entriesOf : A → List (Entry I O)} {parts : List A} {E : A → Prop}
    (hw : ∀ sub ∈ parts, WellFormed (entriesOf sub) ((entriesOf sub).length / 2))
    (hE : ∀ sub ∈ parts, Solved model (entriesOf sub) ↔ E sub)
    (hgo : parts ≠ [] ∨ timeout = true) :
    CheckTimeout model timeout entriesOf parts fun b =>
      (b = false → ¬ ∀ sub ∈ parts, E sub) ∧
      (timeout = false → b = true → ∀ sub ∈ parts, E sub) := by
  intro partitions hp
  have hwell : ∀ p ∈ partitions.map entriesOf, WellFormed p (p.length / 2) :=
    List.forall_mem_map.mpr fun sub hsub => hw sub (hp.mem_iff.mp hsub)
  obtain ⟨n, b, htally, hb⟩ := exists_tally hm hwell
  -- the parts in another order have the same answer
  have hall : b = true ↔ ∀ sub ∈ parts, E sub := by
    rw [hb, List.forall_mem_map]
    simp only [hp.mem_iff]
    exact forall₂_congr hE
  have hgo' : partitions.map entriesOf ≠ [] ∨ timeout = true := by
    refine hgo.imp_left fun hne hnil => hne ?_
    rw [List.map_eq_nil_iff] at hnil
    rw [hnil] at hp
    exact hp.nil_eq.symm
  refine (waiting_start hgo' htally).inevitable.mono ?_
  rintro s ⟨b', hres, rfl | ⟨htime, rfl⟩⟩
  · refine ⟨b', hres, fun hf h => ?_, fun _ => hall.mp⟩
    rw [hall.mpr h] at hf
    cases hf
  · refine ⟨true, hres, (by decide : true ≠ false).elim, fun hno => ?_⟩
    rw [htime] at hno
    cases hno

theorem checkOperationsTimeout_answers {model : Model S I O} (hm : model.Respects) {timeout : Bool}
    {history : List (Operation I O)} (hgo : model.partition history ≠ [] ∨ timeout = true)
    (ht : ∀ sub ∈ model.partition history, Timed sub) :
    CheckOperationsTimeout model timeout history fun b =>
      (b = false → ¬ ∀ sub ∈ model.partition history,
        Explained model.object Operation.call Operation.ret model.init sub) ∧
      (timeout = false → b = true → ∀ sub ∈ model.partition history,
        Explained model.object Operation.call Operation.ret model.init sub) :=
  checkTimeout_answers hm (fun sub hsub => (ht sub hsub).wellFormed)
    (fun sub hsub => (ht sub hsub).exists_finishes_iff model) hgo

/-- **The answer of `CheckOperations`**: it comes, and it is whether every part is explained. -/
theorem checkOperations_iff {model : Model S I O} (hm : model.Respects)
    {history : List (Operation I O)} (hne : model.partition history ≠ [])
    (ht : ∀ sub ∈ model.partition history, Timed sub) :
    (∃ b, CheckOperations model history b) ∧
      (CheckOperations model history true ↔ ∀ sub ∈ model.partition history,
        Explained model.object Operation.call Operation.ret model.init sub) :=
  (checkOperationsTimeout_answers hm (Or.inl hne) ht).of_iff

end Mit6824.Lin
