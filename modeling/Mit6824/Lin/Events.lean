/-
  File:      Mit6824/Lin/Events.lean
  Subject:   HISTORIES OF EVENTS (linearizability/model.go, linearizability.go lines 81-107, 214-225,
             271-318): `renumber`, `convertEntries`, `fillDefault`, `CheckEvents`.

  An event is a call or a return, under any id. `renumber` gives the ids the numbers 0, 1, ... in the
  order they come in; the search needs them to be small.

  * `renumberFrom_spec` -- ids that are different get different numbers, all below the count of ids;
  * `Whole`, `complete_renumber` -- one call and one later return for each id is what it needs;
  * `Explains`, `solved_renumber` -- the numbers make no difference to what is looked for;
  * `checkEvents_decides` -- **the answer comes, and is whether the events can be explained**;
  * `checkEvents_agrees` -- on the events of a timed history it is the answer of `CheckOperations`.
-/
import Mit6824.Lin.Check

namespace Mit6824.Lin

open Lib

variable {S I O : Type}

/-! ## 1. The code -/

/-- A call holds an input, a return an output. -/
structure Event (I O : Type) where
  value : I ⊕ O
  id : Nat
  deriving DecidableEq, Repr

/-- The loop of `renumber`: `m` holds the numbers so far, `id` is the next one. -/
def renumberFrom (m : Nat → Option Nat) (id : Nat) : List (Event I O) → List (Event I O)
  | [] => []
  | v :: events =>
      match m v.id with
      | some r => ⟨v.value, r⟩ :: renumberFrom m id events
      | none => ⟨v.value, id⟩ :: renumberFrom (Function.update m v.id (some id)) (id + 1) events

def renumber (events : List (Event I O)) : List (Event I O) := renumberFrom (fun _ => none) 0 events

def convertEntries (events : List (Event I O)) : List (Entry I O) :=
  events.map fun elem => ⟨elem.value, elem.id, -1⟩

/-- A `Model` as a caller gives it: some functions may be `nil`. -/
structure GivenModel (S I O : Type) where
  partition : Option (List (Operation I O) → List (List (Operation I O)))
  partitionEvent : Option (List (Event I O) → List (List (Event I O)))
  init : S
  step : S → I → O → Bool × S
  equal : Option (S → S → Bool)

structure EventModel (S I O : Type) extends Model S I O where
  partitionEvent : List (Event I O) → List (List (Event I O))

def noPartition (history : List (Operation I O)) : List (List (Operation I O)) := [history]

def noPartitionEvent (history : List (Event I O)) : List (List (Event I O)) := [history]

def fillDefault [DecidableEq S] (model : GivenModel S I O) : EventModel S I O where
  partition := model.partition.getD noPartition
  partitionEvent := model.partitionEvent.getD noPartitionEvent
  init := model.init
  step := model.step
  equal := model.equal.getD shallowEqual

def CheckEventsTimeout [DecidableEq S] (model : GivenModel S I O) (timeout : Bool)
    (history : List (Event I O)) (P : Bool → Prop) : Prop :=
  CheckTimeout (fillDefault model).toModel timeout
    (fun subhistory => convertEntries (renumber subhistory))
    ((fillDefault model).partitionEvent history) P

def CheckEvents [DecidableEq S] (model : GivenModel S I O) (history : List (Event I O)) (b : Bool) :
    Prop := CheckEventsTimeout model false history (· = b)

/-! ## 2. New numbers -/

def Event.rename (f : Nat → Nat) (v : Event I O) : Event I O := ⟨v.value, f v.id⟩

/-- The numbers below `id` are given, each to one id. -/
structure Numbered (m : Nat → Option Nat) (id : Nat) : Prop where
  inj : ∀ x y r, m x = some r → m y = some r → x = y
  onto : ∀ r, r < id ↔ ∃ x, m x = some r

theorem numbered_none : Numbered (fun _ => none) 0 where
  inj _ _ _ h := by cases h
  onto r := by simp

theorem Numbered.next {m : Nat → Option Nat} {id x : Nat} (h : Numbered m id) (hx : m x = none) :
    Numbered (Function.update m x (some id)) (id + 1) := by
  have cases' : ∀ {y r}, Function.update m x (some id) y = some r →
      (y = x ∧ r = id) ∨ (y ≠ x ∧ m y = some r ∧ r < id) := by
    intro y r hy
    by_cases hyx : y = x
    · subst hyx
      rw [Function.update_self, Option.some.injEq] at hy
      exact Or.inl ⟨rfl, hy.symm⟩
    · rw [Function.update_of_ne hyx] at hy
      exact Or.inr ⟨hyx, hy, (h.onto r).mpr ⟨y, hy⟩⟩
  refine ⟨fun y z r hy hz => ?_, fun r => ⟨fun hr => ?_, ?_⟩⟩
  · rcases cases' hy with ⟨rfl, rfl⟩ | ⟨_, hy, hlt⟩ <;> rcases cases' hz with ⟨rfl, hr⟩ | ⟨_, hz, hlt'⟩
    · rfl
    · exact absurd hlt' (lt_irrefl _)
    · exact absurd hlt (hr ▸ lt_irrefl _)
    · exact h.inj y z r hy hz
  · rcases Nat.lt_succ_iff_lt_or_eq.mp hr with hlt | rfl
    · obtain ⟨y, hy⟩ := (h.onto r).mp hlt
      have hyx : y ≠ x := by
        rintro rfl
        rw [hx] at hy
        cases hy
      exact ⟨y, (Function.update_of_ne hyx ..).trans hy⟩
    · exact ⟨x, Function.update_self ..⟩
  · rintro ⟨y, hy⟩
    rcases cases' hy with ⟨_, rfl⟩ | ⟨_, _, hlt⟩ <;> omega

/-- **What `renumber` does to the ids**, from the numbers given so far on. -/
theorem renumberFrom_spec (events : List (Event I O)) {m : Nat → Option Nat} {id : Nat}
    (h : Numbered m id) : ∃ m' n, Numbered m' n ∧ (∀ x r, m x = some r → m' x = some r) ∧
      (∀ x r, m' x = some r → m x = some r ∨ x ∈ events.map Event.id) ∧
      (∀ v ∈ events, ∃ r, m' v.id = some r) ∧
      renumberFrom m id events = events.map (Event.rename fun x => (m' x).getD 0) := by
  induction events generalizing m id with
  | nil =>
      exact ⟨m, id, h, fun _ _ hx => hx, fun _ _ hx => Or.inl hx,
        fun _ hv => absurd hv List.not_mem_nil, rfl⟩
  | cons v events ih =>
      unfold renumberFrom
      cases hv : m v.id with
      | some r =>
          obtain ⟨m', n, hn, hext, hback, hall, heq⟩ := ih h
          refine ⟨m', n, hn, hext, fun x r hx => (hback x r hx).imp_right (List.mem_cons_of_mem _),
            List.forall_mem_cons.mpr ⟨⟨r, hext _ _ hv⟩, hall⟩, ?_⟩
          rw [List.map_cons, heq, Event.rename, hext _ _ hv]
          rfl
      | none =>
          obtain ⟨m', n, hn, hext, hback, hall, heq⟩ := ih (h.next hv)
          have hv' : m' v.id = some id := hext _ _ (Function.update_self ..)
          have hold : ∀ x r, m x = some r → x ≠ v.id := by
            rintro x r hx rfl
            rw [hv] at hx
            cases hx
          refine ⟨m', n, hn, fun x r hx => ?_, fun x r hx => ?_,
            List.forall_mem_cons.mpr ⟨⟨id, hv'⟩, hall⟩, ?_⟩
          · exact hext x r ((Function.update_of_ne (hold x r hx) ..).trans hx)
          · by_cases hxv : x = v.id
            · exact Or.inr (List.mem_cons.mpr (Or.inl hxv))
            · rcases hback x r hx with hx | hx
              · exact Or.inl ((Function.update_of_ne hxv ..).symm.trans hx)
              · exact Or.inr (List.mem_cons_of_mem _ hx)
          · rw [List.map_cons, heq, Event.rename, hv']
            rfl

/-- New numbers for the ids of these events, all below `n`. -/
structure Fresh (f : Nat → Nat) (events : List (Event I O)) (n : Nat) : Prop where
  inj : ∀ x ∈ events.map Event.id, ∀ y ∈ events.map Event.id, f x = f y → x = y
  onto : ∀ r, r < n ↔ ∃ x ∈ events.map Event.id, f x = r

theorem exists_fresh (events : List (Event I O)) :
    ∃ f n, Fresh f events n ∧ renumber events = events.map (Event.rename f) := by
  obtain ⟨m, n, hn, _, hback, hall, heq⟩ := renumberFrom_spec events numbered_none
  have hsome : ∀ x ∈ events.map Event.id, ∃ r, m x = some r := by
    intro x hx
    obtain ⟨v, hv, rfl⟩ := List.mem_map.mp hx
    exact hall v hv
  refine ⟨_, n, ⟨fun x hx y hy hxy => ?_, fun r => ?_⟩, heq⟩
  · obtain ⟨r, hr⟩ := hsome x hx
    obtain ⟨r', hr'⟩ := hsome y hy
    rw [hr, hr'] at hxy
    obtain rfl : r = r' := hxy
    exact hn.inj x y r hr hr'
  · rw [hn.onto]
    constructor
    · rintro ⟨x, hx⟩
      exact ⟨x, (hback x r hx).resolve_left (by simp), by rw [hx]; rfl⟩
    · rintro ⟨x, hx, rfl⟩
      obtain ⟨r', hr'⟩ := hsome x hx
      exact ⟨x, by rw [hr']; rfl⟩

/-! ## 3. What the search gets -/

/-- **Every id has one call and one later return.** -/
def Whole (events : List (Event I O)) : Prop :=
  ∀ x ∈ events.map Event.id, ∃ c r i o, events.filter (fun v => v.id = x) = [c, r] ∧
    c.value = .inl i ∧ r.value = .inr o

section Renumbered

variable {events : List (Event I O)} {f : Nat → Nat} {n : Nat}

/-- The events of a number are those of its id. -/
theorem Fresh.filter (h : Fresh f events n) {x : Nat} (hx : x ∈ events.map Event.id) :
    (events.map (Event.rename f)).filter (fun v => v.id = f x) =
      (events.filter fun v => v.id = x).map (Event.rename f) := by
  rw [List.filter_map]
  refine congrArg _ (List.filter_congr fun v hv => ?_)
  have hv' := List.mem_map_of_mem (f := Event.id) hv
  exact decide_eq_decide.mpr ⟨h.inj _ hv' _ hx, fun e => congrArg f e⟩

theorem Fresh.complete (h : Fresh f events n) (hw : Whole events) :
    Complete (convertEntries (events.map (Event.rename f))) n where
  ids e he := by
    obtain ⟨v', hv', rfl⟩ := List.mem_map.mp he
    obtain ⟨v, hv, rfl⟩ := List.mem_map.mp hv'
    exact (h.onto _).mpr ⟨v.id, List.mem_map_of_mem hv, rfl⟩
  pair r hr := by
    obtain ⟨x, hx, rfl⟩ := (h.onto r).mp hr
    obtain ⟨c, r, i, o, hcr, hc, hr⟩ := hw x hx
    refine ⟨⟨c.value, f c.id, -1⟩, ⟨r.value, f r.id, -1⟩, i, o, ?_, hc, hr⟩
    have hf := h.filter hx
    rw [hcr] at hf
    rw [convertEntries, List.filter_map]
    exact congrArg (List.map _) hf

theorem complete_renumber (hw : Whole events) : ∃ n, Complete (convertEntries (renumber events)) n := by
  obtain ⟨f, n, hf, heq⟩ := exists_fresh events
  rw [heq]
  exact ⟨n, hf.complete hw⟩

/-- **An order of the operations explains the events**: what returned before another was called
    comes first, and `Step` takes the operations one after the other. -/
structure Explains (model : Model S I O) (events : List (Event I O)) (order : List Nat) : Prop where
  nodup : order.Nodup
  all : ∀ x, x ∈ order ↔ x ∈ events.map Event.id
  ordered : ∀ x y, Before ((convertEntries events).map Entry.mark) (.ret x) (.call y) →
    Before order x y
  run : ((acceptor model (convertEntries events)).run model.init order).isSome = true

/-- The marks under new numbers. -/
theorem marks_rename (f : Nat → Nat) (events : List (Event I O)) :
    (convertEntries (events.map (Event.rename f))).map Entry.mark =
      ((convertEntries events).map Entry.mark).map (Mark.rename f) := by
  simp only [convertEntries, List.map_map]
  refine List.map_congr_left fun v _ => ?_
  simp only [Function.comp, Event.rename, Entry.mark]
  split <;> rfl

theorem mem_ids {x : Nat} : x ∈ events.map Event.id ↔
    ∃ e ∈ (convertEntries events).map Entry.mark, e.id = x := by
  simp only [convertEntries, List.mem_map, exists_exists_and_eq_and, Entry.mark_id]

theorem Fresh.renames (h : Fresh f events n) :
    Renames f ((convertEntries events).map Entry.mark) := fun _ he _ he' heq =>
  h.inj _ (mem_ids.mpr ⟨_, he, rfl⟩) _ (mem_ids.mpr ⟨_, he', rfl⟩) heq

theorem inputOf_rename {x : Nat} (hid : ∀ v ∈ events, (f v.id = f x ↔ v.id = x)) :
    inputOf (convertEntries (events.map (Event.rename f))) (f x) =
      inputOf (convertEntries events) x := by
  induction events with
  | nil => rfl
  | cons v events ih =>
      have hv := hid v List.mem_cons_self
      have ih := ih fun v hv => hid v (List.mem_cons_of_mem _ hv)
      simp only [inputOf, convertEntries, List.map_cons, List.findSome?_cons, Event.rename] at ih ⊢
      rw [ih]
      cases v.value with
      | inl i => simp only [hv]
      | inr o => rfl

theorem outputOf_rename {x : Nat} (hid : ∀ v ∈ events, (f v.id = f x ↔ v.id = x)) :
    outputOf (convertEntries (events.map (Event.rename f))) (f x) =
      outputOf (convertEntries events) x := by
  induction events with
  | nil => rfl
  | cons v events ih =>
      have hv := hid v List.mem_cons_self
      have ih := ih fun v hv => hid v (List.mem_cons_of_mem _ hv)
      simp only [outputOf, convertEntries, List.map_cons, List.findSome?_cons, Event.rename] at ih ⊢
      rw [ih]
      cases v.value with
      | inl i => rfl
      | inr o => simp only [hv]

/-- Inputs and outputs are found under the new numbers. -/
theorem Fresh.acceptor_step (h : Fresh f events n) (model : Model S I O) (s : S) {x : Nat}
    (hx : x ∈ events.map Event.id) :
    (acceptor model (convertEntries events)).step s x =
      (acceptor model (convertEntries (events.map (Event.rename f)))).step s (f x) := by
  have hid : ∀ v ∈ events, (f v.id = f x ↔ v.id = x) := fun v hv =>
    ⟨h.inj _ (List.mem_map_of_mem hv) _ hx, fun e => congrArg f e⟩
  simp only [acceptor, inputOf_rename hid, outputOf_rename hid]

/-- What is looked for, in the words of the events. -/
theorem finishes_events_iff (model : Model S I O)
    (hp : Paired ((convertEntries events).map Entry.mark)) (order : List Nat) :
    Finishes (acceptor model (convertEntries events)) ((convertEntries events).map Entry.mark) ∅
      model.init order ↔ Explains model events order := by
  have hcall : ∀ x, .call x ∈ (convertEntries events).map Entry.mark ↔ x ∈ events.map Event.id := by
    intro x
    rw [mem_ids]
    refine ⟨fun h => ⟨_, h, rfl⟩, ?_⟩
    rintro ⟨e, he, rfl⟩
    exact (hp.order e he).mem.1
  have hirr : ∀ x, ¬ Before ((convertEntries events).map Entry.mark) (.ret x) (.call x) := fun x hb =>
    hb.asymm hp.nodup (hp.order _ hb.mem.1)
  constructor
  · rintro ⟨hnd, hall, hord, hrun⟩
    have hmem : ∀ x, x ∈ order ↔ x ∈ events.map Event.id := fun x => by
      rw [hall x, ← hcall x]
      simp only [Finset.notMem_empty, not_false_eq_true, and_true]
    refine ⟨hnd, hmem, fun x y hb => ?_, hrun⟩
    have hx := (hmem x).mpr (mem_ids.mpr ⟨_, hb.mem.1, rfl⟩)
    have hy := (hmem y).mpr (mem_ids.mpr ⟨_, hb.mem.2, rfl⟩)
    exact (pairwise_iff_before hnd hirr).mp hord x hx y hy hb
  · rintro ⟨hnd, hall, hord, hrun⟩
    refine ⟨hnd, fun x => ?_, (pairwise_iff_before hnd hirr).mpr fun x _ y _ hb => hord x y hb, hrun⟩
    rw [hall x, ← hcall x]
    simp only [Finset.notMem_empty, not_false_eq_true, and_true]

/-- **The numbers make no difference.** -/
theorem solved_renumber (model : Model S I O) (hw : Whole events) :
    Solved model (convertEntries (renumber events)) ↔ ∃ order, Explains model events order := by
  obtain ⟨f, n, hf, heq⟩ := exists_fresh events
  have hcomplete := hf.complete hw
  have hpaired : Paired ((convertEntries events).map Entry.mark) :=
    hf.renames.paired (marks_rename f events ▸ hcomplete.paired)
  rw [heq, Solved, marks_rename, exists_finishes_rename hf.renames fun s e he =>
    hf.acceptor_step model s (mem_ids.mpr ⟨e, he, rfl⟩)]
  exact exists_congr fun L => finishes_events_iff model hpaired L

end Renumbered

/-! ## 4. The answer -/

section Answer

variable [DecidableEq S] {model : GivenModel S I O} {timeout : Bool} {history : List (Event I O)}

theorem checkEventsTimeout_answers (hm : (fillDefault model).Respects)
    (hgo : (fillDefault model).partitionEvent history ≠ [] ∨ timeout = true)
    (hw : ∀ sub ∈ (fillDefault model).partitionEvent history, Whole sub) :
    CheckEventsTimeout model timeout history fun b =>
      (b = false → ¬ ∀ sub ∈ (fillDefault model).partitionEvent history,
        ∃ order, Explains (fillDefault model).toModel sub order) ∧
      (timeout = false → b = true → ∀ sub ∈ (fillDefault model).partitionEvent history,
        ∃ order, Explains (fillDefault model).toModel sub order) := by
  refine checkTimeout_answers hm (fun sub hsub => ?_) (fun sub hsub => solved_renumber _ (hw sub hsub))
    hgo
  obtain ⟨n, hc⟩ := complete_renumber (hw sub hsub)
  exact hc.wellFormed

/-- One part, when `PartitionEvent` is not given. -/
theorem noPartitionEvent_answers (hpart : model.partitionEvent = none)
    (hm : (fillDefault model).Respects) (hw : Whole history) :
    CheckEventsTimeout model timeout history fun b =>
      (b = false → ¬ ∃ order, Explains (fillDefault model).toModel history order) ∧
      (timeout = false → b = true → ∃ order, Explains (fillDefault model).toModel history order) := by
  have hparts : (fillDefault model).partitionEvent history = [history] := by
    simp only [fillDefault, hpart, Option.getD_none, noPartitionEvent]
  refine (checkEventsTimeout_answers hm (Or.inl ?_) ?_).mono fun b hb => ?_
  · rw [hparts]
    exact List.cons_ne_nil _ _
  · rw [hparts]
    exact List.forall_mem_singleton.mpr hw
  · rw [hparts, List.forall_mem_singleton] at hb
    exact hb

end Answer

/-- A counter that returns what it held before, with nothing else given. -/
def givenCounter : GivenModel Nat Unit Nat := ⟨none, none, 0, fun s _ o => (o = s, s + 1), none⟩

section Timed

variable {h : List (Operation I O)}

def eventsOf (h : List (Operation I O)) : List (Event I O) :=
  (makeEntries h).map fun e => ⟨e.value, e.id⟩

/-- An entry without its time. -/
def Entry.untimed (e : Entry I O) : Entry I O := ⟨e.value, e.id, -1⟩

theorem convertEntries_eventsOf (h : List (Operation I O)) :
    convertEntries (eventsOf h) = (makeEntries h).map Entry.untimed := by
  rw [convertEntries, eventsOf, List.map_map]
  rfl

theorem marks_untimed (es : List (Entry I O)) :
    (es.map Entry.untimed).map Entry.mark = es.map Entry.mark := by
  rw [List.map_map]
  rfl

/-- Times play no part in what an operation is. -/
theorem acceptor_untimed (model : Model S I O) (es : List (Entry I O)) :
    acceptor model (es.map Entry.untimed) = acceptor model es := by
  have hin : inputOf (es.map Entry.untimed) = inputOf es := by
    funext x
    rw [inputOf, List.findSome?_map]
    rfl
  have hout : outputOf (es.map Entry.untimed) = outputOf es := by
    funext x
    rw [outputOf, List.findSome?_map]
    rfl
  rw [acceptor, acceptor, hin, hout]

theorem Timed.filter_id (ht : Timed h) {x : Nat} {op : Operation I O} (hx : h[x]? = some op) :
    (makeEntries h).filter (fun e => e.id = x) = [callOf op x, returnOf op x] := by
  have hlt : op.call < op.ret := ht.order op (List.mem_of_getElem? hx)
  have hnd : (makeEntries h).Nodup := ht.wellFormed.paired.nodup.of_map _
  have hsorted := ht.sorted.filter fun e => decide (e.id = x)
  refine List.Perm.eq_of_pairwise ?_ hsorted (List.pairwise_pair.mpr hlt) ?_
  · intro a b _ _ hab hba
    exact absurd hab (not_lt.mpr hba.le)
  · have hne : callOf op x ≠ returnOf op x := by
      intro e
      exact absurd (congrArg Entry.time e) (ne_of_lt hlt)
    refine (List.perm_ext_iff_of_nodup (hnd.filter _) (by simpa using hne)).mpr fun e => ?_
    rw [List.mem_filter, mem_makeEntries, decide_eq_true_eq]
    constructor
    · rintro ⟨⟨y, op', hy, he⟩, hid⟩
      have hyx : y = x := by
        rw [← hid]
        rcases he with rfl | rfl <;> rfl
      rw [hyx, hx, Option.some.injEq] at hy
      rw [hyx, ← hy] at he
      simpa using he
    · intro he
      have he : e = callOf op x ∨ e = returnOf op x := by simpa using he
      refine ⟨⟨x, op, hx, he⟩, ?_⟩
      rcases he with rfl | rfl <;> rfl

theorem Timed.whole (ht : Timed h) : Whole (eventsOf h) := by
  intro x hx
  obtain ⟨v, hv, rfl⟩ := List.mem_map.mp hx
  obtain ⟨e, he, rfl⟩ := List.mem_map.mp hv
  obtain ⟨x, op, hx, hcr⟩ := mem_makeEntries.mp he
  have hid : e.id = x := by rcases hcr with rfl | rfl <;> rfl
  refine ⟨⟨.inl op.input, x⟩, ⟨.inr op.output, x⟩, op.input, op.output, ?_, rfl, rfl⟩
  have hf := congrArg (List.map fun e : Entry I O => (⟨e.value, e.id⟩ : Event I O)) (ht.filter_id hx)
  rw [eventsOf, List.filter_map, ← hid] at *
  exact hf

theorem Timed.explains_iff (ht : Timed h) (model : Model S I O) :
    (∃ order, Explains model (eventsOf h) order) ↔
      Explained model.object Operation.call Operation.ret model.init h := by
  have hp : Paired ((convertEntries (eventsOf h)).map Entry.mark) := by
    rw [convertEntries_eventsOf, marks_untimed]
    exact ht.wellFormed.paired
  rw [← ht.exists_finishes_iff model]
  refine exists_congr fun L => ?_
  rw [← finishes_events_iff model hp, convertEntries_eventsOf, marks_untimed, acceptor_untimed]

/-- **Both ways to check agree**: the events of a timed history have the answer that its operations
    have. -/
theorem checkEvents_agrees [DecidableEq S] {model : GivenModel S I O} (hpart : model.partition = none)
    (hpartEvent : model.partitionEvent = none) (hm : (fillDefault model).Respects) (ht : Timed h)
    (b : Bool) :
    CheckEvents model (eventsOf h) b ↔ CheckOperations (fillDefault model).toModel h b := by
  have hparts : (fillDefault model).partition h = [h] := by
    simp only [fillDefault, hpart, Option.getD_none, noPartition]
  obtain ⟨⟨b₁, hb₁⟩, htrue₁⟩ := (noPartitionEvent_answers hpartEvent hm ht.whole).of_iff
  obtain ⟨⟨b₂, hb₂⟩, htrue₂⟩ := checkOperations_iff hm
    (by rw [hparts]; exact List.cons_ne_nil _ _)
    (by rw [hparts]; exact List.forall_mem_singleton.mpr ht)
  rw [ht.explains_iff] at htrue₁
  rw [hparts, List.forall_mem_singleton] at htrue₂
  have hsame : b₁ = b₂ := by
    refine Bool.coe_iff_coe.mp ⟨?_, ?_⟩ <;> rintro rfl
    · exact hb₂.unique (htrue₂.mpr (htrue₁.mp hb₁))
    · exact hb₁.unique (htrue₁.mpr (htrue₂.mp hb₂))
  constructor
  · intro h
    rw [h.unique hb₁, hsame]
    exact hb₂
  · intro h
    rw [h.unique hb₂, ← hsame]
    exact hb₁

theorem checkEvents_agrees_counter :
    CheckEvents givenCounter (eventsOf [⟨(), 1, 1, 3⟩, ⟨(), 2, 0, 4⟩]) true ↔
      CheckOperations (fillDefault givenCounter).toModel [⟨(), 1, 1, 3⟩, ⟨(), 2, 0, 4⟩] true :=
  checkEvents_agrees rfl rfl (Model.respects_of_shallowEqual rfl) ⟨by decide, by decide⟩ true

end Timed

end Mit6824.Lin
