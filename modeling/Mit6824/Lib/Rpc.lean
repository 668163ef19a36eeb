/-
  File:      Mit6824/Lib/Rpc.lean
  Subject:   REMOTE CALLS TO SERVERS THAT CRASH, as their clients may think of them.

  A call goes to the server its end is wired to. It is handled at most once, in one piece, by
  whatever runs there at that moment; its caller is given the reply, or gives up, before or after
  it is handled. A crash is one step as well: the server goes on with what was on its disk, which
  is what it had stored last or, in the middle of a section, something on the way (`mid`).

  * `Program` -- what runs on a server; `Rpc.step` -- the calls, the servers, the crashes;
  * `Rpc.Noting` -- a note that the handler of a request puts on the disk and nothing takes away;
    `Rpc.answered_noted` -- **the note of every call that was answered is on the disk**, whatever
    crashed since;
  * `Rpc.handled_apart` -- where the note of one request forbids the reply of another, no server
    has given both.
-/
import Mathlib.Logic.Function.Basic
import Mit6824.Lib.Runs
import Mit6824.Lib.TermLog

namespace Mit6824.Lib

/-- What runs on a server: its states `S`, the contents `D` of its disk. `K` stands for what is
    decided elsewhere (arguments of a section, room that an allocation leaves). -/
structure Program (S D M A R K : Type) where
  blank : D
  disk : S → D
  /-- What the disk may hold in the middle of a section. -/
  mid : S → K → Option D
  /-- What is kept of a disk when the server is shut down. -/
  keep : D → D
  boot : D → K → S
  work : S → K → Option S
  handle : M → S → A → K → Option (S × R)

namespace Rpc

/-- `reply` is what the handler has answered, `outcome` what the caller was told: `some none` if
    it has given up. -/
structure Call (E M A R : Type) where
  endname : E
  method : M
  args : A
  reply : Option R
  outcome : Option (Option R)

/-- `servers v` is `none` as long as `v` was never started. -/
structure State (N E S M A R : Type) where
  wiring : E → Option N
  servers : N → Option S
  calls : List (Call E M A R)

inductive Action (N E M A K : Type) where
  | connect (e : E) (v : N)
  | call (e : E) (m : M) (a : A)
  | handle (k : Nat) (c : K)
  | fail (k : Nat)
  | answer (k : Nat)
  | work (v : N) (c : K)
  | start (v : N) (c : K)
  /-- `v` crashes, in the middle of a section or not, and begins anew. -/
  | crash (v : N) (under : Option K) (c : K)

variable {N E S D M A R K : Type}

/-- What may be on the disk of a server. -/
def diskAt (prog : Program S D M A R K) (s : S) : Option K → Option D
  | none => some (prog.disk s)
  | some c => prog.mid s c

section Steps

variable [DecidableEq N] [DecidableEq E]

def init : State N E S M A R := ⟨fun _ => none, fun _ => none, []⟩

def setServer (t : State N E S M A R) (v : N) (s : S) : State N E S M A R :=
  { t with servers := Function.update t.servers v (some s) }

def setCall (t : State N E S M A R) (k : Nat) (x : Call E M A R) : State N E S M A R :=
  { t with calls := t.calls.set k x }

def connect (t : State N E S M A R) (e : E) (v : N) : Option (State N E S M A R) :=
  match t.wiring e with
  | none => some { t with wiring := Function.update t.wiring e (some v) }
  | some _ => none

def handle (prog : N → Program S D M A R K) (t : State N E S M A R) (k : Nat) (c : K) :
    Option (State N E S M A R) :=
  match t.calls[k]? with
  | none => none
  | some x =>
      match x.reply, t.wiring x.endname with
      | none, some v =>
          (t.servers v).bind fun s => ((prog v).handle x.method s x.args c).map fun r =>
            setCall (setServer t v r.1) k { x with reply := some r.2 }
      | _, _ => none

/-- The caller gives up. -/
def fail (t : State N E S M A R) (k : Nat) : Option (State N E S M A R) :=
  match t.calls[k]? with
  | none => none
  | some x =>
      match x.outcome with
      | none => some (setCall t k { x with outcome := some none })
      | some _ => none

def answer (t : State N E S M A R) (k : Nat) : Option (State N E S M A R) :=
  match t.calls[k]? with
  | none => none
  | some x =>
      match x.reply, x.outcome with
      | some r, none => some (setCall t k { x with outcome := some (some r) })
      | _, _ => none

/-- **One step.** -/
def step (prog : N → Program S D M A R K) (t : State N E S M A R) :
    Action N E M A K → Option (State N E S M A R)
  | .connect e v => connect t e v
  | .call e m a => some { t with calls := t.calls ++ [⟨e, m, a, none, none⟩] }
  | .handle k c => handle prog t k c
  | .fail k => fail t k
  | .answer k => answer t k
  | .work v c => (t.servers v).bind fun s => ((prog v).work s c).map (setServer t v)
  | .start v c =>
      match t.servers v with
      | none => some (setServer t v ((prog v).boot (prog v).blank c))
      | some _ => none
  | .crash v under c =>
      (t.servers v).bind fun s => (diskAt (prog v) s under).map fun d =>
        setServer t v ((prog v).boot ((prog v).keep d) c)

end Steps

/-! ## What a step can do to a server and to a call -/

section Inversion

variable {t t' : State N E S M A R}

/-- **How a server changes**: not at all, by a section of its own or of a handler, by its first
    start, or by a crash. -/
inductive Serves (prog : Program S D M A R K) : Option S → Option S → Prop where
  | same (o : Option S) : Serves prog o o
  | work (s s' : S) (c : K) (h : prog.work s c = some s') : Serves prog (some s) (some s')
  | handle (s s' : S) (m : M) (a : A) (c : K) (r : R) (h : prog.handle m s a c = some (s', r)) :
      Serves prog (some s) (some s')
  | start (c : K) : Serves prog none (some (prog.boot prog.blank c))
  | crash (s : S) (under : Option K) (d : D) (c : K) (h : diskAt prog s under = some d) :
      Serves prog (some s) (some (prog.boot (prog.keep d) c))

/-- **How the call `k` changes**; `none` is a call that was not there. -/
inductive Advances (prog : N → Program S D M A R K) (t : State N E S M A R)
    (act : Action N E M A K) (t' : State N E S M A R) (k : Nat) :
    Option (Call E M A R) → Call E M A R → Prop where
  | same (x : Call E M A R) : Advances prog t act t' k (some x) x
  | new (e : E) (m : M) (a : A) : Advances prog t act t' k none ⟨e, m, a, none, none⟩
  | failed (x : Call E M A R) : Advances prog t act t' k (some x) { x with outcome := some none }
  | answered (x : Call E M A R) (r : R) (hr : x.reply = some r) :
      Advances prog t act t' k (some x) { x with outcome := some (some r) }
  | handled (x : Call E M A R) (v : N) (s s' : S) (c : K) (r : R)
      (hnone : x.reply = none) (hw : t.wiring x.endname = some v) (hs : t.servers v = some s)
      (hr : (prog v).handle x.method s x.args c = some (s', r)) (hs' : t'.servers v = some s')
      (hact : act = .handle k c) :
      Advances prog t act t' k (some x) { x with reply := some r }

/-- **What a step leaves of the wires, the servers and the calls.** -/
structure Turns (prog : N → Program S D M A R K) (t : State N E S M A R)
    (act : Action N E M A K) (t' : State N E S M A R) : Prop where
  wiring : ∀ e v, t.wiring e = some v → t'.wiring e = some v
  servers : ∀ v, Serves (prog v) (t.servers v) (t'.servers v)
  calls : ∀ (k : Nat) (x : Call E M A R), t'.calls[k]? = some x →
    Advances prog t act t' k t.calls[k]? x

theorem fail_inv {k : Nat} (h : fail t k = some t') :
    ∃ x, t.calls[k]? = some x ∧ t' = setCall t k { x with outcome := some none } := by
  unfold fail at h
  split at h
  · cases h
  · rename_i x hx
    split at h
    · exact ⟨x, hx, (Option.some.inj h).symm⟩
    · cases h

theorem answer_inv {k : Nat} (h : answer t k = some t') :
    ∃ x r, t.calls[k]? = some x ∧ x.reply = some r ∧
      t' = setCall t k { x with outcome := some (some r) } := by
  unfold answer at h
  split at h
  · cases h
  · rename_i x hx
    split at h
    · rename_i r hr ho
      exact ⟨x, r, hx, hr, (Option.some.inj h).symm⟩
    · cases h

/-- The calls after a change of one of them. -/
theorem advances_setCall {prog : N → Program S D M A R K} {act : Action N E M A K}
    {t₀ : State N E S M A R} {k : Nat} {x x' : Call E M A R} (h0 : t₀.calls = t.calls)
    (hx : t.calls[k]? = some x) (h : Advances prog t act t' k (some x) x') (j : Nat)
    (y : Call E M A R) (hy : (setCall t₀ k x').calls[j]? = some y) :
    Advances prog t act t' j t.calls[j]? y := by
  have hset : (t₀.calls.set k x')[j]? = some y := hy
  rw [h0, List.getElem?_set] at hset
  split at hset
  · rename_i e
    subst e
    split at hset
    · rw [hx, ← Option.some.inj hset]
      exact h
    · cases hset
  · rw [hset]
    exact .same y

theorem advances_same {prog : N → Program S D M A R K} {act : Action N E M A K}
    (h : t'.calls = t.calls) (k : Nat) (x : Call E M A R) (hx : t'.calls[k]? = some x) :
    Advances prog t act t' k t.calls[k]? x := by
  rw [← h, hx]
  exact .same x

variable [DecidableEq N] {prog : N → Program S D M A R K}

theorem handle_inv {k : Nat} {c : K} (h : handle prog t k c = some t') :
    ∃ x v s r, t.calls[k]? = some x ∧ x.reply = none ∧ t.wiring x.endname = some v ∧
      t.servers v = some s ∧ (prog v).handle x.method s x.args c = some r ∧
      t' = setCall (setServer t v r.1) k { x with reply := some r.2 } := by
  unfold handle at h
  split at h
  · cases h
  · rename_i x hx
    split at h
    · rename_i v hnone hw
      obtain ⟨s, hs, h⟩ := Option.bind_eq_some_iff.mp h
      obtain ⟨r, hr, h⟩ := Option.map_eq_some_iff.mp h
      exact ⟨x, v, s, r, hx, hnone, hw, hs, hr, h.symm⟩
    · cases h

theorem serves_update {v : N} {s : S} (h : Serves (prog v) (t.servers v) (some s)) (w : N) :
    Serves (prog w) (t.servers w) ((setServer t v s).servers w) := by
  by_cases hw : w = v
  · subst hw
    rw [show (setServer t w s).servers w = some s from Function.update_self _ _ _]
    exact h
  · rw [show (setServer t v s).servers w = t.servers w from Function.update_of_ne hw _ _]
    exact .same _

/-- A step that changes one server and nothing else. -/
theorem turns_setServer {act : Action N E M A K} {v : N} {s : S}
    (h : Serves (prog v) (t.servers v) (some s)) : Turns prog t act (setServer t v s) :=
  ⟨fun _ _ h => h, serves_update h, advances_same rfl⟩

variable [DecidableEq E]

theorem turns_of_step {a : Action N E M A K} (h : step prog t a = some t') : Turns prog t a t' := by
  cases a with
  | connect e v =>
      simp only [step, connect] at h
      split at h
      · rename_i hnone
        cases Option.some.inj h
        refine ⟨fun e' w he => ?_, fun _ => .same _, advances_same rfl⟩
        have hne : e' ≠ e := by
          rintro rfl
          rw [hnone] at he
          cases he
        exact (Function.update_of_ne hne _ _).trans he
      · cases h
  | call e m a =>
      cases Option.some.inj h
      refine ⟨fun _ _ h => h, fun _ => .same _, fun k x hx => ?_⟩
      rcases get_concat hx with hx | ⟨rfl, rfl⟩
      · rw [hx]
        exact .same x
      · rw [List.getElem?_eq_none (Nat.le_refl _)]
        exact .new e m a
  | handle k c =>
      obtain ⟨x, v, s, r, hx, hnone, hw, hs, hr, rfl⟩ := handle_inv h
      have hserves : Serves (prog v) (t.servers v) (some r.1) := by
        rw [hs]
        exact .handle s r.1 x.method x.args c r.2 hr
      exact ⟨fun _ _ h => h, serves_update hserves, advances_setCall rfl hx
        (.handled x v s r.1 c r.2 hnone hw hs hr (Function.update_self _ _ _) rfl)⟩
  | fail k =>
      obtain ⟨x, hx, rfl⟩ := fail_inv h
      exact ⟨fun _ _ h => h, fun _ => .same _, advances_setCall rfl hx (.failed x)⟩
  | answer k =>
      obtain ⟨x, r, hx, hst, rfl⟩ := answer_inv h
      exact ⟨fun _ _ h => h, fun _ => .same _, advances_setCall rfl hx (.answered x r hst)⟩
  | work v c =>
      obtain ⟨s, hs, h⟩ := Option.bind_eq_some_iff.mp h
      obtain ⟨s', hs', rfl⟩ := Option.map_eq_some_iff.mp h
      exact turns_setServer (by rw [hs]; exact .work s s' c hs')
  | start v c =>
      simp only [step] at h
      split at h
      · rename_i hs
        cases Option.some.inj h
        exact turns_setServer (by rw [hs]; exact .start c)
      · cases h
  | crash v under c =>
      obtain ⟨s, hs, h⟩ := Option.bind_eq_some_iff.mp h
      obtain ⟨d, hd, rfl⟩ := Option.map_eq_some_iff.mp h
      exact turns_setServer (by rw [hs]; exact .crash s under d c hd)

end Inversion

/-! ## Notes on the disk -/

/-- **`P` is a note of the request `a` and its reply `r`**: the handler puts it on the disk before
    it answers, and nothing a server does takes it away, a crash in the middle included. `I` is
    what always holds of the server. -/
structure Noting (prog : Program S D M A R K) (I : S → Prop) (m : M) (a : A) (r : R)
    (P : D → Prop) : Prop where
  starts : ∀ c, I (prog.boot prog.blank c)
  crashes : ∀ s under d c, I s → diskAt prog s under = some d → I (prog.boot (prog.keep d) c)
  works : ∀ s s' c, I s → prog.work s c = some s' → I s'
  handles : ∀ s s' m' a' c r', I s → prog.handle m' s a' c = some (s', r') → I s'
  noted : ∀ s s' c, I s → prog.handle m s a c = some (s', r) → P (prog.disk s')
  workKeeps : ∀ s s' c, I s → P (prog.disk s) → prog.work s c = some s' → P (prog.disk s')
  handleKeeps : ∀ s s' m' a' c r', I s → P (prog.disk s) →
    prog.handle m' s a' c = some (s', r') → P (prog.disk s')
  crashKeeps : ∀ s under d, I s → P (prog.disk s) → diskAt prog s under = some d →
    P (prog.keep d) ∧ ∀ c, P (prog.disk (prog.boot (prog.keep d) c))

section Notes

variable {prog : Program S D M A R K} {I : S → Prop} {m : M} {a : A} {r : R} {P : D → Prop}

theorem Noting.serves_inv (hN : Noting prog I m a r P) {o o' : Option S} (h : Serves prog o o')
    (hI : ∀ s, o = some s → I s) : ∀ s, o' = some s → I s := by
  intro s hs
  cases h with
  | same => exact hI s hs
  | work s₀ s₁ c hw =>
      cases hs
      exact hN.works s₀ s c (hI s₀ rfl) hw
  | handle s₀ s₁ m' a' c r' hh =>
      cases hs
      exact hN.handles s₀ s m' a' c r' (hI s₀ rfl) hh
  | start c =>
      cases hs
      exact hN.starts c
  | crash s₀ under d c hd =>
      cases hs
      exact hN.crashes s₀ under d c (hI s₀ rfl) hd

theorem Noting.serves_keeps (hN : Noting prog I m a r P) {o o' : Option S} (h : Serves prog o o')
    (hI : ∀ s, o = some s → I s) (hP : ∃ s, o = some s ∧ P (prog.disk s)) :
    ∃ s, o' = some s ∧ P (prog.disk s) := by
  obtain ⟨s, rfl, hs⟩ := hP
  cases h with
  | same => exact ⟨s, rfl, hs⟩
  | work _ s' c hw => exact ⟨s', rfl, hN.workKeeps s s' c (hI s rfl) hs hw⟩
  | handle _ s' m' a' c r' hh => exact ⟨s', rfl, hN.handleKeeps s s' m' a' c r' (hI s rfl) hs hh⟩
  | crash _ under d c hd => exact ⟨_, rfl, (hN.crashKeeps s under d (hI s rfl) hs hd).2 c⟩

end Notes

section Answered

variable {prog : N → Program S D M A R K} {I : N → S → Prop} {m : M} {a : A} {r : R}
  {P : N → D → Prop}

/-- The server of a call that was handled holds its note. -/
structure Noted (prog : N → Program S D M A R K) (I : N → S → Prop) (m : M) (a : A) (r : R)
    (P : N → D → Prop) (t : State N E S M A R) : Prop where
  inv : ∀ v s, t.servers v = some s → I v s
  notes : ∀ (k : Nat) (x : Call E M A R), t.calls[k]? = some x → x.method = m → x.args = a →
    x.reply = some r →
    ∃ v, t.wiring x.endname = some v ∧ ∃ s, t.servers v = some s ∧ P v ((prog v).disk s)

theorem noted_step (hN : ∀ v, Noting (prog v) (I v) m a r (P v)) {t t' : State N E S M A R}
    {act : Action N E M A K} (h : Turns prog t act t') (hI : Noted prog I m a r P t) :
    Noted prog I m a r P t' := by
  refine ⟨fun v => (hN v).serves_inv (h.servers v) (hI.inv v), fun k x hx hm ha hr => ?_⟩
  -- a call that had its note before
  have old : ∀ x₀, t.calls[k]? = some x₀ → x₀.endname = x.endname → x₀.method = m → x₀.args = a →
      x₀.reply = some r →
      ∃ v, t'.wiring x.endname = some v ∧ ∃ s, t'.servers v = some s ∧ P v ((prog v).disk s) := by
    intro x₀ hx₀ hend hm₀ ha₀ hr₀
    obtain ⟨v, hw, hs⟩ := hI.notes k x₀ hx₀ hm₀ ha₀ hr₀
    rw [hend] at hw
    exact ⟨v, h.wiring _ _ hw, (hN v).serves_keeps (h.servers v) (hI.inv v) hs⟩
  have hadv := h.calls k x hx
  generalize hx₀ : t.calls[k]? = o at hadv
  cases hadv with
  | same => exact old x hx₀ rfl hm ha hr
  | new => cases hr
  | failed x₀ => exact old x₀ hx₀ rfl hm ha hr
  | answered x₀ r' hr' => exact old x₀ hx₀ rfl hm ha hr
  | handled x₀ v s s' c r' _ hw hs hh hs' _ =>
      cases hr
      cases hm
      cases ha
      exact ⟨v, h.wiring _ _ hw, s', hs', (hN v).noted s s' c (hI.inv v s hs) hh⟩

/-- **The note of every call that was answered is on the disk of its server.** -/
theorem answered_noted [DecidableEq N] [DecidableEq E]
    (hN : ∀ v, Noting (prog v) (I v) m a r (P v)) {t : State N E S M A R}
    (h : Reach (step prog) AnyStep init t) : Noted prog I m a r P t := by
  refine Reach.inv ⟨?_, ?_⟩ (fun _ _ _ ih _ hs => noted_step hN (turns_of_step hs) ih) h
  · intro v s hs
    cases hs
  · intro k x hx
    cases hx

/-- Only what was handled is answered. -/
theorem answered_handled [DecidableEq N] [DecidableEq E] {t : State N E S M A R}
    (h : Reach (step prog) AnyStep init t) (k : Nat) (x : Call E M A R) (r : R)
    (hx : t.calls[k]? = some x) (ho : x.outcome = some (some r)) : x.reply = some r := by
  induction h generalizing k x with
  | start => cases hx
  | move t t' act _ _ hs ih =>
      have hadv := (turns_of_step hs).calls k x hx
      generalize hx₀ : t.calls[k]? = o at hadv
      cases hadv with
      | same => exact ih k x hx₀ ho
      | new => cases ho
      | failed => cases ho
      | answered x₀ r' hr' =>
          cases ho
          exact hr'
      | handled x₀ v s s' c r' hnone _ _ _ _ _ =>
          rw [ih k x₀ hx₀ ho] at hnone
          cases hnone

/-- The reply of a call comes from the step that handles it. -/
theorem reply_of_step [DecidableEq N] [DecidableEq E] {t t' : State N E S M A R}
    {act : Action N E M A K} (h : step prog t act = some t') {k : Nat} {x : Call E M A R}
    (hx : t'.calls[k]? = some x) (hr : x.reply = some r) :
    (∃ x₀, t.calls[k]? = some x₀ ∧ x₀.endname = x.endname ∧ x₀.method = x.method ∧
      x₀.args = x.args ∧ x₀.reply = some r) ∨
    ∃ v s s' c, act = .handle k c ∧ t.wiring x.endname = some v ∧ t.servers v = some s ∧
      (prog v).handle x.method s x.args c = some (s', r) := by
  have hadv := (turns_of_step h).calls k x hx
  generalize hx₀ : t.calls[k]? = o at hadv
  cases hadv with
  | same => exact Or.inl ⟨x, rfl, rfl, rfl, rfl, hr⟩
  | new => cases hr
  | failed x₀ => exact Or.inl ⟨x₀, rfl, rfl, rfl, rfl, hr⟩
  | answered x₀ r' _ => exact Or.inl ⟨x₀, rfl, rfl, rfl, rfl, hr⟩
  | handled x₀ v s s' c r' _ hw hs hh _ hact =>
      cases hr
      exact Or.inr ⟨v, s, s', c, hact, hw, hs, hh⟩

section Apart

variable [DecidableEq N] [DecidableEq E] {m' : M} {a' : A} {r' : R} {P' : N → D → Prop}

/-- No server has handled both requests with these replies. -/
def Apart (m m' : M) (a a' : A) (r r' : R) (t : State N E S M A R) : Prop :=
  ∀ (k k' : Nat) (x x' : Call E M A R) (v : N), t.calls[k]? = some x → t.calls[k']? = some x' →
    x.method = m → x.args = a → x.reply = some r → x'.method = m' → x'.args = a' →
    x'.reply = some r' → t.wiring x.endname = some v → t.wiring x'.endname = some v → False

/-- One of the two is handled now, the other one has its note on the disk. -/
theorem apart_step {t t' : State N E S M A R} {act : Action N E M A K}
    (h : step prog t act = some t') (hn : Noted prog I m a r P t) (hn' : Noted prog I m' a' r' P' t)
    (hex : ∀ v s s' c, I v s → P v ((prog v).disk s) → (prog v).handle m' s a' c ≠ some (s', r'))
    (hex' : ∀ v s s' c, I v s → P' v ((prog v).disk s) → (prog v).handle m s a c ≠ some (s', r))
    (hne : a ≠ a') (hI : Apart m m' a a' r r' t) : Apart m m' a a' r r' t' := by
  intro k k' x x' v hx hx' hm ha hr hm' ha' hr' hv hv'
  -- the wire of a call that was handled before
  have wire : ∀ {k : Nat} {y y₀ : Call E M A R} {m₀ : M} {a₀ : A} {r₀ : R} {P₀ : N → D → Prop},
      Noted prog I m₀ a₀ r₀ P₀ t → t.calls[k]? = some y₀ → y₀.endname = y.endname →
      y₀.method = m₀ → y₀.args = a₀ → y₀.reply = some r₀ → t'.wiring y.endname = some v →
      t.wiring y₀.endname = some v ∧ ∃ s, t.servers v = some s ∧ P₀ v ((prog v).disk s) := by
    intro k y y₀ m₀ a₀ r₀ P₀ hn₀ hy₀ hend hm₀ ha₀ hr₀ hw'
    obtain ⟨w, hw, hs⟩ := hn₀.notes k y₀ hy₀ hm₀ ha₀ hr₀
    have e := (turns_of_step h).wiring _ _ hw
    rw [hend, hw'] at e
    cases e
    exact ⟨hw, hs⟩
  rcases reply_of_step h hx hr with ⟨x₀, hx₀, he, em, ea, hr₀⟩ | ⟨w, s, s', c, hact, hw, hs, hh⟩
  · obtain ⟨hw₀, s₀, hs₀, hP⟩ := wire hn hx₀ he (em.trans hm) (ea.trans ha) hr₀ hv
    rcases reply_of_step h hx' hr' with ⟨x₁, hx₁, he₁, em₁, ea₁, hr₁⟩ |
      ⟨w, s, s', c, _, hw, hs, hh⟩
    · obtain ⟨hw₁, _⟩ := wire hn' hx₁ he₁ (em₁.trans hm') (ea₁.trans ha') hr₁ hv'
      exact hI k k' x₀ x₁ v hx₀ hx₁ (em.trans hm) (ea.trans ha) hr₀ (em₁.trans hm')
        (ea₁.trans ha') hr₁ hw₀ hw₁
    · have e := (turns_of_step h).wiring _ _ hw
      rw [hv'] at e
      cases e
      rw [hs₀] at hs
      cases hs
      rw [hm', ha'] at hh
      exact hex v s₀ s' c (hn.inv v s₀ hs₀) hP hh
  · rcases reply_of_step h hx' hr' with ⟨x₁, hx₁, he₁, em₁, ea₁, hr₁⟩ | ⟨_, _, _, c', hact', _⟩
    · obtain ⟨_, s₁, hs₁, hP'⟩ := wire hn' hx₁ he₁ (em₁.trans hm') (ea₁.trans ha') hr₁ hv'
      have e := (turns_of_step h).wiring _ _ hw
      rw [hv] at e
      cases e
      rw [hs₁] at hs
      cases hs
      rw [hm, ha] at hh
      exact hex' v s s' c (hn.inv v s hs₁) hP' hh
    · -- one step handles one call
      rw [hact] at hact'
      cases hact'
      rw [hx] at hx'
      cases hx'
      exact hne (ha.symm.trans ha')

/-- **Requests whose notes forbid each other**: no server has given both replies. -/
theorem handled_apart (hN : ∀ v, Noting (prog v) (I v) m a r (P v))
    (hN' : ∀ v, Noting (prog v) (I v) m' a' r' (P' v))
    (hex : ∀ v s s' c, I v s → P v ((prog v).disk s) → (prog v).handle m' s a' c ≠ some (s', r'))
    (hex' : ∀ v s s' c, I v s → P' v ((prog v).disk s) → (prog v).handle m s a c ≠ some (s', r))
    (hne : a ≠ a') {t : State N E S M A R} (h : Reach (step prog) AnyStep init t) :
    Apart m m' a a' r r' t := by
  induction h with
  | start =>
      intro k k' x x' v hx
      cases hx
  | move t t' act hrun _ hs ih =>
      exact apart_step hs (answered_noted hN hrun) (answered_noted hN' hrun) hex hex' hne ih

end Apart

end Answered

end Rpc

end Mit6824.Lib
