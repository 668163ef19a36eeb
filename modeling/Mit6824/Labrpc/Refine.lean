/-
  File:      Mit6824/Labrpc/Refine.lean
  Subject:   THE NETWORK AS ITS CLIENTS MAY THINK OF IT: every run of labrpc under the tester is one
             of `Lib.Rpc`, in which a call is handled at most once, in one piece, and a crash is one
             step.

  What stands against it: a handler may run on an instance that has been shut down and copied. Its
  effect is then nobody's, so its reply must not come through. `isServerDead` sees to that: it is
  asked after the handler has returned, the instance is taken off the network before it is copied,
  and a number is never given to a second instance.

  * `Current` -- the tester still has the instance; `Keeps` -- what no step takes back;
  * `RequestOk`, `Refines` -- a request, a network and their abstract counterparts;
  * `refines_step`, `network_refines` -- **every step can be followed**; the outcomes of all calls
    and the states of the running servers are the same;
  * `acknowledged_saved` -- **what an answered handler has put into its Persister is in `saved`**,
    through any number of crashes.
-/
import Mit6824.Labrpc.Network

namespace Mit6824.Labrpc

open Lib

variable {N E S D A R K : Type}

/-! ## 1. Readings -/

/-- What the caller of a `Call` was told. -/
def Stage.outcome : Stage N R → Option (Option R)
  | .returned reply => some reply
  | _ => none

/-- No handler has been started. -/
def Stage.early : Stage N R → Bool
  | .calling | .accepted | .routed _ => true
  | _ => false

/-- Nothing is left to be checked. -/
def Stage.plain : Stage N R → Bool
  | .refused | .abandoned _ | .returned _ => true
  | _ => false

def Handler.server : Handler R → Option Nat
  | .none => Option.none
  | .spawned server | .dispatched server | .executed server _ => some server

/-- The instance whose Persister is `saved[i]`. -/
def Power.current : Power D → Option Nat
  | .down _ => none
  | .made server | .up server | .deleted server => some server

namespace Net

/-- The tester still has this instance: it was not copied yet. -/
def Current (s : Net N E S D A R) (i : Nat) : Prop :=
  ∃ I, s.instances[i]? = some I ∧ (s.power I.name).current = some i

/-- **What no step takes back**: the name of an instance, the server of an end, and that an
    instance is not the tester's any more. -/
structure Keeps (s s' : Net N E S D A R) : Prop where
  instances : ∀ (i : Nat) (I : Instance N S), s.instances[i]? = some I →
    ∃ I', s'.instances[i]? = some I' ∧ I'.name = I.name
  connections : ∀ e v, s.network.connections e = some v → s'.network.connections e = some v
  current : ∀ (i : Nat) (I : Instance N S), s.instances[i]? = some I → s'.Current i → s.Current i

/-- **A request and its abstract call.** A handler that ran on an instance which is not the
    tester's any more has left no reply there. -/
structure RequestOk (s : Net N E S D A R) (q : Request N E A R) (x : Rpc.Call E String A R) :
    Prop where
  endname : x.endname = q.req.endname
  method : x.method = q.req.svcMeth
  args : x.args = q.req.args
  outcome : x.outcome = q.stage.outcome
  early : q.stage.early = true → q.handler = .none
  routed : ∀ route, q.stage = .routed route → ∃ I, s.instances[route.server]? = some I ∧
    s.network.connections q.req.endname = some I.name
  server : ∀ i, q.handler.server = some i → ∃ I, s.instances[i]? = some I ∧
    s.network.connections q.req.endname = some I.name
  waiting : ∀ route, q.stage = .waiting route → q.handler.server = some route.server
  unhandled : (∀ i reply, q.handler ≠ .executed i reply) → x.reply = none
  handled : ∀ i reply, q.handler = .executed i reply →
    x.reply = some reply ∨ x.reply = none ∧ ¬ s.Current i
  received : ∀ route reply, q.stage = .received route reply →
    q.handler = .executed route.server reply
  checked : ∀ route reply, q.stage = .checked route reply → x.reply = some reply

/-- **The network and what its clients may think of it.** -/
structure Refines (srv : N → Server S D A R K) (s : Net N E S D A R)
    (t : Rpc.State N E S String A R) : Prop where
  wiring : t.wiring = s.network.connections
  unmade : ∀ e, s.network.ends e = false → s.network.connections e = none
  never : ∀ v, s.power v = .down none → t.servers v = none
  saved : ∀ v d, s.power v = .down (some d) → ∃ state under d₀, t.servers v = some state ∧
    Rpc.diskAt (srv v).program state under = some d₀ ∧ d = (srv v).shutdown d₀
  runs : ∀ v i, (s.power v).current = some i → ∃ I, s.instances[i]? = some I ∧ I.name = v ∧
    t.servers v = some I.state
  registered : ∀ v i, s.network.servers v = some i → s.power v = .up i
  length : t.calls.length = s.requests.length
  requests : ∀ (r : Nat) (q : Request N E A R), s.requests[r]? = some q →
    ∃ x, t.calls[r]? = some x ∧ RequestOk s q x

theorem refines_init (srv : N → Server S D A R K) :
    Refines (E := E) srv init Rpc.init where
  wiring := rfl
  unmade _ _ := rfl
  never _ _ := rfl
  saved v d h := by cases h
  runs v i h := by cases h
  registered v i h := by cases h
  length := rfl
  requests r q h := by cases h

/-! ## 2. What stays -/

/-- A step that leaves the instances, the tester's books and the wires alone. -/
theorem Keeps.of_eq {s s' : Net N E S D A R} (hi : s'.instances = s.instances)
    (hp : s'.power = s.power) (hc : s'.network.connections = s.network.connections) :
    Keeps s s' := by
  refine ⟨fun i I h => ⟨I, by rw [hi]; exact h, rfl⟩, fun e v h => by rw [hc]; exact h, ?_⟩
  rintro i I _ ⟨I', hI', hcur⟩
  rw [hi] at hI'
  rw [hp] at hcur
  exact ⟨I', hI', hcur⟩

theorem RequestOk.keeps {s s' : Net N E S D A R} (h : Keeps s s') {q : Request N E A R}
    {x : Rpc.Call E String A R} (hq : RequestOk s q x) : RequestOk s' q x := by
  -- where an instance and the server of an end were, they still are
  have old : ∀ i : Nat, (∃ I, s.instances[i]? = some I ∧
      s.network.connections q.req.endname = some I.name) →
      ∃ I, s'.instances[i]? = some I ∧ s'.network.connections q.req.endname = some I.name := by
    rintro i ⟨I, hI, hc⟩
    obtain ⟨I', hI', hname⟩ := h.instances i I hI
    exact ⟨I', hI', by rw [hname]; exact h.connections _ _ hc⟩
  exact
    { hq with
      routed := fun route hst => old _ (hq.routed route hst)
      server := fun i hi => old i (hq.server i hi)
      handled := fun i reply hh => by
        rcases hq.handled i reply hh with hr | ⟨hr, hcur⟩
        · exact Or.inl hr
        · obtain ⟨I, hI, _⟩ := hq.server i (by rw [hh]; rfl)
          exact Or.inr ⟨hr, fun hc => hcur (h.current i I hI hc)⟩ }

/-! ## 3. A change of one request -/

theorem set_of_get {α : Type} {l : List α} {k : Nat} {x : α} (h : l[k]? = some x) :
    l.set k x = l := by
  obtain ⟨hlt, rfl⟩ := List.getElem?_eq_some_iff.mp h
  exact List.set_getElem_self hlt

section Request

variable {srv : N → Server S D A R K} {s s' : Net N E S D A R} {t t' : Rpc.State N E S String A R}
  {r : Nat} {q q' : Request N E A R} {x x' : Rpc.Call E String A R}

theorem Refines.requests_set (h : Refines srv s t) (hk : Keeps s s')
    (hs' : s'.requests = s.requests.set r q') (ht' : t'.calls = t.calls.set r x')
    (hok : RequestOk s' q' x') :
    t'.calls.length = s'.requests.length ∧
      ∀ (j : Nat) (p : Request N E A R), s'.requests[j]? = some p →
        ∃ y, t'.calls[j]? = some y ∧ RequestOk s' p y := by
  refine ⟨by rw [hs', ht', List.length_set, List.length_set, h.length], fun j p hp => ?_⟩
  rw [hs', List.getElem?_set] at hp
  rw [ht', List.getElem?_set]
  split at hp
  · rename_i e
    subst e
    split at hp
    · rename_i hlt
      cases hp
      exact ⟨x', by rw [if_pos rfl, if_pos (by rw [h.length]; exact hlt)], hok⟩
    · cases hp
  · rename_i hne
    obtain ⟨y, hy, hpy⟩ := h.requests j p hp
    exact ⟨y, by rw [if_neg hne]; exact hy, hpy.keeps hk⟩

theorem Refines.requests_keep (h : Refines srv s t) (t' : Rpc.State N E S String A R) (hk : Keeps s s')
    (hs' : s'.requests = s.requests) (ht' : t'.calls = t.calls) :
    t'.calls.length = s'.requests.length ∧
      ∀ (j : Nat) (p : Request N E A R), s'.requests[j]? = some p →
        ∃ y, t'.calls[j]? = some y ∧ RequestOk s' p y := by
  rw [hs', ht']
  refine ⟨h.length, fun j p hp => ?_⟩
  obtain ⟨y, hy, hpy⟩ := h.requests j p hp
  exact ⟨y, hy, hpy.keeps hk⟩

/-- A step that changes one request, and of the network at most the counters. -/
theorem Refines.request (h : Refines srv s t) (hinst : s'.instances = s.instances)
    (hpower : s'.power = s.power) (hconn : s'.network.connections = s.network.connections)
    (hends : s'.network.ends = s.network.ends) (hserv : s'.network.servers = s.network.servers)
    (hs' : s'.requests = s.requests.set r q') (htw : t'.wiring = t.wiring)
    (hts : t'.servers = t.servers) (ht' : t'.calls = t.calls.set r x') (hok : RequestOk s q' x') :
    Refines srv s' t' := by
  have hk : Keeps s s' := .of_eq hinst hpower hconn
  obtain ⟨hlen, hreq⟩ := h.requests_set hk hs' ht' (hok.keeps hk)
  exact
    { wiring := by rw [htw, hconn, h.wiring]
      unmade := by rw [hends, hconn]; exact h.unmade
      never := by rw [hpower, hts]; exact h.never
      saved := by rw [hpower, hts]; exact h.saved
      runs := by rw [hpower, hinst, hts]; exact h.runs
      registered := by rw [hserv, hpower]; exact h.registered
      length := hlen
      requests := hreq }

/-- The next stage of a request, with what that stage carries. -/
theorem RequestOk.advance (hq : RequestOk s q x) {stage : Stage N R}
    (hearly : stage.early = true → q.handler = .none)
    (hrouted : ∀ route, stage = .routed route → ∃ I, s.instances[route.server]? = some I ∧
      s.network.connections q.req.endname = some I.name)
    (hwaiting : ∀ route, stage = .waiting route → q.handler.server = some route.server)
    (hreceived : ∀ route reply, stage = .received route reply →
      q.handler = .executed route.server reply)
    (hchecked : ∀ route reply, stage = .checked route reply → x.reply = some reply) :
    RequestOk s { q with stage := stage } { x with outcome := stage.outcome } :=
  { hq with
    outcome := rfl
    early := hearly
    routed := hrouted
    waiting := hwaiting
    received := hreceived
    checked := hchecked }

theorem RequestOk.plain (hq : RequestOk s q x) (stage : Stage N R) (hp : stage.plain = true) :
    RequestOk s { q with stage := stage } { x with outcome := stage.outcome } := by
  refine hq.advance (fun e => ?_) (fun _ e => ?_) (fun _ e => ?_) (fun _ _ e => ?_)
    (fun _ _ e => ?_)
  · cases stage <;> cases hp <;> cases e
  all_goals
    subst e
    cases hp

/-- A call that is not over has no outcome. -/
theorem RequestOk.same (hq : RequestOk s q x) (hx : t.calls[r]? = some x) {o : Option (Option R)}
    (ho : q.stage.outcome = o) : t.calls = t.calls.set r { x with outcome := o } := by
  have e : { x with outcome := o } = x := by rw [← ho, ← hq.outcome]
  rw [e, set_of_get hx]

/-- An instance that is on the network is the tester's, under the name it has there. -/
theorem Refines.on_network (h : Refines srv s t) {v : N} {i : Nat}
    (hv : s.network.servers v = some i) : s.Current i ∧ ∃ I, s.instances[i]? = some I ∧ I.name = v := by
  have hp := h.registered v i hv
  obtain ⟨I, hI, hname, _⟩ := h.runs v i (by rw [hp]; rfl)
  exact ⟨⟨I, hI, by rw [hname, hp]; rfl⟩, I, hI, hname⟩

end Request

/-! ## 4. A change of one instance -/

section Instances

variable {srv : N → Server S D A R K} {s s' : Net N E S D A R} {t : Rpc.State N E S String A R}
  {i : Nat} {I : Instance N S}

/-- An instance goes on under its name. -/
theorem keeps_instance (I' : Instance N S) (hI : s.instances[i]? = some I)
    (hname : I'.name = I.name) (hinst : s'.instances = s.instances.set i I')
    (hpower : s'.power = s.power) (hconn : s'.network.connections = s.network.connections) :
    Keeps s s' := by
  have hlt := (List.getElem?_eq_some_iff.mp hI).1
  -- the same instances, with the same names
  have back : ∀ (j : Nat) (J' : Instance N S), s'.instances[j]? = some J' →
      ∃ J, s.instances[j]? = some J ∧ J'.name = J.name := by
    intro j J' hJ'
    rw [hinst, List.getElem?_set] at hJ'
    split at hJ'
    · rename_i e
      subst e
      cases hJ'
      exact ⟨I, hI, hname⟩
    · exact ⟨J', hJ', rfl⟩
  refine ⟨fun j J hJ => ?_, fun e v he => by rw [hconn]; exact he, ?_⟩
  · by_cases e : i = j
    · subst e
      rw [hI] at hJ
      cases hJ
      exact ⟨I', by rw [hinst, List.getElem?_set_self hlt], hname⟩
    · exact ⟨J, by rw [hinst, List.getElem?_set_ne e]; exact hJ, rfl⟩
  · rintro j J _ ⟨J', hJ', hcur⟩
    obtain ⟨J₀, hJ₀, e⟩ := back j J' hJ'
    exact ⟨J₀, hJ₀, by rw [← e, ← hpower]; exact hcur⟩

/-- **The states of the running servers** after a change of one instance: the change is the
    server's if the instance is the tester's, and nobody's otherwise. -/
theorem Refines.runs_set [DecidableEq N] (h : Refines srv s t) {I' : Instance N S}
    (hI : s.instances[i]? = some I) (hname : I'.name = I.name)
    (hinst : s'.instances = s.instances.set i I') (hpower : s'.power = s.power)
    {servers : N → Option S}
    (hservers : (s.Current i ∧ servers = Function.update t.servers I.name (some I'.state)) ∨
      (¬ s.Current i ∧ servers = t.servers)) :
    ∀ v j, (s'.power v).current = some j → ∃ J, s'.instances[j]? = some J ∧ J.name = v ∧
      servers v = some J.state := by
  intro v j hj
  rw [hpower] at hj
  obtain ⟨J, hJ, hJv, hstate⟩ := h.runs v j hj
  by_cases e : i = j
  · -- its own server
    subst e
    rw [hI] at hJ
    cases hJ
    rcases hservers with ⟨_, rfl⟩ | ⟨hcur, _⟩
    · refine ⟨I', ?_, hname.trans hJv, ?_⟩
      · rw [hinst, List.getElem?_set_self (List.getElem?_eq_some_iff.mp hI).1]
      · rw [hJv, Function.update_self]
    · exact absurd ⟨I, hI, by rw [hJv]; exact hj⟩ hcur
  · refine ⟨J, by rw [hinst, List.getElem?_set_ne e]; exact hJ, hJv, ?_⟩
    rcases hservers with ⟨⟨I₀, hI₀, hcur⟩, rfl⟩ | ⟨_, rfl⟩
    · rw [hI] at hI₀
      cases hI₀
      have hne : v ≠ I.name := by
        rintro rfl
        rw [hj] at hcur
        exact e (Option.some.inj hcur).symm
      rw [Function.update_of_ne hne]
      exact hstate
    · exact hstate

/-- A step that changes one instance, and perhaps requests. -/
theorem Refines.instance [DecidableEq N] (h : Refines srv s t) {t' : Rpc.State N E S String A R}
    (I' : Instance N S) (hI : s.instances[i]? = some I) (hname : I'.name = I.name)
    (hinst : s'.instances = s.instances.set i I') (hpower : s'.power = s.power)
    (hconn : s'.network.connections = s.network.connections)
    (hends : s'.network.ends = s.network.ends) (hserv : s'.network.servers = s.network.servers)
    (htw : t'.wiring = t.wiring)
    (hts : (s.Current i ∧ t'.servers = Function.update t.servers I.name (some I'.state)) ∨
      (¬ s.Current i ∧ t'.servers = t.servers))
    (hreq : t'.calls.length = s'.requests.length ∧
      ∀ (j : Nat) (p : Request N E A R), s'.requests[j]? = some p →
        ∃ y, t'.calls[j]? = some y ∧ RequestOk s' p y) :
    Refines srv s' t' := by
  -- a server that is down has no instance of the tester's
  have down : ∀ v saved, s.power v = .down saved → t'.servers v = t.servers v := by
    intro v saved hv
    rcases hts with ⟨⟨I₀, hI₀, hcur⟩, e⟩ | ⟨_, e⟩
    · rw [hI] at hI₀
      cases hI₀
      have hne : v ≠ I.name := by
        rintro rfl
        rw [hv] at hcur
        cases hcur
      rw [e, Function.update_of_ne hne]
    · rw [e]
  exact
    { wiring := by rw [htw, hconn, h.wiring]
      unmade := by rw [hends, hconn]; exact h.unmade
      never := fun v hv => by
        rw [hpower] at hv
        rw [down v _ hv]
        exact h.never v hv
      saved := fun v d hv => by
        rw [hpower] at hv
        rw [down v _ hv]
        exact h.saved v d hv
      runs := h.runs_set hI hname hinst hpower hts
      registered := by rw [hserv, hpower]; exact h.registered
      length := hreq.1
      requests := hreq.2 }

theorem Refines.current_state (h : Refines srv s t) (hI : s.instances[i]? = some I)
    (hcur : s.Current i) : t.servers I.name = some I.state := by
  obtain ⟨I₀, hI₀, hp⟩ := hcur
  rw [hI] at hI₀
  cases hI₀
  obtain ⟨J, hJ, _, hstate⟩ := h.runs _ _ hp
  rw [hI] at hJ
  cases hJ
  exact hstate

end Instances

/-! ## 5. A change of the tester's books -/

section Books

variable [DecidableEq N] {srv : N → Server S D A R K} {s s' : Net N E S D A R}
  {t t' : Rpc.State N E S String A R} {v : N} {p : Power D}

/-- The instance of one server stays, or is given up. -/
theorem keeps_power (hinst : s'.instances = s.instances)
    (hconn : s'.network.connections = s.network.connections)
    (hpower : s'.power = Function.update s.power v p)
    (hcur : ∀ i, p.current = some i → (s.power v).current = some i) : Keeps s s' := by
  refine ⟨fun i I h => ⟨I, by rw [hinst]; exact h, rfl⟩, fun e w h => by rw [hconn]; exact h, ?_⟩
  rintro i I _ ⟨I', hI', hc⟩
  rw [hinst] at hI'
  refine ⟨I', hI', ?_⟩
  rw [hpower] at hc
  by_cases hv : I'.name = v
  · rw [hv, Function.update_self] at hc
    rw [hv]
    exact hcur i hc
  · rw [Function.update_of_ne hv] at hc
    exact hc

/-- A step that changes the books for `v`, perhaps with a new instance. -/
theorem Refines.books (h : Refines srv s t) (hk : Keeps s s')
    (hpower : s'.power = Function.update s.power v p)
    (hinst : ∀ (i : Nat) (I : Instance N S), s.instances[i]? = some I →
      s'.instances[i]? = some I)
    (hconn : s'.network.connections = s.network.connections)
    (hends : s'.network.ends = s.network.ends) (hreq : s'.requests = s.requests)
    (htw : t'.wiring = t.wiring) (htc : t'.calls = t.calls)
    (hothers : ∀ w, w ≠ v → t'.servers w = t.servers w)
    (hnever : p = .down none → t'.servers v = none)
    (hsaved : ∀ d, p = .down (some d) → ∃ state under d₀, t'.servers v = some state ∧
      Rpc.diskAt (srv v).program state under = some d₀ ∧ d = (srv v).shutdown d₀)
    (hruns : ∀ i, p.current = some i → ∃ I, s'.instances[i]? = some I ∧ I.name = v ∧
      t'.servers v = some I.state)
    (hreg : ∀ w i, s'.network.servers w = some i → s'.power w = .up i) : Refines srv s' t' := by
  obtain ⟨hlen, hreq⟩ := h.requests_keep t' hk hreq htc
  have own : s'.power v = p := by rw [hpower, Function.update_self]
  have other : ∀ w, w ≠ v → s'.power w = s.power w := fun w hw => by
    rw [hpower, Function.update_of_ne hw]
  refine ⟨by rw [htw, hconn, h.wiring], by rw [hends, hconn]; exact h.unmade, fun w hw => ?_,
    fun w d hw => ?_, fun w i hw => ?_, hreg, hlen, hreq⟩
  · by_cases e : w = v
    · subst e
      exact hnever (own ▸ hw)
    · rw [hothers w e]
      exact h.never w (other w e ▸ hw)
  · by_cases e : w = v
    · subst e
      exact hsaved d (own ▸ hw)
    · rw [hothers w e]
      exact h.saved w d (other w e ▸ hw)
  · by_cases e : w = v
    · subst e
      exact hruns i (own ▸ hw)
    · obtain ⟨I, hI, hname, hstate⟩ := h.runs w i (other w e ▸ hw)
      exact ⟨I, hinst i I hI, hname, by rw [hothers w e]; exact hstate⟩

end Books

/-! ## 6. Every step can be followed -/

/-- The clients' network can go on to a state that fits `s'`. -/
def Follows [DecidableEq N] [DecidableEq E] (srv : N → Server S D A R K)
    (t : Rpc.State N E S String A R) (s' : Net N E S D A R) : Prop :=
  ∃ t', Reach (Rpc.step fun v => (srv v).program) AnyStep t t' ∧ Refines srv s' t'

section Follow

variable [DecidableEq N] [DecidableEq E] {srv : N → Server S D A R K} {s s' : Net N E S D A R}
  {t t' : Rpc.State N E S String A R} {r : Nat} {q : Request N E A R}

theorem Follows.stay (h : Refines srv s' t) : Follows srv t s' := ⟨t, .start, h⟩

theorem Follows.move (a : Rpc.Action N E String A K) (t' : Rpc.State N E S String A R)
    (hs : Rpc.step (fun v => (srv v).program) t a = some t') (h : Refines srv s' t') :
    Follows srv t s' := ⟨t', .move _ _ a .start trivial hs, h⟩

/-- `Call` returns false. -/
theorem follows_fail (h : Refines srv s t) (hq : s.requests[r]? = some q)
    (ho : q.stage.outcome = none) : Follows srv t (s.setStage r q (.returned none)) := by
  obtain ⟨x, hx, hok⟩ := h.requests r q hq
  have hnone : x.outcome = none := hok.outcome.trans ho
  refine .move (.fail r) (Rpc.setCall t r { x with outcome := some none }) ?_
    (h.request rfl rfl rfl rfl rfl rfl rfl rfl rfl (hok.plain (.returned none) rfl))
  simp only [Rpc.step, Rpc.fail, hx, hnone]

/-- `Call` returns true. -/
theorem follows_reply (replySize : R → Nat) (h : Refines srv s t) (hq : s.requests[r]? = some q)
    {route : Route N} {reply : R} (hst : q.stage = .checked route reply) :
    Follows srv t { s.setStage r q (.returned (some reply)) with
      network := { s.network with bytes := s.network.bytes + replySize reply } } := by
  obtain ⟨x, hx, hok⟩ := h.requests r q hq
  have hnone : x.outcome = none := hok.outcome.trans (by rw [hst]; rfl)
  have hreply := hok.checked route reply hst
  refine .move (.answer r) (Rpc.setCall t r { x with outcome := some (some reply) }) ?_
    (h.request rfl rfl rfl rfl rfl rfl rfl rfl rfl
      (hok.plain (.returned (some reply)) rfl))
  simp only [Rpc.step, Rpc.answer, hx, hnone, hreply]

/-- The request comes to a stage of which the clients see nothing. -/
theorem follows_stage (h : Refines srv s t) (hq : s.requests[r]? = some q)
    (ho : q.stage.outcome = none) (stage : Stage N R) (ho' : stage.outcome = none)
    (hok : ∀ x, RequestOk s q x →
      RequestOk s { q with stage := stage } { x with outcome := stage.outcome })
    (hinst : s'.instances = s.instances) (hpower : s'.power = s.power)
    (hconn : s'.network.connections = s.network.connections)
    (hends : s'.network.ends = s.network.ends) (hserv : s'.network.servers = s.network.servers)
    (hs' : s'.requests = s.requests.set r { q with stage := stage }) : Follows srv t s' := by
  obtain ⟨x, hx, hx'⟩ := h.requests r q hq
  exact .stay (h.request hinst hpower hconn hends hserv hs' rfl rfl
    (hx'.same hx (ho.trans ho'.symm)) (hok x hx'))

theorem follows_route (h : Refines srv s t) (hq : s.requests[r]? = some q)
    (hst : q.stage = .accepted) {route : Route N}
    (hconn : s.network.connections q.req.endname = some route.servername)
    (hserver : s.network.servers route.servername = some route.server) :
    Follows srv t (s.setStage r q (.routed route)) := by
  obtain ⟨_, I, hI, hname⟩ := h.on_network hserver
  refine follows_stage h hq (by rw [hst]; rfl) (.routed route) rfl (fun x hok => ?_) rfl rfl
    rfl rfl rfl rfl
  refine hok.advance (fun _ => hok.early (by rw [hst]; rfl)) (fun route' e => ?_) (fun _ e => ?_)
    (fun _ _ e => ?_) (fun _ _ e => ?_)
  · cases e
    exact ⟨I, hI, by rw [hname]; exact hconn⟩
  all_goals cases e

/-- The reply of a handler that has run goes through only if the instance is still the tester's,
    and then it was when the handler ran. -/
theorem follows_check (h : Refines srv s t) (hq : s.requests[r]? = some q) {route : Route N}
    {reply : R} (hst : q.stage = .received route reply)
    (hserver : s.network.servers route.servername = some route.server) :
    Follows srv t (s.setStage r q (.checked route reply)) := by
  refine follows_stage h hq (by rw [hst]; rfl) (.checked route reply) rfl
    (fun x hok => ?_) rfl rfl rfl rfl rfl rfl
  refine hok.advance (fun e => ?_) (fun _ e => ?_) (fun _ e => ?_) (fun _ _ e => ?_)
    (fun route' reply' e => ?passed)
  case passed =>
    cases e
    rcases hok.handled _ _ (hok.received route reply hst) with hr | ⟨_, hcur⟩
    · exact hr
    · exact absurd (h.on_network hserver).1 hcur
  all_goals cases e

theorem follows_receive (h : Refines srv s t) (hq : s.requests[r]? = some q) {route : Route N}
    {server : Nat} {reply : R} (hst : q.stage = .waiting route)
    (hh : q.handler = .executed server reply) :
    Follows srv t (s.setStage r q (.received route reply)) := by
  refine follows_stage h hq (by rw [hst]; rfl) (.received route reply) rfl
    (fun x hok => ?_) rfl rfl rfl rfl rfl rfl
  have hserver := hok.waiting route hst
  refine hok.advance (fun e => ?_) (fun _ e => ?_) (fun _ e => ?_)
    (fun route' reply' e => ?arrived) (fun _ _ e => ?_)
  case arrived =>
    cases e
    rw [hh] at hserver ⊢
    cases hserver
    rfl
  all_goals cases e

theorem follows_spawn (h : Refines srv s t) (hq : s.requests[r]? = some q) {route : Route N}
    (hst : q.stage = .routed route) :
    Follows srv t (s.setStage r { q with handler := .spawned route.server } (.waiting route)) := by
  obtain ⟨x, hx, hok⟩ := h.requests r q hq
  have hnone := hok.early (by rw [hst]; rfl)
  refine .stay (h.request rfl rfl rfl rfl rfl rfl rfl rfl
    (hok.same hx (o := none) (by rw [hst]; rfl)) ?_)
  exact
    { hok with
      outcome := rfl
      early := fun e => by cases e
      routed := fun _ e => by cases e
      server := fun i e => by
        cases e
        exact hok.routed route hst
      waiting := fun _ e => by
        cases e
        rfl
      unhandled := fun _ => hok.unhandled (by rw [hnone]; intro _ _ e; cases e)
      handled := fun _ _ e => by cases e
      received := fun _ _ e => by cases e
      checked := fun _ _ e => by cases e }

theorem follows_dispatch (h : Refines srv s t) (hq : s.requests[r]? = some q) {server : Nat}
    {I : Instance N S} (hh : q.handler = .spawned server) (hI : s.instances[server]? = some I) :
    Follows srv t { s.setHandler r q (.dispatched server) with
      instances := s.instances.set server { I with count := I.count + 1 } } := by
  obtain ⟨x, hx, hok⟩ := h.requests r q hq
  have hk : Keeps s { s.setHandler r q (.dispatched server) with
      instances := s.instances.set server { I with count := I.count + 1 } } :=
    keeps_instance ({ I with count := I.count + 1 }) hI rfl rfl rfl rfl
  have hok' : RequestOk s { q with handler := .dispatched server } x :=
    { hok with
      early := fun e => by
        rw [hok.early e] at hh
        cases hh
      server := fun i e => hok.server i (by rw [hh]; exact e)
      waiting := fun route e => by
        rw [← hok.waiting route e, hh]
        rfl
      unhandled := fun _ => hok.unhandled (by rw [hh]; intro _ _ e; cases e)
      handled := fun _ _ e => by cases e
      received := fun route reply e => by
        rw [hok.received route reply e] at hh
        cases hh }
  refine .stay (h.instance ({ I with count := I.count + 1 }) hI rfl rfl rfl rfl rfl rfl rfl ?_
    (h.requests_set hk rfl (set_of_get hx).symm (hok'.keeps hk)))
  by_cases hcur : s.Current server
  · refine Or.inl ⟨hcur, ?_⟩
    rw [← h.current_state hI hcur, Function.update_eq_self]
  · exact Or.inr ⟨hcur, rfl⟩

/-- **The handler runs**: for the clients too if the instance is the tester's, for nobody
    otherwise. -/
theorem follows_execute (h : Refines srv s t) (hq : s.requests[r]? = some q) {server : Nat}
    {I : Instance N S} {c : K} {state : S} {reply : R} (hh : q.handler = .dispatched server)
    (hI : s.instances[server]? = some I)
    (hx : (srv I.name).program.handle q.req.svcMeth I.state q.req.args c = some (state, reply)) :
    Follows srv t { s.setHandler r q (.executed server reply) with
      instances := s.instances.set server { I with state := state } } := by
  obtain ⟨x, hget, hok⟩ := h.requests r q hq
  have hnone : x.reply = none := hok.unhandled (by rw [hh]; intro _ _ e; cases e)
  have hk : Keeps s { s.setHandler r q (.executed server reply) with
      instances := s.instances.set server { I with state := state } } :=
    keeps_instance ({ I with state := state }) hI rfl rfl rfl rfl
  -- the request after its handler has run, with a reply that says whether it counts
  have hok' : ∀ o, (o = some reply ∨ o = none ∧ ¬ s.Current server) →
      RequestOk s { q with handler := .executed server reply } { x with reply := o } := by
    intro o ho
    exact
      { hok with
        early := fun e => by
          rw [hok.early e] at hh
          cases hh
        server := fun i e => hok.server i (by rw [hh]; exact e)
        waiting := fun route e => by
          rw [← hok.waiting route e, hh]
          rfl
        unhandled := fun hne => absurd rfl (hne server reply)
        handled := fun i reply' e => by
          cases e
          exact ho
        received := fun route reply' e => by
          rw [hok.received route reply' e] at hh
          cases hh
        checked := fun route reply' e => by
          rw [hok.checked route reply' e] at hnone
          cases hnone }
  by_cases hcur : s.Current server
  · obtain ⟨I₀, hI₀, hconn⟩ := hok.server server (by rw [hh]; rfl)
    rw [hI] at hI₀
    cases hI₀
    refine .move (.handle r c) (Rpc.setCall (Rpc.setServer t I.name state) r
      { x with reply := some reply }) ?_ (h.instance ({ I with state := state }) hI rfl rfl rfl
        rfl rfl rfl rfl (Or.inl ⟨hcur, rfl⟩)
        (h.requests_set hk rfl rfl ((hok' _ (Or.inl rfl)).keeps hk)))
    have hwire : t.wiring x.endname = some I.name := by rw [h.wiring, hok.endname]; exact hconn
    rw [← hok.method, ← hok.args] at hx
    simp only [Rpc.step, Rpc.handle, hget, hnone, hwire, h.current_state hI hcur, Option.bind_some,
      hx, Option.map_some]
  · have hsame : { x with reply := none } = x := by rw [← hnone]
    refine .stay (h.instance ({ I with state := state }) hI rfl rfl rfl rfl rfl rfl rfl
      (Or.inr ⟨hcur, rfl⟩) (h.requests_set hk rfl (set_of_get hget).symm ?_))
    rw [← hsame]
    exact (hok' none (Or.inr ⟨rfl, hcur⟩)).keeps hk

theorem follows_work (h : Refines srv s t) {server : Nat} {I : Instance N S} {c : K} {state : S}
    (hI : s.instances[server]? = some I) (hw : (srv I.name).work I.state c = some state) :
    Follows srv t { s with instances := s.instances.set server { I with state := state } } := by
  have hk : Keeps s { s with instances := s.instances.set server { I with state := state } } :=
    keeps_instance ({ I with state := state }) hI rfl rfl rfl rfl
  have hreq : ∀ (j : Nat) (p : Request N E A R), s.requests[j]? = some p →
      ∃ y, t.calls[j]? = some y ∧
        RequestOk { s with instances := s.instances.set server { I with state := state } } p y := by
    intro j p hp
    obtain ⟨y, hy, hpy⟩ := h.requests j p hp
    exact ⟨y, hy, hpy.keeps hk⟩
  by_cases hcur : s.Current server
  · refine .move (.work I.name c) (Rpc.setServer t I.name state) ?_
      (h.instance ({ I with state := state }) hI rfl rfl rfl rfl rfl rfl rfl
        (Or.inl ⟨hcur, rfl⟩) ⟨h.length, hreq⟩)
    simp only [Rpc.step, h.current_state hI hcur, Option.bind_some, Server.program, hw,
      Option.map_some]
  · exact .stay (h.instance ({ I with state := state }) hI rfl rfl rfl rfl rfl rfl rfl
      (Or.inr ⟨hcur, rfl⟩) ⟨h.length, hreq⟩)

/-! ## 7. Ends, calls and the tester -/

/-- A step that changes only what no part of the relation looks at. -/
theorem follows_quiet (h : Refines srv s t) (hinst : s'.instances = s.instances)
    (hpower : s'.power = s.power) (hconn : s'.network.connections = s.network.connections)
    (hends : ∀ e, s'.network.ends e = false → s.network.ends e = false)
    (hserv : s'.network.servers = s.network.servers) (hreq : s'.requests = s.requests) :
    Follows srv t s' := by
  obtain ⟨hlen, hreq⟩ := h.requests_keep t (.of_eq hinst hpower hconn) hreq rfl
  exact .stay
    { wiring := by rw [hconn, h.wiring]
      unmade := fun e he => by
        rw [hconn]
        exact h.unmade e (hends e he)
      never := by rw [hpower]; exact h.never
      saved := by rw [hpower]; exact h.saved
      runs := by rw [hpower, hinst]; exact h.runs
      registered := by rw [hserv, hpower]; exact h.registered
      length := hlen
      requests := hreq }

theorem follows_makeEnd (h : Refines srv s t) {e : E} (he : s.network.ends e = false) :
    Follows srv t { s with
      network := { s.network with
        ends := Function.update s.network.ends e true
        enabled := Function.update s.network.enabled e false
        connections := Function.update s.network.connections e none } } := by
  refine follows_quiet h rfl rfl ?_ (fun e' he' => ?_) rfl rfl
  · rw [← h.unmade e he]
    exact Function.update_eq_self _ _
  · by_cases hne : e' = e
    · rw [hne]
      exact he
    · exact (Function.update_of_ne hne _ _).symm.trans he'

theorem follows_connect (h : Refines srv s t) {e : E} {v : N} (he : s.network.ends e = true)
    (hnone : s.network.connections e = none) : Follows srv t (s.connect e v) := by
  -- no other end was `e`
  have other : ∀ e' w, s.network.connections e' = some w → e' ≠ e := by
    rintro e' w hw rfl
    rw [hnone] at hw
    cases hw
  have hk : Keeps s (s.connect e v) :=
    ⟨fun _ I h => ⟨I, h, rfl⟩, fun e' w hw =>
      (Function.update_of_ne (other e' w hw) _ _).trans hw, fun _ _ _ h => h⟩
  obtain ⟨hlen, hreq⟩ := h.requests_keep
    { t with wiring := Function.update t.wiring e (some v) } hk rfl rfl
  refine .move (.connect e v) ({ t with wiring := Function.update t.wiring e (some v) })
    ?_ { h with wiring := ?_, unmade := ?_, length := hlen, requests := hreq }
  · have hw : t.wiring e = none := by rw [h.wiring]; exact hnone
    simp only [Rpc.step, Rpc.connect, hw]
  · show Function.update t.wiring e (some v) = Function.update s.network.connections e (some v)
    rw [h.wiring]
  · intro e' he'
    have hne : e' ≠ e := by
      rintro rfl
      have he'' : s.network.ends e' = false := he'
      rw [he] at he''
      cases he''
    exact (Function.update_of_ne hne _ _).trans (h.unmade e' he')

theorem follows_call (h : Refines srv s t) (e : E) (m : String) (a : A) :
    Follows srv t { s with requests := s.requests ++ [⟨⟨e, m, a⟩, .calling, .none⟩] } := by
  have hk : Keeps s { s with requests := s.requests ++ [⟨⟨e, m, a⟩, .calling, .none⟩] } :=
    .of_eq rfl rfl rfl
  refine .move (.call e m a) ({ t with calls := t.calls ++ [⟨e, m, a, none, none⟩] }) rfl
    { h with length := ?_, requests := fun j p hp => ?_ }
  · show (t.calls ++ [_]).length = (s.requests ++ [_]).length
    rw [List.length_append, List.length_append, h.length]
    rfl
  · rcases get_concat hp with hp | ⟨rfl, rfl⟩
    · obtain ⟨y, hy, hpy⟩ := h.requests j p hp
      refine ⟨y, ?_, hpy.keeps hk⟩
      rw [List.getElem?_append_left (List.getElem?_eq_some_iff.mp hy).1]
      exact hy
    · refine ⟨⟨e, m, a, none, none⟩, ?_, ?_⟩
      · rw [← h.length]
        exact List.getElem?_concat_length
      · exact
          { endname := rfl
            method := rfl
            args := rfl
            outcome := rfl
            early := fun _ => rfl
            routed := fun _ e => by cases e
            server := fun _ e => by cases e
            waiting := fun _ e => by cases e
            unhandled := fun _ => rfl
            handled := fun _ _ e => by cases e
            received := fun _ _ e => by cases e
            checked := fun _ _ e => by cases e }

theorem follows_deleteServer (h : Refines srv s t) {v : N} {server : Nat}
    (hp : s.power v = .up server) :
    Follows srv t { s.setPower v (.deleted server) with
      network := { s.network with servers := Function.update s.network.servers v none } } := by
  have hcur : (s.power v).current = some server := by rw [hp]; rfl
  refine .stay (h.books (p := .deleted server) (keeps_power rfl rfl rfl fun i e => ?_) rfl
    (fun _ _ h => h) rfl rfl rfl rfl rfl (fun _ _ => rfl) (fun e => by cases e)
    (fun _ e => by cases e) (fun i e => ?_) fun w i hw => ?_)
  · rw [hcur]
    exact e
  · exact h.runs v i (hcur.trans e)
  · -- on the network are the others only
    have hw : Function.update s.network.servers v none w = some i := hw
    have hne : w ≠ v := by
      rintro rfl
      rw [Function.update_self] at hw
      cases hw
    rw [Function.update_of_ne hne] at hw
    exact (Function.update_of_ne hne _ _).trans (h.registered w i hw)

theorem follows_copy (h : Refines srv s t) {v : N} {server : Nat} {I : Instance N S}
    {under : Option K} {d : D} (hp : s.power v = .deleted server)
    (hI : s.instances[server]? = some I)
    (hd : Rpc.diskAt (srv v).program I.state under = some d) :
    Follows srv t (s.setPower v (.down (some ((srv v).shutdown d)))) := by
  obtain ⟨J, hJ, _, hstate⟩ := h.runs v server (by rw [hp]; rfl)
  rw [hI] at hJ
  cases hJ
  refine .stay (h.books (p := .down (some ((srv v).shutdown d)))
    (keeps_power rfl rfl rfl fun i e => by cases e) rfl (fun _ _ h => h) rfl rfl rfl rfl rfl
    (fun _ _ => rfl) (fun e => by cases e) (fun d' e => ?_) (fun i e => by cases e) fun w i hw => ?_)
  · cases e
    exact ⟨I.state, under, d, hstate, hd, rfl⟩
  · -- a server that is being shut down is not on the network
    have hup := h.registered w i hw
    have hne : w ≠ v := by
      rintro rfl
      rw [hp] at hup
      cases hup
    exact (Function.update_of_ne hne _ _).trans hup

theorem follows_start (h : Refines srv s t) {v : N} {saved : Option D} (c : K)
    (hp : s.power v = .down saved) :
    Follows srv t { s.setPower v (.made s.instances.length) with
      instances := s.instances ++ [⟨v, (srv v).start (saved.getD (srv v).makePersister) c, 0⟩] } := by
  generalize hst : (srv v).start (saved.getD (srv v).makePersister) c = state
  -- the old instances stay where they are, and whose they are
  have old : ∀ (i : Nat) (I : Instance N S), s.instances[i]? = some I →
      (s.instances ++ [⟨v, state, 0⟩])[i]? = some I := fun i I hI => by
    rw [List.getElem?_append_left (List.getElem?_eq_some_iff.mp hI).1]
    exact hI
  have hk : Keeps s { s.setPower v (.made s.instances.length) with
      instances := s.instances ++ [⟨v, state, 0⟩] } := by
    refine ⟨fun i I hI => ⟨I, old i I hI, rfl⟩, fun _ _ h => h, ?_⟩
    rintro i I hI ⟨I', hI', hc⟩
    rw [old i I hI] at hI'
    cases hI'
    refine ⟨I, hI, ?_⟩
    have hc : (Function.update s.power v (.made s.instances.length) I.name).current = some i := hc
    by_cases hv : I.name = v
    · rw [hv, Function.update_self] at hc
      have := (List.getElem?_eq_some_iff.mp hI).1
      have := Option.some.inj hc
      omega
    · rwa [Function.update_of_ne hv] at hc
  have new : Refines srv { s.setPower v (.made s.instances.length) with
      instances := s.instances ++ [⟨v, state, 0⟩] } (Rpc.setServer t v state) := by
    refine h.books (p := .made s.instances.length) hk rfl old rfl rfl rfl rfl rfl
      (fun w hw => Function.update_of_ne hw _ _) (fun e => by cases e) (fun _ e => by cases e)
      (fun i e => ?_) fun w i hw => ?_
    · cases e
      exact ⟨_, List.getElem?_concat_length, rfl, Function.update_self _ _ _⟩
    · have hup := h.registered w i hw
      have hne : w ≠ v := by
        rintro rfl
        rw [hp] at hup
        cases hup
      exact (Function.update_of_ne hne _ _).trans hup
  cases saved with
  | none =>
      -- its first start
      refine .move (.start v c) _ ?_ new
      simp only [Rpc.step, h.never v hp]
      rw [← hst]
      rfl
  | some d =>
      obtain ⟨state₀, under, d₀, hs₀, hd₀, rfl⟩ := h.saved v d hp
      refine .move (.crash v under c) _ ?_ new
      simp only [Rpc.step, hs₀, Option.bind_some, hd₀, Option.map_some]
      rw [← hst]
      rfl

theorem follows_addServer (h : Refines srv s t) {v : N} {server : Nat}
    (hp : s.power v = .made server) :
    Follows srv t { s.setPower v (.up server) with
      network := { s.network with
        servers := Function.update s.network.servers v (some server) } } := by
  have hcur : (s.power v).current = some server := by rw [hp]; rfl
  refine .stay (h.books (p := .up server) (keeps_power rfl rfl rfl fun i e => ?_) rfl
    (fun _ _ h => h) rfl rfl rfl rfl rfl (fun _ _ => rfl) (fun e => by cases e)
    (fun _ e => by cases e) (fun i e => ?_) fun w i hw => ?_)
  · rw [hcur]
    exact e
  · exact h.runs v i (hcur.trans e)
  · show Function.update s.power v (.up server) w = .up i
    have hw : Function.update s.network.servers v (some server) w = some i := hw
    by_cases hne : w = v
    · subst hne
      rw [Function.update_self] at hw ⊢
      rw [Option.some.inj hw]
    · rw [Function.update_of_ne hne] at hw ⊢
      exact h.registered w i hw

/-- **The step lemma.** -/
theorem refines_step {argsSize : A → Nat} {replySize : R → Nat} {a : Action N E A K}
    (h : Refines srv s t) (hg : s.connectOnce a = true) (hs : Move srv argsSize replySize s a s') :
    Follows srv t s' := by
  cases hs with
  | makeEnd e he => exact follows_makeEnd h he
  | connect e v =>
      have hg := Bool.and_eq_true_iff.mp hg
      exact follows_connect h hg.1 (Option.isNone_iff_eq_none.mp hg.2)
  | enable e b => exact follows_quiet h rfl rfl rfl (fun _ he => he) rfl rfl
  | reliable b => exact follows_quiet h rfl rfl rfl (fun _ he => he) rfl rfl
  | cleanup => exact follows_quiet h rfl rfl rfl (fun _ he => he) rfl rfl
  | stop => exact follows_quiet h rfl rfl rfl (fun _ he => he) rfl rfl
  | call e m a => exact follows_call h e m a
  | giveUp r q hq hst => exact follows_fail h hq (by rw [hst]; rfl)
  | accept r q hq hst =>
      refine follows_stage h hq (by rw [hst]; rfl) (.accepted) rfl (fun x hok => ?_) rfl rfl
        rfl rfl rfl rfl
      refine hok.advance (fun _ => hok.early (by rw [hst]; rfl)) (fun _ e => ?_) (fun _ e => ?_)
        (fun _ _ e => ?_) (fun _ _ e => ?_)
      all_goals cases e
  | route r q route hq hst _ hconn hserver => exact follows_route h hq hst hconn hserver
  | refuse r q hq hst =>
      exact follows_stage h hq (by rw [hst]; rfl) (.refused) rfl
        (fun x hok => hok.plain _ rfl) rfl rfl rfl rfl rfl rfl
  | timeout r q hq hst => exact follows_fail h hq (by rw [hst]; rfl)
  | dropRequest r q route hq hst => exact follows_fail h hq (by rw [hst]; rfl)
  | spawn r q route hq hst => exact follows_spawn h hq hst
  | dispatch r q server I hq hh hI => exact follows_dispatch h hq hh hI
  | execute r q server I c state reply hq hh hI hx => exact follows_execute h hq hh hI hx
  | receive r q route server reply hq hst hh => exact follows_receive h hq hst hh
  | alive r => exact .stay h
  | dead r q route hq hst _ =>
      exact follows_stage h hq (by rw [hst]; rfl) (.abandoned route) rfl
        (fun x hok => hok.plain _ rfl) rfl rfl rfl rfl rfl rfl
  | killed r q route reply hq hst => exact follows_fail h hq (by rw [hst]; rfl)
  | check r q route reply hq hst hserver => exact follows_check h hq hst hserver
  | abandon r q route hq hst => exact follows_fail h hq (by rw [hst]; rfl)
  | dropReply r q route reply hq hst => exact follows_fail h hq (by rw [hst]; rfl)
  | reply r q route reply hq hst => exact follows_reply replySize h hq hst
  | work server I c state hI hw => exact follows_work h hI hw
  | deleteServer v server hp => exact follows_deleteServer h hp
  | copy v server I under d hp hI hd => exact follows_copy h hp hI hd
  | start v saved c hp => exact follows_start h c hp
  | addServer v server hp => exact follows_addServer h hp

theorem refines_reach {argsSize : A → Nat} {replySize : R → Nat}
    (h : Reach (step srv argsSize replySize) (fun s a => s.connectOnce a = true) init s) :
    ∃ t, Reach (Rpc.step fun v => (srv v).program) AnyStep Rpc.init t ∧ Refines srv s t :=
  Reach.refine (fun _ _ _ _ hR hg hs => refines_step hR hg (move_of_step hs)) h (refines_init srv)

end Follow

/-! ## 8. What the clients see -/

/-- **The same view**: every call with its arguments and its outcome, the wires, and the state of
    every server that runs. -/
structure SameView (s : Net N E S D A R) (t : Rpc.State N E S String A R) : Prop where
  wiring : t.wiring = s.network.connections
  calls : (t.calls.map fun x => (x.endname, x.method, x.args, x.outcome)) =
    s.requests.map fun q => (q.req.endname, q.req.svcMeth, q.req.args, q.stage.outcome)
  servers : ∀ v i, (s.power v).current = some i → ∃ I, s.instances[i]? = some I ∧
    t.servers v = some I.state

theorem Refines.sameView {srv : N → Server S D A R K} {s : Net N E S D A R}
    {t : Rpc.State N E S String A R} (h : Refines srv s t) : SameView s t := by
  refine ⟨h.wiring, List.ext_getElem? fun r => ?_, fun v i hi => ?_⟩
  · rw [List.getElem?_map, List.getElem?_map]
    cases hq : s.requests[r]? with
    | none =>
        have hlen := List.getElem?_eq_none_iff.mp hq
        rw [List.getElem?_eq_none (by rw [h.length]; exact hlen)]
        rfl
    | some q =>
        obtain ⟨x, hx, hok⟩ := h.requests r q hq
        rw [hx, Option.map_some, Option.map_some, hok.endname, hok.method, hok.args, hok.outcome]
  · obtain ⟨I, hI, _, hstate⟩ := h.runs v i hi
    exact ⟨I, hI, hstate⟩

section Results

variable [DecidableEq N] [DecidableEq E] {srv : N → Server S D A R K} {argsSize : A → Nat}
  {replySize : R → Nat} {s : Net N E S D A R}

/-- **labrpc is a network of calls that are handled at most once, with crashes in one step.** A
    handler is one section under the lock of its server, as Raft's handlers are, and an end is
    connected once. -/
theorem network_refines
    (h : Reach (step srv argsSize replySize) (fun s a => s.connectOnce a = true) init s) :
    ∃ t, Reach (Rpc.step fun v => (srv v).program) AnyStep Rpc.init t ∧ SameView s t := by
  obtain ⟨t, hrun, ht⟩ := refines_reach h
  exact ⟨t, hrun, ht.sameView⟩

end Results

/-- A server that adds up what it is sent and stores the sum each time. -/
def adder : Server Nat Nat Nat Nat Unit where
  makePersister := 0
  persister sum := sum
  midway _ _ := none
  shutdown d := d
  start d _ := d
  work _ _ := none
  services _ := some fun _ => some fun sum x _ => some (sum + x, sum + x)

/-- Call 0 is handled and answered. Call 1 is handled by the instance that was already copied: the
    new one starts without it, and its caller is told false. -/
def lateHandler : List (Action Unit Nat Nat Unit) :=
  [.start () (), .addServer (), .makeEnd 0, .connect 0 (), .enable 0 true,
    .call 0 "Adder.Add" 5, .accept 0, .route 0, .spawn 0, .dispatch 0, .execute 0 (), .receive 0,
    .check 0, .reply 0, .call 0 "Adder.Add" 2, .accept 1, .route 1, .spawn 1, .deleteServer (),
    .copy () none, .dispatch 1, .execute 1 (), .start () (), .addServer (), .receive 1, .check 1]

theorem network_refines_late : ∃ (s : Net Unit Nat Nat Nat Nat Nat)
    (t : Rpc.State Unit Nat Nat String Nat Nat),
    s.requests.map (fun q => q.stage.outcome) = [some (some 5), some none] ∧
    s.instances.map (fun I => I.state) = [7, 5] ∧
    Reach (Rpc.step fun _ => adder.program) AnyStep Rpc.init t ∧ SameView s t := by
  have run : (exec (step (fun _ => adder) id id) connectOnce init lateHandler).any (fun s =>
      decide (s.requests.map (fun q => q.stage.outcome) = [some (some 5), some none] ∧
        s.instances.map (fun I => I.state) = [7, 5])) = true := by
    decide +kernel
  obtain ⟨s, hr, hs⟩ := exists_of_exec run
  obtain ⟨hout, hinst⟩ := of_decide_eq_true hs
  obtain ⟨t, hrun, ht⟩ := network_refines hr
  exact ⟨s, t, hout, hinst, hrun, ht⟩

/-- What the Persister `saved[v]` holds. -/
def saved (srv : N → Server S D A R K) (s : Net N E S D A R) (v : N) : Option D :=
  match s.power v with
  | .down d => d
  | .made i | .up i | .deleted i => (s.instances[i]?).map fun I => (srv v).persister I.state

/-- The note of a server is in `saved`, whether it runs or not. -/
theorem Refines.saved_noted {srv : N → Server S D A R K} {s : Net N E S D A R}
    {t : Rpc.State N E S String A R} (h : Refines srv s t) {v : N} {I : S → Prop} {m : String}
    {a : A} {reply : R} {P : D → Prop} (hN : Rpc.Noting (srv v).program I m a reply P) {state : S}
    (hstate : t.servers v = some state) (hI : I state) (hP : P ((srv v).persister state)) :
    ∃ d, s.saved srv v = some d ∧ P d := by
  unfold Net.saved
  -- a server that runs: `saved` is its own Persister
  have running : ∀ i, (s.power v).current = some i →
      ∃ d, (s.instances[i]?).map (fun I => (srv v).persister I.state) = some d ∧ P d := by
    intro i hi
    obtain ⟨J, hJ, _, hJs⟩ := h.runs v i hi
    rw [hstate] at hJs
    cases hJs
    exact ⟨_, by rw [hJ]; rfl, hP⟩
  cases hp : s.power v with
  | down saved =>
      cases saved with
      | none =>
          rw [h.never v hp] at hstate
          cases hstate
      | some d =>
          obtain ⟨state', under, d₀, hs', hd₀, rfl⟩ := h.saved v d hp
          rw [hstate] at hs'
          cases hs'
          exact ⟨_, rfl, (hN.crashKeeps state under d₀ hI hP hd₀).1⟩
  | made i => exact running i (by rw [hp]; rfl)
  | up i => exact running i (by rw [hp]; rfl)
  | deleted i => exact running i (by rw [hp]; rfl)

/-- **What an answered handler has put into its Persister is in `saved`**, whatever has crashed
    since: the positive reply came from an instance that was not superseded. -/
theorem acknowledged_saved [DecidableEq N] [DecidableEq E] {srv : N → Server S D A R K}
    {argsSize : A → Nat} {replySize : R → Nat} {s : Net N E S D A R} {I : N → S → Prop}
    {m : String} {a : A} {reply : R} {P : N → D → Prop}
    (hN : ∀ v, Rpc.Noting (srv v).program (I v) m a reply (P v))
    (h : Reach (step srv argsSize replySize) (fun s a => s.connectOnce a = true) init s)
    {r : Nat} {q : Request N E A R} (hq : s.requests[r]? = some q) (hm : q.req.svcMeth = m)
    (ha : q.req.args = a) (hst : q.stage = .returned (some reply)) :
    ∃ v d, s.network.connections q.req.endname = some v ∧ s.saved srv v = some d ∧ P v d := by
  obtain ⟨t, hrun, ht⟩ := refines_reach h
  obtain ⟨x, hx, hok⟩ := ht.requests r q hq
  have hn := Rpc.answered_noted hN hrun
  have hreply := Rpc.answered_handled hrun r x reply hx (by rw [hok.outcome, hst]; rfl)
  obtain ⟨v, hw, state, hstate, hP⟩ := hn.notes r x hx (hok.method.trans hm) (hok.args.trans ha)
    hreply
  obtain ⟨d, hd, hPd⟩ := ht.saved_noted (hN v) hstate (hn.inv v state hstate) hP
  exact ⟨v, d, by rw [← ht.wiring, ← hok.endname]; exact hw, hd, hPd⟩

end Net

end Mit6824.Labrpc
