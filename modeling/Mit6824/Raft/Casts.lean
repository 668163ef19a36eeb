/-
  File:      Mit6824/Raft/Casts.lean
  Subject:   BROADCASTS (raft.go lines 496-636): whose they are, what they sent, what they count.

  `broadcastAppendEntries` is started with the term of its first section, but is no longer in that
  section when it looks whether it leads (lines 502-504), and again no longer in that one when it
  compares terms (506-512). Since no term falls, a broadcast that passes both belongs to a server
  that led the term it was started in.

  * `casts_turn` -- what a step can make of a broadcast; what follows is read off it;
  * `encodeGuard` -- a request goes out with the entries it was built with;
  * `Cast.Ok` -- the books of one broadcast: a request in flight is on record, an acknowledgement
    was given in its term, `nReplica` counts peers; so in every run (`castsOk_reach`);
  * `requests_step` -- what holds of every request when it is built holds of all requests of a run
    that meets `encodeGuard`;
  * `Cast.Led` -- once it runs, its owner has led its term; so in every run whose steps meet
    `termGuard` (`castsLed_reach`).
-/
import Mit6824.Raft.Votes

namespace Mit6824

open Lib

variable {n : Nat} {C : Type}

/-! ## 1. Leaders are on record -/

namespace Cluster

/-- Whoever is leader has become it in its present term. -/
def LedInv (s : Cluster n C) : Prop :=
  ∀ v, (s.rafts v).state = .leader → ∃ lg, Event.lead v (s.rafts v).currentTerm lg ∈ s.hist

theorem led_step {s s' : Cluster n C} {a : Action n C} (h : s.step a = some s') (hI : LedInv s) :
    LedInv s' := by
  intro v hv
  obtain ⟨w, evs, hA⟩ := step_acts h
  rw [hA.hist]
  by_cases hvw : v = w
  · subst hvw
    rcases hA.change with hc | ⟨t, _, _, e⟩
    · rcases hc.role with hr | ⟨hr, ht⟩ | ⟨hr, _⟩ | ⟨_, ht, hev⟩
      · rw [hr] at hv
        cases hv
      · obtain ⟨lg, hlg⟩ := hI v (hr ▸ hv)
        rw [ht]
        exact ⟨lg, List.mem_append_right _ hlg⟩
      · rw [hr] at hv
        cases hv
      · rw [ht]
        exact ⟨_, List.mem_append_left _ hev⟩
    · rw [e, Raft.stepDown_state] at hv
      cases hv
  · rw [hA.others v hvw] at hv ⊢
    obtain ⟨lg, hlg⟩ := hI v hv
    exact ⟨lg, List.mem_append_right _ hlg⟩

theorem led_reach {G : Cluster n C → Action n C → Prop} {s : Cluster n C}
    (h : Reach step G (init n C) s) : LedInv s := by
  refine Reach.inv (fun v hv => ?_) (fun s a s' hI _ hs => led_step hs hI) h
  rw [show ((init n C).rafts v).state = .follower from Raft.make_state _ _] at hv
  cases hv

end Cluster

/-! ## 2. The books of one broadcast -/

/-- The request of a call: as it was built, and as it went out once it has. -/
def PeerCall.request : PeerCall n C → Option (AppendEntriesArgs n C)
  | .built args _ _ _ | .sent args _ | .replied args _ _ | .checked args _ _ | .counted args =>
      some args
  | _ => none

/-- The request of a call that has gone out. -/
def PeerCall.posted : PeerCall n C → Option (AppendEntriesArgs n C)
  | .sent args _ | .replied args _ _ | .checked args _ _ | .counted args => some args
  | _ => none

theorem PeerCall.request_of_posted {c : PeerCall n C} {args : AppendEntriesArgs n C}
    (h : c.posted = some args) : c.request = some args := by
  cases c <;> first | exact h | cases h

/-- Was the request acknowledged? -/
def PeerCall.acked : PeerCall n C → Bool
  | .replied _ _ reply | .checked _ _ reply => reply.success
  | .counted _ => true
  | _ => false

def PeerCall.isCounted : PeerCall n C → Bool
  | .counted _ => true
  | _ => false

namespace Cast

def counted (B : Cast n C) : Finset (Fin n) :=
  Finset.univ.filter fun u => (B.peer u).isCounted = true

theorem mem_counted {B : Cast n C} {u : Fin n} :
    u ∈ B.counted ↔ (B.peer u).isCounted = true := by simp [counted]

/-- **The books of one broadcast.** -/
structure Ok (hist : List (Event n C)) (B : Cast n C) : Prop where
  own : B.peer B.owner = .idle
  idle : B.stage ≠ .running → ∀ u, B.peer u = .idle
  term : ∀ u args, (B.peer u).request = some args → args.term = B.term
  sent : ∀ u args, (B.peer u).posted = some args → Event.send B.owner u args ∈ hist
  acked : ∀ u, (B.peer u).acked = true → ∃ lg, Event.ack u B.term lg ∈ hist
  count : B.nReplica = B.counted.card + 1

/-- **Who broadcasts**, with `now` for the term the owner is in. -/
structure Led (hist : List (Event n C)) (now : Nat) (B : Cast n C) : Prop where
  term_le : B.term ≤ now
  saw : B.stage = .sawLeader → ∃ t lg, Event.lead B.owner t lg ∈ hist ∧ B.term ≤ t ∧ t ≤ now
  led : B.stage = .running → ∃ lg, Event.lead B.owner B.term lg ∈ hist

theorem Ok.mono {hist hist' : List (Event n C)} {B : Cast n C} (h : B.Ok hist)
    (hsub : ∀ ev ∈ hist, ev ∈ hist') : B.Ok hist' where
  own := h.own
  idle := h.idle
  term := h.term
  sent u args hr := hsub _ (h.sent u args hr)
  acked u ha := by
    obtain ⟨lg, hl⟩ := h.acked u ha
    exact ⟨lg, hsub _ hl⟩
  count := h.count

theorem Led.mono {hist hist' : List (Event n C)} {now now' : Nat} {B : Cast n C}
    (h : B.Led hist now) (hsub : ∀ ev ∈ hist, ev ∈ hist') (hnow : now ≤ now') :
    B.Led hist' now' where
  term_le := le_trans h.term_le hnow
  saw hs := by
    obtain ⟨t, lg, hl, h1, h2⟩ := h.saw hs
    exact ⟨t, lg, hsub _ hl, h1, le_trans h2 hnow⟩
  led hs := by
    obtain ⟨lg, hl⟩ := h.led hs
    exact ⟨lg, hsub _ hl⟩

/-- A section of a call leaves the broadcast itself as it is. -/
theorem Led.peer {hist : List (Event n C)} {now : Nat} {B : Cast n C} (h : B.Led hist now)
    (nReplica : Nat) (isAgree : Bool) (peer : Fin n → PeerCall n C) :
    ({ B with nReplica := nReplica, isAgree := isAgree, peer := peer }).Led hist now :=
  ⟨h.term_le, h.saw, h.led⟩

/-- A call under way is a call of another server, in a broadcast that runs. -/
theorem Ok.called {hist : List (Event n C)} {B : Cast n C} (h : B.Ok hist) {u : Fin n}
    (hc : B.peer u ≠ .idle) : u ≠ B.owner ∧ B.stage = .running := by
  refine ⟨?_, ?_⟩
  · rintro rfl
    exact hc h.own
  · by_contra hs
    exact hc (h.idle hs u)

theorem counted_update {B : Cast n C} {u : Fin n} {c : PeerCall n C}
    (hold : (B.peer u).isCounted = false) :
    ({ B with peer := Function.update B.peer u c }).counted =
      if c.isCounted = true then insert u B.counted else B.counted := by
  ext w
  unfold counted
  by_cases hw : w = u
  · subst hw
    by_cases hc : c.isCounted = true <;> simp [hc, hold]
  · by_cases hc : c.isCounted = true <;> simp [hc, hw]

/-- A call under way moves on. -/
theorem Ok.moves {hist : List (Event n C)} {B : Cast n C} (h : B.Ok hist) {u : Fin n}
    {c : PeerCall n C} (hact : B.peer u ≠ .idle) (hold : (B.peer u).isCounted = false)
    (hreq : ∀ args, c.request = some args → args.term = B.term)
    (hpost : ∀ args, c.posted = some args → Event.send B.owner u args ∈ hist)
    (hack : c.acked = true → ∃ lg, Event.ack u B.term lg ∈ hist) {nReplica : Nat} {isAgree : Bool}
    (hn : nReplica = B.nReplica + (if c.isCounted = true then 1 else 0)) :
    ({ B with nReplica := nReplica, isAgree := isAgree,
              peer := Function.update B.peer u c }).Ok hist := by
  obtain ⟨hu, hrun⟩ := h.called hact
  refine ⟨?_, fun hs => absurd hrun hs, fun w args hw => ?_, fun w args hw => ?_, fun w hw => ?_, ?_⟩
  · show Function.update B.peer u c B.owner = .idle
    rw [Function.update_of_ne hu.symm]
    exact h.own
  · by_cases hwu : w = u
    · subst hwu
      simp only [Function.update_self] at hw
      exact hreq args hw
    · simp only [Function.update_of_ne hwu] at hw
      exact h.term w args hw
  · by_cases hwu : w = u
    · subst hwu
      simp only [Function.update_self] at hw
      exact hpost args hw
    · simp only [Function.update_of_ne hwu] at hw
      exact h.sent w args hw
  · by_cases hwu : w = u
    · subst hwu
      simp only [Function.update_self] at hw
      exact hack hw
    · simp only [Function.update_of_ne hwu] at hw
      exact h.acked w hw
  · show nReplica = ({ B with peer := Function.update B.peer u c }).counted.card + 1
    rw [counted_update hold, hn, h.count]
    split
    · rw [Finset.card_insert_of_notMem (by rw [mem_counted, hold]; exact Bool.false_ne_true)]
    · rfl

theorem counted_idle {B : Cast n C} (hp : ∀ u, (B.peer u).isCounted = false) : B.counted = ∅ := by
  ext u
  rw [mem_counted, hp u]
  simp

/-- A broadcast none of whose goroutines has asked. -/
theorem ok_new {hist : List (Event n C)} {B : Cast n C} (hown : B.peer B.owner = .idle)
    (hidle : B.stage ≠ .running → ∀ u, B.peer u = .idle)
    (hp : ∀ u, B.peer u = .idle ∨ B.peer u = .retry) (hn : B.nReplica = 1) : B.Ok hist := by
  refine ⟨hown, hidle, fun u args hr => ?_, fun u args hr => ?_, fun u ha => ?_, ?_⟩
  · rcases hp u with e | e <;> rw [e] at hr <;> cases hr
  · rcases hp u with e | e <;> rw [e] at hr <;> cases hr
  · rcases hp u with e | e <;> rw [e] at ha <;> cases ha
  · rw [hn, counted_idle fun u => ?_, Finset.card_empty]
    rcases hp u with e | e <;> rw [e] <;> rfl

end Cast

/-! ## 3. What a step makes of a broadcast -/

namespace Cluster

/-- A successful reply is in the term of its request. -/
theorem appendEntries_acked {rf rf' : Raft n C} {args : AppendEntriesArgs n C} {grow : Nat}
    {reply : AppendEntriesReply} {spawn : Bool}
    (h : rf.appendEntries args grow = some (rf', reply, spawn)) (hs : reply.success = true) :
    reply.term = args.term := by
  rcases Raft.appendEntries_cases h with ⟨_, _, rfl, _⟩ | ⟨_, _, _, rfl, _⟩ | ⟨_, _, _, _, ht, _⟩
  · cases hs
  · rfl
  · exact ht

/-- What goes out with this step, and what the request was built with. -/
def encoding (s : Cluster n C) : Action n C → Option (List (LogEntry C) × List (LogEntry C))
  | .encode k u m =>
      match s.casts[k]? with
      | none => none
      | some B =>
          match B.peer u with
          | .built args _ slice encoded =>
              if encoded.length + m < args.entries.length then none
              else some ((s.rafts B.owner).readOn slice args.entries.length m encoded, args.entries)
          | _ => none
  | _ => none

/-- **A request goes out with the entries it was built with**: nothing was written over them
    between lines 538-545 and their encoding in `labrpc.Call`. -/
def encodeGuard (s : Cluster n C) (a : Action n C) : Prop := ∀ p ∈ s.encoding a, p.1 = p.2

instance [DecidableEq C] (s : Cluster n C) (a : Action n C) : Decidable (s.encodeGuard a) :=
  inferInstanceAs (Decidable (∀ p ∈ s.encoding a, p.1 = p.2))

theorem encodeGuard_readOn {s : Cluster n C} {k m next : Nat} {u : Fin n} {B : Cast n C}
    {args : AppendEntriesArgs n C} {slice : Slice} {encoded : List (LogEntry C)}
    (hg : s.encodeGuard (.encode k u m)) (hB : s.casts[k]? = some B)
    (hp : B.peer u = .built args next slice encoded)
    (hle : args.entries.length ≤ encoded.length + m) :
    (s.rafts B.owner).readOn slice args.entries.length m encoded = args.entries := by
  refine hg (_, args.entries) ?_
  show s.encoding (.encode k u m) = _
  simp only [encoding, hB, hp, if_neg (Nat.not_lt.mpr hle)]
  rfl

/-- **The next section of one call**, that of `u` in the broadcast `B` at place `k`. -/
inductive CallTurn (s s' : Cluster n C) (k : Nat) (B : Cast n C) (u : Fin n) :
    Action n C → PeerCall n C → Prop
  | looks (c : PeerCall n C) (hold : B.peer u = .retry) (hc : c = .ready ∨ c = .done) :
      CallTurn s s' k B u (.peerState k u) c
  | givesUp (hold : B.peer u = .ready) : CallTurn s s' k B u (.peerArgs k u) .done
  | builds (args : AppendEntriesArgs n C) (hold : B.peer u = .ready)
      (ht : (s.rafts B.owner).currentTerm = B.term) (hi : (s.rafts B.owner).lastApplied ≤ B.index)
      (ha : (s.rafts B.owner).appendArgs B.owner ((s.rafts B.owner).nextIndex u) B.index B.term
        B.commitIndex = some args) :
      CallTurn s s' k B u (.peerArgs k u) (.built args ((s.rafts B.owner).nextIndex u)
        ((s.rafts B.owner).entriesSlice ((s.rafts B.owner).nextIndex u)) [])
  | reads (args : AppendEntriesArgs n C) (next : Nat) (slice : Slice)
      (encoded : List (LogEntry C)) (m : Nat) (hold : B.peer u = .built args next slice encoded) :
      CallTurn s s' k B u (.encode k u m) (.built args next slice
        ((s.rafts B.owner).readOn slice args.entries.length m encoded))
  | sends (args : AppendEntriesArgs n C) (next : Nat) (slice : Slice)
      (encoded entries : List (LogEntry C)) (m : Nat)
      (hold : B.peer u = .built args next slice encoded)
      (he : entries = (s.rafts B.owner).readOn slice args.entries.length m encoded)
      (hg : s.encodeGuard (.encode k u m) → entries = args.entries)
      (hs : Event.send B.owner u { args with entries := entries } ∈ s'.hist)
      (ha : B.alive = true) :
      CallTurn s s' k B u (.encode k u m) (.sent { args with entries := entries } next)
  | handled (args : AppendEntriesArgs n C) (next : Nat) (reply : AppendEntriesReply) (grow : Nat)
      (hold : B.peer u = .sent args next)
      (hs : reply.success = true → ∃ lg, Event.ack u args.term lg ∈ s'.hist) :
      CallTurn s s' k B u (.handleAppend k u grow) (.replied args next reply)
  | passes (args : AppendEntriesArgs n C) (next : Nat) (reply : AppendEntriesReply)
      (hold : B.peer u = .replied args next reply)
      (ht : (s'.rafts B.owner).currentTerm = args.term) :
      CallTurn s s' k B u (.peerCheck k u) (.checked args next reply)
  | drops (args : AppendEntriesArgs n C) (next : Nat) (reply : AppendEntriesReply)
      (hold : B.peer u = .replied args next reply) : CallTurn s s' k B u (.peerCheck k u) .done
  | refused (args : AppendEntriesArgs n C) (next : Nat) (reply : AppendEntriesReply)
      (c : PeerCall n C) (hold : B.peer u = .checked args next reply) (hc : c = .retry ∨ c = .done) :
      CallTurn s s' k B u (.peerReply k u) c
  | counts (args : AppendEntriesArgs n C) (next : Nat) (reply : AppendEntriesReply)
      (hold : B.peer u = .checked args next reply) (hs : reply.success = true) :
      CallTurn s s' k B u (.peerReply k u) (.counted args)

/-- **Where the broadcast at place `k` comes from**: every invariant of broadcasts is read off
    this. -/
inductive CastTurn (s s' : Cluster n C) : Action n C → Nat → Cast n C → Prop
  | kept (a : Action n C) (k : Nat) (B : Cast n C) (hB : s.casts[k]? = some B)
      (hr : ∀ grow, a ≠ .restart B.owner grow) (hc : ∀ u, a ≠ .peerReply k u) : CastTurn s s' a k B
  | crashed (grow k : Nat) (B : Cast n C) (hB : s.casts[k]? = some B) :
      CastTurn s s' (.restart B.owner grow) k { B with alive := false }
  | spawned (a : Action n C) (k : Nat) (B : Cast n C) (hst : B.stage = .spawned)
      (hn : B.nReplica = 1) (hp : ∀ u, B.peer u = .idle)
      (ht : B.term = (s'.rafts B.owner).currentTerm)
      (hi : B.index = (s'.rafts B.owner).getLastLogUnLock.index) : CastTurn s s' a k B
  | looks (k : Nat) (B : Cast n C) (hB : s.casts[k]? = some B) (hst : B.stage = .spawned) :
      CastTurn s s' (.castState k) k
        { B with stage := if (s.rafts B.owner).state = .leader then .sawLeader else .ended }
  | runs (k : Nat) (B : Cast n C) (hB : s.casts[k]? = some B) (hst : B.stage = .sawLeader)
      (ht : (s.rafts B.owner).currentTerm = B.term) :
      CastTurn s s' (.castTerm k) k
        { B with stage := .running, peer := fun i => if i = B.owner then .idle else .retry }
  | ends (k : Nat) (B : Cast n C) (hB : s.casts[k]? = some B) (hst : B.stage = .sawLeader) :
      CastTurn s s' (.castTerm k) k { B with stage := .ended }
  | calls (a : Action n C) (k : Nat) (B : Cast n C) (u : Fin n) (c : PeerCall n C) (nReplica : Nat)
      (isAgree : Bool) (hB : s.casts[k]? = some B) (hc : CallTurn s s' k B u a c)
      (hn : nReplica = B.nReplica + if c.isCounted = true then 1 else 0) :
      CastTurn s s' a k
        { B with nReplica := nReplica, isAgree := isAgree, peer := Function.update B.peer u c }

theorem casts_turn {s s' : Cluster n C} {a : Action n C} (h : s.step a = some s') :
    ∀ (k : Nat) (B : Cast n C), s'.casts[k]? = some B → CastTurn s s' a k B := by
  cases a with
  | startAppend k grow =>
      obtain ⟨S, _, _, rfl⟩ := startAppend_inv h
      refine forall_get_concat (fun i B hB => .kept _ i B hB nofun nofun)
        (.spawned _ _ _ rfl rfl (fun _ => rfl) rfl ?_)
      show _ = (Function.update s.rafts S.owner _ S.owner).getLastLogUnLock.index
      rw [Function.update_self, Raft.startLog_last]
  | beatSend k =>
      obtain ⟨b, _, _, rfl⟩ := beatSend_inv h
      exact forall_get_concat (fun i B hB => .kept _ i B hB nofun nofun)
        (.spawned _ _ _ rfl rfl (fun _ => rfl) rfl rfl)
  | castState k =>
      obtain ⟨B, hB, _, hst, rfl⟩ := castState_inv h
      exact forall_get_set (fun i B' _ hB' => .kept _ i B' hB' nofun nofun) (.looks k B hB hst)
  | castTerm k =>
      obtain ⟨B, hB, _, hst, rfl⟩ := castTerm_inv h
      refine forall_get_set (fun i B' _ hB' => .kept _ i B' hB' nofun nofun) ?_
      split
      · rename_i ht
        exact .runs k B hB hst ht
      · exact .ends k B hB hst
  | peerState k u =>
      obtain ⟨B, hB, _, hc, rfl⟩ := peerState_inv h
      refine forall_get_set (fun i B' _ hB' => .kept _ i B' hB' nofun nofun)
        (.calls _ k B u _ _ _ hB (.looks _ hc ?_) ?_)
      · split
        · exact Or.inl rfl
        · exact Or.inr rfl
      · split <;> rfl
  | peerArgs k u =>
      obtain ⟨B, hB, _, hc, h⟩ := peerArgs_inv h
      rcases h with rfl | ⟨args, ht, hi, hargs, rfl⟩
      · exact forall_get_set (fun i B' _ hB' => .kept _ i B' hB' nofun nofun)
          (.calls _ k B u _ _ _ hB (.givesUp hc) rfl)
      · exact forall_get_set (fun i B' _ hB' => .kept _ i B' hB' nofun nofun)
          (.calls _ k B u _ _ _ hB (.builds args hc ht hi hargs) rfl)
  | encode k u m =>
      obtain ⟨B, args, next, slice, encoded, hB, ha, hc, h⟩ := encode_inv h
      rcases h with ⟨_, rfl⟩ | ⟨hle, rfl⟩
      · exact forall_get_set (fun i B' _ hB' => .kept _ i B' hB' nofun nofun)
          (.calls _ k B u _ _ _ hB (.reads args next slice encoded m hc) rfl)
      · exact forall_get_set (fun i B' _ hB' => .kept _ i B' hB' nofun nofun)
          (.calls _ k B u _ _ _ hB
            (.sends args next slice encoded _ m hc rfl
              (fun hg => encodeGuard_readOn hg hB hc hle) List.mem_cons_self ha) rfl)
  | handleAppend k u grow =>
      obtain ⟨B, args, next, rf, reply, spawn, hB, hc, hr, hs'⟩ := handleAppend_inv h
      have hca : s'.casts = s.casts.set k { B with
          peer := Function.update B.peer u (.replied args next reply) } := by
        rw [hs']; split <;> split <;> rfl
      rw [hca]
      refine forall_get_set (fun i B' _ hB' => .kept _ i B' hB' nofun nofun)
        (.calls _ k B u _ _ _ hB (.handled args next reply grow hc fun hs => ⟨rf.log, ?_⟩) rfl)
      rw [← appendEntries_acked hr hs, hs', if_pos hs]
      split <;> exact List.mem_cons_self
  | peerCheck k u =>
      obtain ⟨B, args, next, reply, hB, _, hc, rfl⟩ := peerCheck_inv h
      by_cases ht : (s.rafts B.owner).currentTerm = args.term
      · rw [if_pos ht]
        exact forall_get_set (fun i B' _ hB' => .kept _ i B' hB' nofun nofun)
          (.calls _ k B u _ _ _ hB (.passes args next reply hc ht) rfl)
      · rw [if_neg ht]
        exact forall_get_set (fun i B' _ hB' => .kept _ i B' hB' nofun nofun)
          (.calls _ k B u _ _ _ hB (.drops args next reply hc) rfl)
  | peerReply k u =>
      obtain ⟨B, args, next, reply, hB, _, hc, hs'⟩ := peerReply_inv h
      have hk : ∀ (i : Nat) (B' : Cast n C), i ≠ k → s.casts[i]? = some B' →
          CastTurn s s' (.peerReply k u) i B' := fun i B' hi hB' =>
        .kept _ i B' hB' nofun fun _ e => hi (by cases e; rfl)
      rcases hs' with ⟨_, _, e⟩ | ⟨_, _, next', _, e⟩ | ⟨hs, e⟩ | ⟨hs, _, _, _, e⟩ <;>
        rw [show s'.casts = _ from congrArg Cluster.casts e]
      · exact forall_get_set hk
          (.calls _ k B u _ _ _ hB (.refused args next reply _ hc (Or.inr rfl)) rfl)
      · exact forall_get_set hk
          (.calls _ k B u _ _ _ hB (.refused args next reply _ hc (Or.inl rfl)) rfl)
      · exact forall_get_set hk (.calls _ k B u _ _ _ hB (.counts args next reply hc hs) rfl)
      · exact forall_get_set hk (.calls _ k B u _ _ _ hB (.counts args next reply hc hs) rfl)
  | restart w grow =>
      cases Option.some.inj h
      intro k B' hB'
      obtain ⟨B, hB, rfl⟩ := Option.map_eq_some_iff.mp
        ((List.getElem?_map (l := s.casts) (i := k)).symm.trans hB')
      split
      · rename_i hw
        subst hw
        exact .crashed grow k B hB
      · rename_i hw
        exact .kept _ k B hB (fun grow e => hw (by cases e; rfl)) nofun
  | _ =>
      intro k B hB
      rw [(step_frame h).casts rfl] at hB
      exact .kept _ k B hB nofun nofun

end Cluster

/-! ## 4. Steps and runs -/

/-- A call that has a next section is under way and not counted. -/
theorem Cluster.CallTurn.active {s s' : Cluster n C} {k : Nat} {B : Cast n C} {u : Fin n}
    {a : Action n C} {c : PeerCall n C} (h : s.CallTurn s' k B u a c) :
    B.peer u ≠ .idle ∧ (B.peer u).isCounted = false := by
  cases h <;> simp_all [PeerCall.isCounted]

/-- The books after the next section of a call. -/
theorem Cast.Ok.calls {s s' : Cluster n C} {k : Nat} {B : Cast n C} {u : Fin n} {a : Action n C}
    {c : PeerCall n C} (h : B.Ok s'.hist) (hc : s.CallTurn s' k B u a c) {nReplica : Nat}
    {isAgree : Bool} (hn : nReplica = B.nReplica + if c.isCounted = true then 1 else 0) :
    ({ B with nReplica := nReplica, isAgree := isAgree,
              peer := Function.update B.peer u c }).Ok s'.hist := by
  obtain ⟨hact, hold⟩ := hc.active
  refine h.moves hact hold (fun args' hr => ?_) (fun args' hr => ?_) (fun ha => ?_) hn
  · cases hc with
    | builds args hold ht hi ha =>
        cases hr
        exact Raft.appendArgs_term ha
    | reads args next slice encoded m hold => exact h.term u args' (by rw [hold]; exact hr)
    | sends args next slice encoded entries m hold he hg hs _ =>
        cases hr
        exact h.term u args (by rw [hold]; rfl)
    | looks _ hold hc => rcases hc with rfl | rfl <;> cases hr
    | refused args next reply _ hold hc => rcases hc with rfl | rfl <;> cases hr
    | givesUp hold => cases hr
    | drops args next reply hold => cases hr
    | handled args next reply grow hold hs => exact h.term u args' (by rw [hold]; exact hr)
    | passes args next reply hold ht => exact h.term u args' (by rw [hold]; exact hr)
    | counts args next reply hold hs => exact h.term u args' (by rw [hold]; exact hr)
  · cases hc with
    | sends args next slice encoded entries m hold he hg hs _ =>
        cases hr
        exact hs
    | builds args hold ht hi ha => cases hr
    | reads args next slice encoded m hold => cases hr
    | looks _ hold hc => rcases hc with rfl | rfl <;> cases hr
    | refused args next reply _ hold hc => rcases hc with rfl | rfl <;> cases hr
    | givesUp hold => cases hr
    | drops args next reply hold => cases hr
    | handled args next reply grow hold hs => exact h.sent u args' (by rw [hold]; exact hr)
    | passes args next reply hold ht => exact h.sent u args' (by rw [hold]; exact hr)
    | counts args next reply hold hs => exact h.sent u args' (by rw [hold]; exact hr)
  · cases hc with
    | handled args next reply grow hold hs =>
        rw [← h.term u args (by rw [hold]; rfl)]
        exact hs ha
    | passes args next reply hold ht => exact h.acked u (by rw [hold]; exact ha)
    | counts args next reply hold hs => exact h.acked u (by rw [hold]; exact hs)
    | looks _ hold hc => rcases hc with rfl | rfl <;> cases ha
    | refused args next reply _ hold hc => rcases hc with rfl | rfl <;> cases ha
    | givesUp hold => cases ha
    | builds args hold ht hi ha' => cases ha
    | reads args next slice encoded m hold => cases ha
    | sends args next slice encoded entries m hold he hg hs _ => cases ha
    | drops args next reply hold => cases ha

namespace Cluster

/-- **All broadcasts keep their books.** -/
def CastsOk (s : Cluster n C) : Prop := ∀ B ∈ s.casts, B.Ok s.hist

/-- **All broadcasts are a leader's.** -/
def CastsLed (s : Cluster n C) : Prop :=
  ∀ B ∈ s.casts, B.Led s.hist (s.rafts B.owner).currentTerm

/-- What all requests meet, those that are built and those that have gone out. -/
def Requests (P : AppendEntriesArgs n C → Prop) (s : Cluster n C) : Prop :=
  ∀ B ∈ s.casts, ∀ u args, (B.peer u).request = some args → P args

/-- **What holds of every request when it is built holds of all requests**, if it holds of what
    goes out: in a step that meets `encodeGuard` those are the same entries. -/
theorem requests_step {P : AppendEntriesArgs n C → Prop} {s s' : Cluster n C} {a : Action n C}
    (h : s.step a = some s') (hI : Requests P s)
    (hbuilt : ∀ k u B args, a = .peerArgs k u → s.casts[k]? = some B →
      (s.rafts B.owner).currentTerm = B.term → (s.rafts B.owner).lastApplied ≤ B.index →
      (s.rafts B.owner).appendArgs B.owner ((s.rafts B.owner).nextIndex u) B.index B.term
        B.commitIndex = some args → P args)
    (hsent : ∀ args entries, P args → (s.encodeGuard a → entries = args.entries) →
      P { args with entries := entries }) : Requests P s' := by
  have hof : ∀ {k : Nat} {B : Cast n C}, s.casts[k]? = some B → ∀ u args,
      (B.peer u).request = some args → P args := fun hB => hI _ (List.mem_of_getElem? hB)
  intro B' hB' w args' hw
  obtain ⟨k, hk⟩ := List.mem_iff_getElem?.mp hB'
  cases casts_turn h k B' hk with
  | kept _ _ _ hB _ _ => exact hof hB w args' hw
  | crashed grow _ B hB => exact hof hB w args' hw
  | spawned _ _ _ hst hn hp _ _ =>
      rw [hp w] at hw
      cases hw
  | looks _ B hB hst => exact hof hB w args' hw
  | runs _ B hB hst ht =>
      dsimp only at hw
      split at hw <;> cases hw
  | ends _ B hB hst => exact hof hB w args' hw
  | calls _ _ B u c _ _ hB hc hn =>
      by_cases hwu : w = u
      · subst hwu
        simp only [Function.update_self] at hw
        cases hc with
        | builds args hold ht hi ha =>
            cases hw
            exact hbuilt k w B _ rfl hB ht hi ha
        | reads args next slice encoded m hold => exact hof hB w args' (by rw [hold]; exact hw)
        | sends args next slice encoded entries m hold he hg hs _ =>
            cases hw
            exact hsent args entries (hof hB w args (by rw [hold]; rfl)) hg
        | looks _ hold hc => rcases hc with rfl | rfl <;> cases hw
        | refused args next reply _ hold hc => rcases hc with rfl | rfl <;> cases hw
        | givesUp hold => cases hw
        | drops args next reply hold => cases hw
        | handled args next reply grow hold hs => exact hof hB w args' (by rw [hold]; exact hw)
        | passes args next reply hold ht => exact hof hB w args' (by rw [hold]; exact hw)
        | counts args next reply hold hs => exact hof hB w args' (by rw [hold]; exact hw)
      · simp only [Function.update_of_ne hwu] at hw
        exact hof hB w args' hw

theorem castsOk_step {s s' : Cluster n C} {a : Action n C} (h : s.step a = some s')
    (hI : CastsOk s) : CastsOk s' := by
  obtain ⟨evs, hh⟩ := hist_step h
  have hof : ∀ {k : Nat} {B : Cast n C}, s.casts[k]? = some B → B.Ok s'.hist := by
    intro k B hB
    refine (hI B (List.mem_of_getElem? hB)).mono fun ev hev => ?_
    rw [hh]
    exact List.mem_append_right _ hev
  intro B' hB'
  obtain ⟨k, hk⟩ := List.mem_iff_getElem?.mp hB'
  cases casts_turn h k B' hk with
  | kept _ _ _ hB _ _ => exact hof hB
  | crashed grow _ B hB =>
      have hok := hof hB
      exact ⟨hok.own, hok.idle, hok.term, hok.sent, hok.acked, hok.count⟩
  | spawned _ _ _ hst hn hp _ _ =>
      exact Cast.ok_new (hp _) (fun _ => hp) (fun u => Or.inl (hp u)) hn
  | looks _ B hB hst =>
      have hok := hof hB
      have hidle := hok.idle (by rw [hst]; nofun)
      exact ⟨hok.own, fun _ => hidle, hok.term, hok.sent, hok.acked, hok.count⟩
  | runs _ B hB hst ht =>
      have hok := hof hB
      have hidle := hok.idle (by rw [hst]; nofun)
      refine Cast.ok_new (if_pos rfl) (fun hs => absurd rfl hs) (fun u => ?_) ?_
      · show (if u = B.owner then PeerCall.idle else .retry : PeerCall n C) = .idle ∨ _
        by_cases hu : u = B.owner
        · exact Or.inl (if_pos hu)
        · exact Or.inr (if_neg hu)
      · have hc := hok.count
        rwa [Cast.counted_idle (fun u => by rw [hidle u]; rfl), Finset.card_empty] at hc
  | ends _ B hB hst =>
      have hok := hof hB
      have hidle := hok.idle (by rw [hst]; nofun)
      exact ⟨hok.own, fun _ => hidle, hok.term, hok.sent, hok.acked, hok.count⟩
  | calls _ _ B u c _ _ hB hc hn => exact (hof hB).calls hc hn

theorem castsOk_reach {G : Cluster n C → Action n C → Prop} {s : Cluster n C}
    (h : Reach step G (init n C) s) : CastsOk s :=
  Reach.inv (fun _ hB => absurd hB List.not_mem_nil) (fun _ _ _ hI _ hs => castsOk_step hs hI) h

theorem castsLed_step {s s' : Cluster n C} {a : Action n C} (h : s.step a = some s')
    (hmono : ∀ v, (s.rafts v).currentTerm ≤ (s'.rafts v).currentTerm) (hL : LedInv s)
    (hI : CastsLed s) : CastsLed s' := by
  obtain ⟨evs, hh⟩ := hist_step h
  have hsub : ∀ ev ∈ s.hist, ev ∈ s'.hist := by
    intro ev hev
    rw [hh]
    exact List.mem_append_right _ hev
  have hof : ∀ {k : Nat} {B : Cast n C}, s.casts[k]? = some B →
      B.Led s'.hist (s'.rafts B.owner).currentTerm := fun hB =>
    (hI _ (List.mem_of_getElem? hB)).mono hsub (hmono _)
  intro B' hB'
  obtain ⟨k, hk⟩ := List.mem_iff_getElem?.mp hB'
  cases casts_turn h k B' hk with
  | kept _ _ _ hB _ _ => exact hof hB
  | crashed grow _ B hB => exact ⟨(hof hB).term_le, (hof hB).saw, (hof hB).led⟩
  | spawned _ _ _ hst _ _ ht _ => exact ⟨ht.le, by rw [hst]; nofun, by rw [hst]; nofun⟩
  | looks _ B hB hst =>
      refine ⟨(hof hB).term_le, fun hs => ?_, fun hs => ?_⟩
      · have hl : (s.rafts B.owner).state = .leader := by
          by_contra hl
          simp [hl] at hs
        obtain ⟨lg, hlg⟩ := hL _ hl
        exact ⟨_, lg, hsub _ hlg, (hI B (List.mem_of_getElem? hB)).term_le, hmono _⟩
      · dsimp only at hs
        split at hs <;> cases hs
  | runs _ B hB hst ht =>
      -- the term was led at the first look and has not changed since
      obtain ⟨t, lg, hl, h1, h2⟩ := (hI B (List.mem_of_getElem? hB)).saw hst
      obtain rfl : t = B.term := by omega
      exact ⟨(hof hB).term_le, nofun, fun _ => ⟨lg, hsub _ hl⟩⟩
  | ends _ B hB hst => exact ⟨(hof hB).term_le, nofun, nofun⟩
  | calls _ _ B u c _ _ hB hc hn => exact (hof hB).peer _ _ _

theorem castsLed_reach {G : Cluster n C → Action n C → Prop}
    (hG : ∀ s a, G s a → s.termGuard a = true) {s : Cluster n C}
    (h : Reach step G (init n C) s) : CastsLed s := by
  induction h with
  | start => exact fun B hB => absurd hB List.not_mem_nil
  | move s s' a hr hg hs ih =>
      exact castsLed_step hs
        (fun v => (voteStep_step (hG _ _ hg) hs (saved_reach hr) v).le) (led_reach hr) ih

end Cluster

end Mit6824
