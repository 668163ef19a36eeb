/-
  File:      Mit6824/Raft/Slots.lean
  Subject:   WITHOUT SNAPSHOTS EVERY SLOT KEEPS ITS INDEX, whatever is written over what.

  A request refers to the array of the log it was built from, and sends what stands there when it
  is encoded. Without snapshots every array begins with slot 0, and what is ever written into slot
  `p` is an entry of index `p`: a request that was overwritten carries other entries, but no wrong
  indexes and no unused slot. No guard is needed for that.

  * `Rewrites` -- what becomes of one array; `Raft.Keeps` -- of all arrays of a server, in a section;
  * `Raft.Covers`, `Raft.Views` -- the slots a broadcast, and a request that is being encoded, may
    still read;
  * `Cast.Slotted`, `Slotted` -- the invariant; `slotted_step`, `slotted_reach` -- every run.
-/
import Mit6824.Raft.Safety

namespace Mit6824

open Lib

variable {n : Nat} {C : Type}

/-! ## 1. Arrays -/

/-- `l'` is what has become of the array `l`: what is new in a slot has the index of the slot. -/
def Rewrites (l l' : List (LogEntry C)) : Prop :=
  ∀ p e, p < l.length → l'[p]? = some e → l[p]? = some e ∨ e.index = p

theorem Rewrites.refl (l : List (LogEntry C)) : Rewrites l l := fun _ _ _ h => Or.inl h

/-- A part of an array whose slots hold their indexes. -/
theorem Rewrites.window {l l' : List (LogEntry C)} (h : Rewrites l l') {i k : Nat}
    (hlen : l'.length ≤ l.length ∨ i + k ≤ l.length) (hf : From i ((l.drop i).take k)) :
    From i ((l'.drop i).take k) := by
  intro j e he
  rw [List.getElem?_take] at he
  split at he
  · rename_i hj
    rw [List.getElem?_drop] at he
    have hlt := (List.getElem?_eq_some_iff.mp he).1
    rcases h (i + j) e (by omega) he with hold | hidx
    · refine hf j e ?_
      rw [List.getElem?_take_of_lt hj, List.getElem?_drop]
      exact hold
    · exact hidx
  · cases he

/-- Entries are written behind `l`: over what stands there, or beyond the end. -/
theorem rewrites_append {l sp entries tail : List (LogEntry C)} (hes : From l.length entries)
    (htail : tail = sp.drop entries.length ∨ sp.length ≤ entries.length) :
    Rewrites (l ++ sp) (l ++ entries ++ tail) := by
  intro p e hp he
  rw [List.length_append] at hp
  by_cases hl : p < l.length
  · rw [List.append_assoc, List.getElem?_append_left hl] at he
    exact Or.inl (by rw [List.getElem?_append_left hl]; exact he)
  · by_cases hn : p < (l ++ entries).length
    · rw [List.getElem?_append_left hn, List.getElem?_append_right (by omega)] at he
      exact Or.inr (by rw [hes _ e he]; omega)
    · -- behind the entries: only the rest of the array itself is there
      rw [List.getElem?_append_right (by omega)] at he
      rw [List.length_append] at hn he
      rcases htail with rfl | hlen
      · rw [List.getElem?_drop] at he
        rw [List.getElem?_append_right (by omega)]
        rw [show entries.length + (p - (l.length + entries.length)) = p - l.length by omega] at he
        exact Or.inl he
      · omega

/-! ## 2. The arrays of a server -/

namespace Raft

/-- **What a section does to the arrays**: they are written into, and the log may move on to a
    longer one. -/
structure Keeps (rf rf' : Raft n C) : Prop where
  front : rf'.memory.front = []
  length : rf.array.length ≤ rf'.array.length
  array : Rewrites rf.array rf'.array
  arrays : ∀ (a : Nat) (l : List (LogEntry C)), rf.arrays[a]? = some l →
    ∃ l', rf'.arrays[a]? = some l' ∧ l'.length = l.length ∧ Rewrites l l'

variable {rf rf' rf'' : Raft n C}

theorem arrays_congr (hl : rf'.log = rf.log) (hs : rf'.spare = rf.spare)
    (hm : rf'.memory = rf.memory) : rf'.array = rf.array ∧ rf'.arrays = rf.arrays := by
  have harr : rf'.array = rf.array := by rw [array, array, hl, hs, hm]
  exact ⟨harr, by rw [arrays, arrays, harr, hm]⟩

theorem Keeps.congr (h : Keeps rf rf') (hl : rf''.log = rf'.log) (hs : rf''.spare = rf'.spare)
    (hm : rf''.memory = rf'.memory) : Keeps rf rf'' := by
  obtain ⟨harr, harrs⟩ := arrays_congr hl hs hm
  exact ⟨by rw [hm]; exact h.front, by rw [harr]; exact h.length, by rw [harr]; exact h.array,
    by rw [harrs]; exact h.arrays⟩

theorem Keeps.congr_left (h : Keeps rf' rf'') (hl : rf'.log = rf.log) (hs : rf'.spare = rf.spare)
    (hm : rf'.memory = rf.memory) : Keeps rf rf'' := by
  obtain ⟨harr, harrs⟩ := arrays_congr hl hs hm
  exact ⟨h.front, by rw [← harr]; exact h.length, by rw [← harr]; exact h.array,
    by rw [← harrs]; exact h.arrays⟩

/-- The log stays in its array. -/
theorem keeps_inPlace (hf : rf.memory.front = []) (hm : rf'.memory = rf.memory)
    (hlen : rf'.array.length = rf.array.length) (hrw : Rewrites rf.array rf'.array) :
    Keeps rf rf' := by
  refine ⟨by rw [hm]; exact hf, hlen.ge, hrw, fun a l ha => ?_⟩
  rw [arrays, List.getElem?_append] at ha
  rw [arrays, hm, List.getElem?_append]
  split at ha
  · rename_i hold
    exact ⟨l, by rw [if_pos hold]; exact ha, rfl, .refl l⟩
  · rename_i hnew
    rw [List.getElem?_singleton] at ha ⊢
    split at ha
    · rename_i hlast
      obtain rfl := Option.some.inj ha
      exact ⟨rf'.array, by rw [if_neg hnew, if_pos hlast], hlen, hrw⟩
    · cases ha

theorem keeps_same (hf : rf.memory.front = []) (hl : rf'.log = rf.log) (hs : rf'.spare = rf.spare)
    (hm : rf'.memory = rf.memory) : Keeps rf rf' := by
  have harr := (arrays_congr hl hs hm).1
  exact keeps_inPlace hf hm (by rw [harr]) (by rw [harr]; exact .refl _)

/-- The log moves on to a new array; nothing is written into the one it leaves. -/
theorem keeps_moved (hm : rf'.memory = ⟨rf.arrays, []⟩)
    (hlen : rf.array.length ≤ rf'.array.length) (hrw : Rewrites rf.array rf'.array) :
    Keeps rf rf' := by
  refine ⟨by rw [hm], hlen, hrw, fun a l ha => ⟨l, ?_, rfl, .refl l⟩⟩
  rw [arrays, hm, List.getElem?_append_left (List.getElem?_eq_some_iff.mp ha).1]
  exact ha

/-- **`append`**, in the array of the log or in a new one. -/
theorem keeps_appendLog {l sp entries : List (LogEntry C)} (hf : rf.memory.front = [])
    (hsplit : l ++ sp = rf.log ++ rf.spare) (hes : From l.length entries) (grow : Nat) :
    Keeps rf (rf.appendLog l sp entries grow) := by
  have harr : rf.array = l ++ sp := by rw [array, hf, List.nil_append, hsplit]
  unfold appendLog
  split
  · rename_i hfit
    have harr' : ({ rf with log := l ++ entries, spare := sp.drop entries.length } :
        Raft n C).array = l ++ entries ++ sp.drop entries.length := by
      rw [array, hf, List.nil_append]
    refine keeps_inPlace hf rfl ?_ ?_
    · rw [harr', harr]
      simp only [List.length_append, List.length_drop]
      omega
    · rw [harr', harr]
      exact rewrites_append hes (Or.inl rfl)
  · rename_i hfull
    have harr' : ({ rf with
        log := l ++ entries, spare := List.replicate grow LogEntry.zero,
        memory := ⟨rf.arrays, []⟩ } : Raft n C).array =
          l ++ entries ++ List.replicate grow LogEntry.zero := by
      rw [array, List.nil_append]
    refine keeps_moved rfl ?_ ?_
    · rw [harr', harr]
      simp only [List.length_append]
      omega
    · rw [harr', harr]
      exact rewrites_append hes (Or.inr (by omega))

/-- A request that is taken. -/
theorem keeps_acceptEntries (hal : rf.Aligned) (hf : rf.memory.front = [])
    (hsnap : rf.snapshot.index = 0) {args : AppendEntriesArgs n C} (hreq : Request args)
    (h0 : args.logSnapshot.index = 0) {grow : Nat}
    (hcon : rf.prevConsistent (rf.trimArgs args).1 (rf.trimArgs args).2.1 = some true)
    (ha : rf.acceptEntries args (rf.trimArgs args).1 (rf.trimArgs args).2.2 grow = some rf') :
    Keeps rf rf' := by
  obtain ⟨_, first, hrun, hfirst⟩ := follows_trimArgs rf hreq
  have hes : From ((rf.trimArgs args).1 + 1) (rf.trimArgs args).2.2 := by
    rcases hfirst with hnil | hnext | ⟨hgap, hsn⟩
    · rw [hnil]
      exact From.nil _
    · rwa [show first = (rf.trimArgs args).1 + 1 by omega] at hrun
    · omega
  have hprev : (rf.trimArgs args).1 ≤ rf.getLastLogUnLock.index := by
    obtain ⟨b, hb, hle⟩ := hal.prevConsistent (rf.trimArgs args).1 (rf.trimArgs args).2.1
    rw [hcon] at hb
    exact hle (Option.some.inj hb).symm
  have hlast := hal.last
  obtain ⟨m, log, spare, rfl, hcase⟩ := acceptEntries_cases ha
  have hk : Keeps rf { rf with memory := m, log := log, spare := spare } := by
    rcases hcase with ⟨_, e⟩ | ⟨_, hend, e⟩ | ⟨_, _, ls, hls, e⟩ <;> rw [e]
    · exact keeps_same hf rfl rfl rfl
    · exact keeps_appendLog hf rfl (by rwa [show rf.log.length = (rf.trimArgs args).1 + 1 by omega])
        grow
    · unfold sliceLog at hls
      split at hls
      · cases hls
        refine keeps_appendLog hf ?_ ?_ grow
        · rw [Int.toNat_zero, List.drop_zero, List.take_append_drop]
        · rw [Int.toNat_zero, List.drop_zero, List.length_take, List.length_append,
            show min (((rf.trimArgs args).1 : Int) + 1 - rf.snapshot.index).toNat
              (rf.log.length + rf.spare.length) = (rf.trimArgs args).1 + 1 by omega]
          exact hes
      · cases hls
  have hstay : (rf.written m log spare args.leaderCommit ((rf.trimArgs args).1 +
      (rf.trimArgs args).2.2.length)).updateSnapshotUnLock args.logSnapshot grow =
      rf.written m log spare args.leaderCommit ((rf.trimArgs args).1 +
        (rf.trimArgs args).2.2.length) := by
    unfold updateSnapshotUnLock
    rw [h0, if_neg (Nat.not_lt_zero _)]
  rw [hstay]
  exact hk.congr (by simp) (by simp) (by simp)

theorem keeps_appendEntries (hal : rf.Aligned) (hf : rf.memory.front = [])
    (hsnap : rf.snapshot.index = 0) {args : AppendEntriesArgs n C} (hreq : Request args)
    (h0 : args.logSnapshot.index = 0) {grow : Nat} {reply : AppendEntriesReply} {spawn : Bool}
    (h : rf.appendEntries args grow = some (rf', reply, spawn)) : Keeps rf rf' := by
  rcases appendEntries_cases h with ⟨_, rfl, _⟩ | ⟨_, hcon, ha, _⟩ | ⟨_, _, rfl, _⟩
  · exact keeps_same hf rfl rfl rfl
  · have hc : (rf.catchUp args.term).Aligned := hal.congr (by simp) (by simp)
    exact (keeps_acceptEntries hc (by simpa using hf) (by simpa using hsnap) hreq h0 hcon ha).congr_left
      (by simp) (by simp) (by simp)
  · exact keeps_same hf (by simp) (by simp) (by simp)

/-- **Every other section**, but for a restart. -/
theorem keeps_change {me : Fin n} {a : Action n C} {evs : List (Event n C)}
    (hc : Change me a rf evs rf') (hf : rf.memory.front = []) (hsnap : rf.snapshot.index = 0)
    (ha : a.saves = false) :
    Keeps rf rf' ∨ (∃ k grow, a = .handleAppend k me grow) ∨ ∃ grow, a = .restart me grow := by
  have same : rf'.log = rf.log → rf'.spare = rf.spare → rf'.memory = rf.memory →
      Keeps rf rf' ∨ (∃ k grow, a = .handleAppend k me grow) ∨ ∃ grow, a = .restart me grow :=
    fun hl hs hm => Or.inl (keeps_same hf hl hs hm)
  cases hc with
  | idle => exact same rfl rfl rfl
  | send => exact same rfl rfl rfl
  | candidate =>
      exact same (by simp [becomeCandidate]) (by simp [becomeCandidate]) (by simp [becomeCandidate])
  | vote e _ args =>
      rcases requestVote_cases rf args with ⟨_, e⟩ | ⟨_, _, e⟩ | ⟨_, _, e⟩ <;> rw [e] at same ⊢ <;>
        exact same (by simp) (by simp) (by simp)
  | down => exact same (by simp) (by simp) (by simp)
  | lead => exact same (by simp [becomeLeader]) (by simp [becomeLeader]) (by simp [becomeLeader])
  | start k grow _ command term =>
      have hnew : From rf.log.length [rf.newEntry command] := by
        intro j e he
        cases j with
        | zero =>
            cases he
            show rf.snapshot.index + rf.log.length = rf.log.length + 0
            omega
        | succ j => simp at he
      exact Or.inl ((keeps_appendLog hf rfl hnew grow).congr (persist_log _) (persist_spare _)
        (persist_memory _))
  | append k grow => exact Or.inr (Or.inl ⟨k, grow, rfl⟩)
  | next => exact same rfl rfl rfl
  | count => exact same (by simp) (by simp) (by simp)
  | commit => exact same (by simp) (by simp) (by simp)
  | apply _ _ h' =>
      obtain ⟨i, ms, rfl⟩ := apply_frame h'
      exact same rfl rfl rfl
  | snapshot => cases ha
  | restart grow => exact Or.inr (Or.inr ⟨grow, rfl⟩)

/-! ## 3. What may still be read -/

/-- The slots up to `i` hold their indexes, also those behind the end of the log. -/
def Covers (rf : Raft n C) (i : Nat) : Prop := i < rf.array.length ∧ From 0 (rf.array.take (i + 1))

/-- **A request that is being encoded**: what was read, and what is left to read. -/
structure Views (rf : Raft n C) (args : AppendEntriesArgs n C) (slice : Slice)
    (encoded : List (LogEntry C)) : Prop where
  array : slice.array < rf.arrays.length
  start : (slice.start : Int) = args.prevLogIndex + 1
  encoded : From slice.start encoded
  slots : From slice.start (rf.read slice 0 args.entries.length)

theorem Aligned.covers (hal : rf.Aligned) (hf : rf.memory.front = [])
    (hsnap : rf.snapshot.index = 0) : rf.Covers rf.getLastLogUnLock.index := by
  have hlast := hal.last
  have hrun := hal.run
  rw [hsnap] at hlast hrun
  rw [Nat.zero_add] at hlast
  have harr : rf.array = rf.log ++ rf.spare := by rw [Raft.array, hf, List.nil_append]
  refine ⟨by rw [harr, List.length_append]; omega, ?_⟩
  rw [harr, hlast, List.take_left]
  exact hrun

theorem Keeps.covers (h : Keeps rf rf') {i : Nat} (hc : rf.Covers i) : rf'.Covers i := by
  have hlen := h.length
  have hi := hc.1
  refine ⟨by omega, ?_⟩
  have hwin := h.array.window (i := 0) (k := i + 1) (Or.inr (by omega))
  rw [List.drop_zero, List.drop_zero] at hwin
  exact hwin hc.2

section Views

variable {args : AppendEntriesArgs n C} {slice : Slice} {encoded : List (LogEntry C)}

theorem Keeps.views (h : Keeps rf rf') (hv : rf.Views args slice encoded) :
    rf'.Views args slice encoded := by
  obtain ⟨l, hl⟩ : ∃ l, rf.arrays[slice.array]? = some l := ⟨_, List.getElem?_eq_getElem hv.array⟩
  obtain ⟨l', hl', hlen, hrw⟩ := h.arrays _ l hl
  have hslots := hv.slots
  rw [read, hl] at hslots
  refine ⟨(List.getElem?_eq_some_iff.mp hl').1, hv.start, hv.encoded, ?_⟩
  rw [read, hl']
  exact hrw.window (Or.inl hlen.le) hslots

/-- What is read next goes on where the last reading ended. -/
theorem Views.readOn (hv : rf.Views args slice encoded) (m : Nat) :
    From slice.start (rf.readOn slice args.entries.length m encoded) := by
  refine hv.encoded.append ?_
  intro j e he
  rw [read, List.getElem?_take] at he
  split at he
  · rename_i hj
    rw [List.getElem?_drop] at he
    refine (hv.slots (encoded.length + j) e ?_).trans (by omega)
    rw [read, List.getElem?_take_of_lt (by omega), List.getElem?_drop, ← he]
    congr 1
    omega
  · cases he

theorem Views.reads (hv : rf.Views args slice encoded) (m : Nat) :
    rf.Views args slice (rf.readOn slice args.entries.length m encoded) :=
  ⟨hv.array, hv.start, hv.readOn m, hv.slots⟩

/-- ... and is a request a server can take. -/
theorem Views.request (hv : rf.Views args slice encoded) (m : Nat) :
    Request { args with entries := rf.readOn slice args.entries.length m encoded } :=
  ⟨slice.start, hv.readOn m, Or.inr (Or.inl hv.start)⟩

end Views

/-- A request that is built refers to slots up to the index of its broadcast. -/
theorem Covers.views {index : Nat} (hc : rf.Covers index) (hf : rf.memory.front = [])
    (hsnap : rf.snapshot.index = 0) {me : Fin n} {next term commitIndex : Nat}
    {args : AppendEntriesArgs n C}
    (hargs : rf.appendArgs me next index term commitIndex = some args) :
    rf.Views args (rf.entriesSlice next) [] := by
  have hstart : rf.entriesSlice next = ⟨rf.memory.old.length, next⟩ := by
    rw [entriesSlice, hf, hsnap, List.length_nil, Nat.zero_add, Nat.sub_zero]
  rw [hstart]
  refine ⟨?_, ?_, From.nil _, ?_⟩
  · rw [arrays, List.length_append, List.length_singleton]
    exact Nat.lt_succ_self _
  · obtain ⟨_, _, _, _, rfl⟩ := appendArgs_inv hargs
    show (next : Int) = next - 1 + 1
    omega
  · have hread := appendArgs_readOn hargs (le_refl _)
    rw [hstart, readOn, List.nil_append, List.length_nil, Nat.sub_zero, Nat.min_self] at hread
    rw [hread]
    obtain ⟨hi, _, hle, he⟩ := appendArgs_entries hargs
    have harr : rf.array = rf.log ++ rf.spare := by rw [Raft.array, hf, List.nil_append]
    rw [he, hsnap, Nat.sub_zero, ← harr]
    have hrun := ((hc.2).take hi).drop next
    rwa [List.take_take, Nat.min_eq_left hle, Nat.zero_add] at hrun

end Raft

/-! ## 4. Runs -/

/-- **What a broadcast may read and has sent.** -/
structure Cast.Slotted (rf : Raft n C) (B : Cast n C) : Prop where
  covers : B.alive = true → rf.Covers B.index
  views : B.alive = true → ∀ u args next slice encoded, B.peer u = .built args next slice encoded →
    rf.Views args slice encoded
  sent : ∀ u args, (B.peer u).posted = some args → Raft.Request args

theorem Cast.Slotted.keeps {rf rf' : Raft n C} {B : Cast n C} (h : B.Slotted rf)
    (hk : Raft.Keeps rf rf') : B.Slotted rf' :=
  ⟨fun hal => hk.covers (h.covers hal),
    fun hal u args next slice encoded hp => hk.views (h.views hal u args next slice encoded hp),
    h.sent⟩

/-- A broadcast none of whose requests is built. -/
theorem Cast.Slotted.of_unbuilt {rf : Raft n C} {B : Cast n C}
    (hc : B.alive = true → rf.Covers B.index) (hp : ∀ u, (B.peer u).request = none) :
    B.Slotted rf := by
  refine ⟨hc, fun _ u args next slice encoded hb => ?_, fun u args hs => ?_⟩
  · have := hp u
    rw [hb] at this
    cases this
  · have := hp u
    rw [PeerCall.request_of_posted hs] at this
    cases this

/-- One of its calls moves on. -/
theorem Cast.Slotted.moves {rf : Raft n C} {B : Cast n C} (h : B.Slotted rf) {u : Fin n}
    {c : PeerCall n C} (hbuilt : B.alive = true → ∀ args next slice encoded,
      c = .built args next slice encoded → rf.Views args slice encoded)
    (hsent : ∀ args, c.posted = some args → Raft.Request args) (nReplica : Nat) (isAgree : Bool) :
    Cast.Slotted rf { B with
      nReplica := nReplica, isAgree := isAgree, peer := Function.update B.peer u c } where
  covers := h.covers
  views hal w args next slice encoded hp := by
    by_cases hwu : w = u
    · subst hwu
      simp only [Function.update_self] at hp
      exact hbuilt hal args next slice encoded hp
    · simp only [Function.update_of_ne hwu] at hp
      exact h.views hal w args next slice encoded hp
  sent w args hp := by
    by_cases hwu : w = u
    · subst hwu
      simp only [Function.update_self] at hp
      exact hsent args hp
    · simp only [Function.update_of_ne hwu] at hp
      exact h.sent w args hp

/-- ... and builds nothing. -/
theorem Cast.Slotted.passes {rf : Raft n C} {B : Cast n C} (h : B.Slotted rf) {u : Fin n}
    {c : PeerCall n C} (hc : c.request = c.posted)
    (hp : ∀ args, c.posted = some args → (B.peer u).posted = some args) (nReplica : Nat)
    (isAgree : Bool) : Cast.Slotted rf { B with
      nReplica := nReplica, isAgree := isAgree, peer := Function.update B.peer u c } := by
  refine h.moves (fun _ args next slice encoded e => ?_) (fun args hs => h.sent u args (hp args hs))
    nReplica isAgree
  rw [e] at hc
  cases hc

namespace Cluster

/-- **Every slot keeps its index.** -/
structure Slotted (s : Cluster n C) : Prop where
  aligned : ∀ v, (s.rafts v).Aligned
  front : ∀ v, (s.rafts v).memory.front = []
  casts : ∀ B ∈ s.casts, B.Slotted (s.rafts B.owner)

section Step

variable {s s' : Cluster n C} {a : Action n C}

theorem keeps_step (h : s.step a = some s') (ha : a.saves = false) (hU : Unsnapped s)
    (hI : Slotted s) {v : Fin n} (hr : ∀ grow, a ≠ .restart v grow) :
    Raft.Keeps (s.rafts v) (s'.rafts v) := by
  obtain ⟨w, evs, hA⟩ := step_acts h
  by_cases hv : v = w
  · subst hv
    rcases hA.change with hc | ⟨t, _, _, e⟩
    · rcases Raft.keeps_change hc (hI.front v) (hU.snap v) ha with hk | ⟨k, grow, rfl⟩ | ⟨grow, e⟩
      · exact hk
      · obtain ⟨B, args, next, reply, spawn, hk, hcall, happ⟩ := handleAppend_raft h
        have hB := List.mem_of_getElem? hk
        exact Raft.keeps_appendEntries (hI.aligned v) (hI.front v) (hU.snap v)
          ((hI.casts B hB).sent v args (by rw [hcall]; rfl))
          (hU.sent B hB v args (by rw [hcall]; rfl)) happ
      · exact absurd e (hr grow)
    · rw [e]
      exact Raft.keeps_same (hI.front v) (by simp) (by simp) (by simp)
  · rw [hA.others v hv]
    exact Raft.keeps_same (hI.front v) rfl rfl rfl

/-- The next section of a call. -/
theorem Slotted.calls (hI : Slotted s) (hU : Unsnapped s) {k : Nat} {B : Cast n C}
    (hB : s.casts[k]? = some B) {u : Fin n} {c : PeerCall n C} (hc : CallTurn s s' k B u a c)
    (nReplica : Nat) (isAgree : Bool) : Cast.Slotted (s.rafts B.owner) { B with
      nReplica := nReplica, isAgree := isAgree, peer := Function.update B.peer u c } := by
  have hok := hI.casts B (List.mem_of_getElem? hB)
  cases hc with
  | builds args hb ht hi ha =>
      refine hok.moves (fun hal _ _ _ _ e => ?_) (fun _ e => by cases e) _ _
      cases e
      exact (hok.covers hal).views (hI.front B.owner) (hU.snap B.owner) ha
  | reads args next slice encoded m hb =>
      refine hok.moves (fun hal _ _ _ _ e => ?_) (fun _ e => by cases e) _ _
      cases e
      exact (hok.views hal u args next slice encoded hb).reads m
  | sends args next slice encoded entries m hb he hg hs hal =>
      refine hok.moves (fun _ _ _ _ _ e => by cases e) (fun _ e => ?_) _ _
      cases e
      rw [he]
      exact (hok.views hal u args next slice encoded hb).request m
  | looks _ hb hc => rcases hc with rfl | rfl <;> exact hok.passes rfl (fun _ e => by cases e) _ _
  | refused args next reply _ hb hc =>
      rcases hc with rfl | rfl <;> exact hok.passes rfl (fun _ e => by cases e) _ _
  | givesUp hb => exact hok.passes rfl (fun _ e => by cases e) _ _
  | drops args next reply hb => exact hok.passes rfl (fun _ e => by cases e) _ _
  | handled args next reply grow hb hs => exact hok.passes rfl (fun _ e => by rw [hb]; exact e) _ _
  | passes args next reply hb ht => exact hok.passes rfl (fun _ e => by rw [hb]; exact e) _ _
  | counts args next reply hb hs => exact hok.passes rfl (fun _ e => by rw [hb]; exact e) _ _

theorem slotted_step (h : s.step a = some s') (ha : a.saves = false) (hU : Unsnapped s)
    (hS : ∀ v, (s.rafts v).Saved) (hU' : Unsnapped s') (hI : Slotted s) : Slotted s' := by
  have hal := aligned_step h hS hI.aligned fun B hB u args next hp =>
    (hI.casts B hB).sent u args (by rw [hp]; rfl)
  have hfront : ∀ v, (s'.rafts v).memory.front = [] := by
    intro v
    by_cases hr : ∃ grow, a = .restart v grow
    · obtain ⟨grow, rfl⟩ := hr
      cases Option.some.inj h
      rw [show (s.restart v grow).rafts v = Raft.make (s.rafts v).persister grow from
        Function.update_self _ _ _, Raft.make_memory]
    · exact (keeps_step h ha hU hI fun grow e => hr ⟨grow, e⟩).front
  refine ⟨hal, hfront, fun B' hB' => ?_⟩
  obtain ⟨k, hk⟩ := List.mem_iff_getElem?.mp hB'
  -- the owner of a broadcast that goes on has not been restarted
  have goes : ∀ {v : Fin n}, (∀ grow, a ≠ .restart v grow) →
      Raft.Keeps (s.rafts v) (s'.rafts v) := fun hr => keeps_step h ha hU hI hr
  have hof : ∀ {k : Nat} {B : Cast n C}, s.casts[k]? = some B → B.Slotted (s.rafts B.owner) :=
    fun hB => hI.casts _ (List.mem_of_getElem? hB)
  cases casts_turn h k B' hk with
  | kept _ _ _ hB hr _ => exact (hof hB).keeps (goes hr)
  | crashed grow _ B hB => exact ⟨nofun, nofun, (hof hB).sent⟩
  | spawned _ _ _ hst hn hp _ hi =>
      refine Cast.Slotted.of_unbuilt (fun _ => ?_) fun u => by rw [hp u]; rfl
      rw [hi]
      exact (hal _).covers (hfront _) (hU'.snap _)
  | looks _ B hB hst =>
      have hk := (hof hB).keeps (goes nofun)
      exact ⟨hk.covers, hk.views, hk.sent⟩
  | runs _ B hB hst ht =>
      have hk := (hof hB).keeps (goes nofun)
      refine Cast.Slotted.of_unbuilt hk.covers fun u => ?_
      dsimp only
      split <;> rfl
  | ends _ B hB hst =>
      have hk := (hof hB).keeps (goes nofun)
      exact ⟨hk.covers, hk.views, hk.sent⟩
  | calls _ _ B u c nReplica isAgree hB hc _ =>
      refine (hI.calls hU hB hc nReplica isAgree).keeps (goes fun grow e => ?_)
      subst e
      cases hc

end Step

theorem slotted_reach {G : Cluster n C → Action n C → Prop} (hG : ∀ s a, G s a → a.saves = false)
    {s : Cluster n C} (h : Reach step G (init n C) s) : Slotted s := by
  induction h with
  | start =>
      have hr : ∀ v, (init n C).rafts v = Raft.fresh ⟨none, []⟩ 0 := fun _ =>
        Raft.make_none (p := ⟨none, []⟩) rfl 0
      exact ⟨fun v => Raft.aligned_make_none (p := ⟨none, []⟩) rfl 0, fun v => by rw [hr v]; rfl,
        fun B hB => absurd hB List.not_mem_nil⟩
  | move s s' a hr hg hs ih =>
      exact slotted_step hs (hG _ _ hg) (unsnapped_reach hG hr) (fun v => (saved_reach hr v).1)
        (unsnapped_reach hG (.move _ _ _ hr hg hs)) ih

end Cluster

end Mit6824
