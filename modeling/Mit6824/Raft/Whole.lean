/-
  File:      Mit6824/Raft/Whole.lean
  Subject:   THE WHOLE LOG BEHIND A CUT ONE (raft.go lines 92-124, 386-403, 869-911).

  A server drops what its snapshot covers. Agreement is about the log it would have had it never
  dropped anything, with entry `i` at position `i`.

  * `CutAt i lg F` -- `lg` is what is left of the whole log `F` behind a snapshot that ends at `i`.
    The first element only stands for entry `i`: index and term, and perhaps no command;
  * `Raft.Holds rf F` -- the log of `rf` is the whole log `F`, cut at its snapshot;
  * what the functions that read, cut, extend and overwrite the log do, said about `F`;
  * `Excerpt L idx p args` -- the request is taken from the whole log `L`, and what is left of it
    when the receiver has cut it at its own snapshot.
-/
import Mit6824.Lib.Consensus
import Mit6824.Raft.Align

namespace Mit6824

open Lib

variable {n : Nat} {C : Type}

/-! ## 1. Cutting a whole log -/

/-- `x` stands for `y`: its command may be gone, unless it is the entry every log starts with. -/
def Stands (x y : LogEntry C) : Prop := x.index = y.index ∧ x.term = y.term ∧ (y.index = 0 → x = y)

theorem Stands.refl (x : LogEntry C) : Stands x x := ⟨rfl, rfl, fun _ => rfl⟩

/-- **`lg` is the whole log `F` cut at `i`.** -/
structure CutAt (i : Nat) (lg F : List (LogEntry C)) : Prop where
  run : From 0 F
  head : ∃ x y, F[i]? = some y ∧ Stands x y ∧ lg = x :: F.drop (i + 1)

theorem From.concat {es : List (LogEntry C)} (h : From 0 es) {e : LogEntry C}
    (he : e.index = es.length) : From 0 (es ++ [e]) := by
  refine h.append fun k x hx => ?_
  cases k with
  | zero =>
      cases hx
      omega
  | succ k => simp at hx

namespace CutAt

variable {i : Nat} {lg F G : List (LogEntry C)}

theorem lt (h : CutAt i lg F) : i < F.length := by
  obtain ⟨_, y, hy, _⟩ := h.head
  exact (List.getElem?_eq_some_iff.mp hy).1

theorem length (h : CutAt i lg F) : i + lg.length = F.length := by
  obtain ⟨x, _, _, _, rfl⟩ := h.head
  have := h.lt
  rw [List.length_cons, List.length_drop]
  omega

/-- Behind the first element the cut log is the whole one. -/
theorem get (h : CutAt i lg F) {k : Nat} (hk : i < k) : lg[k - i]? = F[k]? := by
  obtain ⟨x, _, _, _, rfl⟩ := h.head
  rw [show k - i = (k - i - 1) + 1 by omega, List.getElem?_cons_succ, List.getElem?_drop,
    show i + 1 + (k - i - 1) = k by omega]

theorem stands (h : CutAt i lg F) {k : Nat} (hk : i ≤ k) {x : LogEntry C}
    (hx : lg[k - i]? = some x) : ∃ y, F[k]? = some y ∧ Stands x y ∧ (i < k → x = y) := by
  rcases Nat.lt_or_ge i k with hlt | hge
  · rw [h.get hlt] at hx
    exact ⟨x, hx, Stands.refl x, fun _ => rfl⟩
  · obtain rfl : k = i := by omega
    obtain ⟨z, y, hy, hs, rfl⟩ := h.head
    rw [Nat.sub_self, List.getElem?_cons_zero, Option.some.injEq] at hx
    subst hx
    exact ⟨y, hy, hs, fun hlt => absurd hlt (Nat.lt_irrefl _)⟩

/-- The terms are those of the whole log. -/
theorem terms (h : CutAt i lg F) (k : Nat) :
    (lg[k]?).map LogEntry.term = (F[i + k]?).map LogEntry.term := by
  cases k with
  | zero =>
      obtain ⟨x, y, hy, hs, rfl⟩ := h.head
      rw [List.getElem?_cons_zero, Nat.add_zero, hy, Option.map_some, Option.map_some, hs.2.1]
  | succ k =>
      rw [← h.get (k := i + (k + 1)) (by omega), show i + (k + 1) - i = k + 1 by omega]

theorem from_cut (h : CutAt i lg F) : From i lg := by
  intro k e he
  obtain ⟨y, hy, hs, _⟩ := h.stands (k := i + k) (by omega)
    (by rwa [show i + k - i = k by omega])
  rw [hs.1, h.run _ y hy]
  omega

/-- Nothing cut off: the log itself. -/
theorem eq_whole (h : CutAt 0 lg F) : lg = F := by
  obtain ⟨x, y, hy, hs, rfl⟩ := h.head
  have hx : x = y := hs.2.2 (h.run 0 y hy)
  cases F with
  | nil => simp at hy
  | cons f F =>
      simp only [List.getElem?_cons_zero, Option.some.injEq] at hy
      rw [hx, ← hy]
      rfl

theorem self (h : From 0 F) (hi : i < F.length) : CutAt i (F.drop i) F := by
  obtain ⟨y, hy⟩ : ∃ y, F[i]? = some y := ⟨_, List.getElem?_eq_getElem hi⟩
  refine ⟨h, y, y, hy, Stands.refl y, ?_⟩
  rw [List.drop_eq_getElem_cons hi]
  rw [List.getElem?_eq_getElem hi, Option.some.injEq] at hy
  rw [hy]

theorem take (h : CutAt i lg F) {k : Nat} (hk : i < k) : CutAt i (lg.take (k - i)) (F.take k) := by
  obtain ⟨x, y, hy, hs, rfl⟩ := h.head
  refine ⟨h.run.take k, x, y, by rwa [List.getElem?_take_of_lt hk], hs, ?_⟩
  rw [show k - i = (k - (i + 1)) + 1 by omega, List.take_succ_cons, List.drop_take]

theorem drop_eq (h : CutAt i lg F) {j : Nat} (hij : i < j) : lg.drop (j - i) = F.drop j := by
  obtain ⟨x, _, _, _, rfl⟩ := h.head
  rw [show j - i = (j - i - 1) + 1 by omega, List.drop_succ_cons, List.drop_drop,
    show i + 1 + (j - i - 1) = j by omega]

theorem drop (h : CutAt i lg F) {j : Nat} (hij : i ≤ j) (hj : j < F.length) :
    CutAt j (lg.drop (j - i)) F := by
  rcases Nat.lt_or_ge i j with hlt | hge
  · rw [h.drop_eq hlt]
    exact self h.run hj
  · obtain rfl : j = i := by omega
    rwa [Nat.sub_self, List.drop_zero]

theorem concat (h : CutAt i lg F) {e : LogEntry C} (he : e.index = F.length) :
    CutAt i (lg ++ [e]) (F ++ [e]) := by
  have hlt := h.lt
  obtain ⟨x, y, hy, hs, rfl⟩ := h.head
  refine ⟨h.run.concat he, x, y, by rwa [List.getElem?_append_left hlt], hs, ?_⟩
  rw [List.drop_append_of_le_length (by omega), List.cons_append]

/-- Overwriting behind a position up to which both logs are the same. -/
theorem overwrite (h : CutAt i lg F) (hG : From 0 G) {p : Nat} (hip : i ≤ p)
    (heq : F.take (p + 1) = G.take (p + 1)) :
    CutAt i (lg.take (p + 1 - i) ++ G.drop (p + 1)) G := by
  obtain ⟨x, y, hy, hs, rfl⟩ := h.head
  have hy' : G[i]? = some y := by
    have := congrArg (·[i]?) heq
    simp only [List.getElem?_take_of_lt (show i < p + 1 by omega)] at this
    rw [← this, hy]
  refine ⟨hG, x, y, hy', hs, ?_⟩
  have hmid : (F.drop (i + 1)).take (p - i) = (G.drop (i + 1)).take (p - i) := by
    have := congrArg (List.drop (i + 1)) heq
    rwa [List.drop_take, List.drop_take, show p + 1 - (i + 1) = p - i by omega] at this
  have hrest : G.drop (p + 1) = (G.drop (i + 1)).drop (p - i) := by
    rw [List.drop_drop, show i + 1 + (p - i) = p + 1 by omega]
  rw [show p + 1 - i = (p - i) + 1 by omega, List.take_succ_cons, List.cons_append, hmid, hrest,
    List.take_append_drop]

end CutAt

/-! ## 2. A server and its whole log -/

namespace Raft

/-- **The log of `rf` is the whole log `F`, cut at its snapshot.** -/
structure Holds (rf : Raft n C) (F : List (LogEntry C)) : Prop where
  cut : CutAt rf.snapshot.index rf.log F
  snap : ∀ y, F[rf.snapshot.index]? = some y → rf.snapshot.term = y.term

namespace Holds

variable {rf : Raft n C} {F : List (LogEntry C)}

theorem congr {rf' : Raft n C} (h : rf.Holds F) (hl : rf'.log = rf.log)
    (hs : rf'.snapshot = rf.snapshot) : rf'.Holds F :=
  ⟨by rw [hl, hs]; exact h.cut, by rw [hs]; exact h.snap⟩

theorem aligned (h : rf.Holds F) : rf.Aligned := by
  obtain ⟨x, _, _, _, hl⟩ := h.cut.head
  exact ⟨by rw [hl]; exact List.cons_ne_nil _ _, h.cut.from_cut⟩

theorem last_index (h : rf.Holds F) : rf.getLastLogUnLock.index + 1 = F.length := by
  rw [h.aligned.last, h.cut.length]

/-- At and above the snapshot: what is read stands for the entry of the whole log. -/
theorem get (h : rf.Holds F) {i : Nat} (hi : rf.snapshot.index ≤ i) {x : LogEntry C}
    (hx : rf.getLogByIndexUnLock i = some x) :
    ∃ y, F[i]? = some y ∧ Stands x y ∧ (rf.snapshot.index < i → x = y) := by
  rw [rf.getLogByIndexUnLock_of_le hi] at hx
  exact h.cut.stands hi hx

theorem get_above (h : rf.Holds F) {i : Nat} (hi : rf.snapshot.index < i) :
    rf.getLogByIndexUnLock i = F[i]? := by
  rw [rf.getLogByIndexUnLock_of_le (Nat.le_of_lt hi), h.cut.get hi]

/-- The term that is read at any index: the one of the entry, or of the snapshot. -/
theorem get_term (h : rf.Holds F) {i : Int} {x : LogEntry C}
    (hx : rf.getLogByIndexUnLock i = some x) :
    ∃ y, F[max i.toNat rf.snapshot.index]? = some y ∧ x.term = y.term := by
  by_cases hlt : i < rf.snapshot.index
  · unfold getLogByIndexUnLock at hx
    rw [if_pos hlt, Option.some.injEq] at hx
    obtain ⟨_, y, hy, _⟩ := h.cut.head
    rw [show max i.toNat rf.snapshot.index = rf.snapshot.index by omega]
    exact ⟨y, hy, by rw [← hx, ← h.snap y hy]⟩
  · obtain ⟨y, hy, hs, _⟩ := h.get (i := i.toNat) (by omega)
      (by rwa [show ((i.toNat : Nat) : Int) = i by omega])
    rw [show max i.toNat rf.snapshot.index = i.toNat by omega]
    exact ⟨y, hy, hs.2.1⟩

theorem last_term (h : rf.Holds F) :
    rf.getLastLogUnLock.term = (lastOf LogEntry.term F).1 := by
  have hlen := h.cut.length
  have hpos := List.length_pos_iff.mpr h.aligned.ne
  have hget : rf.log.getLast? = some (rf.log.getLast h.aligned.ne) :=
    List.getLast?_eq_some_getLast h.aligned.ne
  obtain ⟨y, hy, hs, _⟩ := h.cut.stands (k := F.length - 1) (x := rf.log.getLast h.aligned.ne)
    (by omega) (by
      rw [← hget, List.getLast?_eq_getElem?,
        show F.length - 1 - rf.snapshot.index = rf.log.length - 1 by omega])
  rw [lastOf_eq hy, ← hs.2.1]
  unfold getLastLogUnLock
  rw [hget]

/-- Last term and length, as a request for a vote states them. -/
theorem lastOf_eq_last (h : rf.Holds F) : lastOf LogEntry.term F =
    (rf.getLastLogUnLock.term, rf.getLastLogUnLock.index + 1) := by
  rw [h.last_term, h.last_index]
  rfl

theorem isMatch (h : rf.Holds F) (es : List (LogEntry C)) {next : Nat}
    (hn : rf.snapshot.index < next) {b : Bool} (hb : rf.isMatch next es = some b) :
    b = true ↔ ∀ k e, es[k]? = some e → ∃ y, F[next + k]? = some y ∧ y.term = e.term := by
  have hget : ∀ k, rf.log[next + k - rf.snapshot.index]? = F[next + k]? :=
    fun k => h.cut.get (by omega)
  rw [h.aligned.isMatch_iff es hn hb]
  simp only [hget]

/-! ## 3. Sections that change the log or the snapshot -/

theorem startLog (h : rf.Holds F) (command : Option C) (grow : Nat) :
    (rf.startLog command grow).Holds (F ++ [rf.newEntry command]) := by
  have hlt := h.cut.lt
  have hcut := h.cut.concat (e := rf.newEntry command) (by rw [← h.cut.length]; rfl)
  refine ⟨by simpa using hcut, fun y hy => ?_⟩
  rw [show (rf.startLog command grow).snapshot = rf.snapshot by simp] at hy ⊢
  rw [List.getElem?_append_left hlt] at hy
  exact h.snap y hy

/-- A snapshot of the server's own. -/
theorem saveSnapshot (h : rf.Holds F) {rf' : Raft n C} {index : Nat} {storage : List UInt8}
    (hs : rf.saveSnapshot index storage = some rf') : rf'.Holds F := by
  rcases saveSnapshot_cases hs with ⟨_, rfl⟩ | ⟨hlt, x, ls, hx, hls, rfl⟩
  · exact h
  · rw [h.get_above hlt] at hx
    have hi := (List.getElem?_eq_some_iff.mp hx).1
    suffices hw : Holds { rf with
        snapshot := ⟨index, x.term, storage⟩, log := ls.1, spare := ls.2,
        memory := rf.cutOff (rf.log.take (index - rf.snapshot.index)) } F from
      hw.congr (by simp) (by simp)
    refine ⟨?_, fun y hy => ?_⟩
    · show CutAt index ls.1 F
      rw [sliceLog_within hls (le_refl _), Int.toNat_natCast, List.take_length,
        show ((index : Int) - rf.snapshot.index).toNat = index - rf.snapshot.index by omega]
      exact h.cut.drop (by omega) hi
    · have hy' : F[index]? = some y := hy
      rw [hx] at hy'
      cases hy'
      rfl

/-- A snapshot of another server, which the whole log already covers. -/
theorem updateSnapshotUnLock (h : rf.Holds F) {sn : Snapshot} {y : LogEntry C}
    (hy : F[sn.index]? = some y) (ht : sn.term = y.term) (grow : Nat) :
    (rf.updateSnapshotUnLock sn grow).Holds F := by
  unfold Raft.updateSnapshotUnLock
  split
  · rename_i hlt
    have hcut := h.cut.drop (j := sn.index) (by omega) (List.getElem?_eq_some_iff.mp hy).1
    have hd := h.cut.from_cut.dropWhile_ne sn.index (by omega)
    rw [← hd] at hcut
    have hsnap : ∀ z, F[sn.index]? = some z → sn.term = z.term := by
      intro z hz
      rw [hy] at hz
      cases hz
      exact ht
    split
    · rename_i hnil
      obtain ⟨_, _, _, _, hl⟩ := hcut.head
      rw [hnil] at hl
      cases hl
    · rename_i e es hcons
      rw [hcons] at hcut
      exact ⟨hcut, hsnap⟩
  · exact h

end Holds

/-- Entries copied behind a gap: installing the snapshot they begin with leaves just them. -/
theorem holds_gap {rf : Raft n C} {pre es F : List (LogEntry C)} {sn : Snapshot}
    (hlog : rf.log = pre ++ es) (hpre : ∀ e ∈ pre, e.index < sn.index)
    (hlt : rf.snapshot.index < sn.index) (hes : CutAt sn.index es F)
    (hsn : ∀ y, F[sn.index]? = some y → sn.term = y.term) (grow : Nat) :
    (rf.updateSnapshotUnLock sn grow).Holds F := by
  have hskip : ∀ e ∈ pre, decide (e.index ≠ sn.index) = true := by
    intro e he
    have := hpre e he
    rw [decide_eq_true_eq]
    omega
  have hcut : rf.log.dropWhile (fun e => decide (e.index ≠ sn.index)) = es := by
    rw [hlog, List.dropWhile_append_of_pos hskip, hes.from_cut.dropWhile_ne _ (le_refl _),
      Nat.sub_self, List.drop_zero]
  unfold updateSnapshotUnLock
  rw [if_pos hlt, hcut]
  obtain ⟨x, _, _, _, hl⟩ := hes.head
  subst hl
  exact ⟨hes, hsn⟩

/-- So does the handler, when it copies entries that start at the sender's snapshot. -/
theorem Holds.copied_gap {rf : Raft n C} {F G es : List (LogEntry C)} (h : rf.Holds F) {prev : Nat}
    {sn : Snapshot} (hs : rf.snapshot.index ≤ prev) (hlt : prev < sn.index)
    (hes : CutAt sn.index es G) (hsn : ∀ y, G[sn.index]? = some y → sn.term = y.term)
    (m : Memory C) (spare : List (LogEntry C)) (lc last grow : Nat) :
    ((rf.written m (rf.log.take (prev + 1 - rf.snapshot.index) ++ es) spare lc
      last).updateSnapshotUnLock sn grow).Holds G := by
  refine holds_gap (written_log _ _ _ _ _ _) (fun e he => ?_) (by rw [written_snapshot]; omega)
    hes hsn grow
  obtain ⟨k, hk⟩ := List.mem_iff_getElem?.mp he
  have hi := (h.cut.from_cut.take _) k e hk
  have hlen := (List.getElem?_eq_some_iff.mp hk).1
  rw [List.length_take] at hlen
  omega

end Raft

/-! ## 4. A request out of a whole log -/

/-- **The request is an excerpt of `L`**: the entry before `p`, the entries from `p` (or from the
    sender's snapshot) up to `idx`, and the snapshot. Below the snapshot the term of the entry
    before is the snapshot's. -/
structure Excerpt (L : List (LogEntry C)) (idx p : Nat) (args : AppendEntriesArgs n C) : Prop where
  idx_lt : idx < L.length
  snap_le : args.logSnapshot.index ≤ idx
  snap_term : ∀ y, L[args.logSnapshot.index]? = some y → args.logSnapshot.term = y.term
  prev : args.prevLogIndex = (p : Int) - 1
  prev_le : p ≤ L.length
  prev_term : ∀ y, L[max (p - 1) args.logSnapshot.index]? = some y → args.prevLogTerm = y.term
  entries : (p ≤ args.logSnapshot.index ∧
      CutAt args.logSnapshot.index args.entries (L.take (idx + 1))) ∨
    (args.logSnapshot.index < p ∧ args.entries = (L.take (idx + 1)).drop p)

/-- **What a leader sends** is an excerpt of its whole log. -/
theorem excerpt_appendArgs {rf : Raft n C} {L : List (LogEntry C)} (hH : rf.Holds L) {me : Fin n}
    {next idx t ci : Nat} {args : AppendEntriesArgs n C}
    (hargs : rf.appendArgs me next idx t ci = some args) (hidx : idx < L.length)
    (hsn : rf.snapshot.index ≤ idx) : Excerpt L idx next args := by
  have hlen := hH.cut.length
  obtain ⟨prevLog, es, hprev, hes, rfl⟩ := Raft.appendArgs_inv hargs
  obtain ⟨y, hy, hyt⟩ := hH.get_term hprev
  rw [show ((next : Int) - 1).toNat = next - 1 by omega] at hy
  have hylt := (List.getElem?_eq_some_iff.mp hy).1
  have hcut : CutAt rf.snapshot.index (rf.log.take (idx + 1 - rf.snapshot.index))
      (L.take (idx + 1)) := hH.cut.take (by omega)
  have hhi : ((idx : Int) - rf.snapshot.index + 1).toNat = idx + 1 - rf.snapshot.index := by omega
  exact {
    idx_lt := hidx
    snap_le := hsn
    snap_term := hH.snap
    prev := rfl
    prev_le := by omega
    prev_term := by
      intro z hz
      have hz' : L[max (next - 1) rf.snapshot.index]? = some z := hz
      rw [hy, Option.some.injEq] at hz'
      rw [← hz', ← hyt]
    entries := by
      show (next ≤ rf.snapshot.index ∧ CutAt rf.snapshot.index es (L.take (idx + 1))) ∨
        (rf.snapshot.index < next ∧ es = (L.take (idx + 1)).drop next)
      split at hes
      · split at hes
        · obtain ⟨ls, hls, rfl⟩ := Option.map_eq_some_iff.mp hes
          rw [Raft.sliceLog_within hls (by omega), hhi, Int.toNat_zero, List.drop_zero]
          exact Or.inl ⟨by omega, hcut⟩
        · obtain ⟨ls, hls, rfl⟩ := Option.map_eq_some_iff.mp hes
          rw [Raft.sliceLog_within hls (by omega), hhi,
            show ((next : Int) - rf.snapshot.index).toNat = next - rf.snapshot.index by omega]
          by_cases heq : next = rf.snapshot.index
          · rw [heq, Nat.sub_self, List.drop_zero]
            exact Or.inl ⟨le_refl _, hcut⟩
          · exact Or.inr ⟨by omega, hcut.drop_eq (by omega)⟩
      · cases hes
        refine Or.inr ⟨by omega, (List.drop_eq_nil_of_le ?_).symm⟩
        rw [List.length_take]
        omega }

/-- What is left of a request after the cut of lines 370-380. -/
theorem Excerpt.trimArgs {L : List (LogEntry C)} {idx p : Nat} {args : AppendEntriesArgs n C}
    (h : Excerpt L idx p args) (hL : From 0 L) (rf : Raft n C) :
    rf.snapshot.index ≤ (rf.trimArgs args).1 ∧
    ((args.logSnapshot.index ≤ (rf.trimArgs args).1 ∧
        (rf.trimArgs args).2.2 = (L.take (idx + 1)).drop ((rf.trimArgs args).1 + 1)) ∨
      ((rf.trimArgs args).1 < args.logSnapshot.index ∧
        CutAt args.logSnapshot.index (rf.trimArgs args).2.2 (L.take (idx + 1)))) ∧
    (((rf.trimArgs args).1 = rf.snapshot.index ∧ (rf.trimArgs args).2.1 = rf.snapshot.term) ∨
      ((rf.trimArgs args).1 + 1 = p ∧ (rf.trimArgs args).2.1 = args.prevLogTerm)) := by
  have hprev := h.prev
  unfold Raft.trimArgs
  split
  · rename_i hlt
    refine ⟨le_refl _, ?_, Or.inl ⟨rfl, rfl⟩⟩
    dsimp only
    rcases h.entries with ⟨hp, hcut⟩ | ⟨hp, hes⟩
    · rw [hcut.from_cut.dropWhile_le]
      by_cases hle : args.logSnapshot.index ≤ rf.snapshot.index
      · exact Or.inl ⟨hle, hcut.drop_eq (by omega)⟩
      · rw [show rf.snapshot.index + 1 - args.logSnapshot.index = 0 by omega, List.drop_zero]
        exact Or.inr ⟨by omega, hcut⟩
    · have hrun : From p args.entries := by
        rw [hes]
        simpa using (hL.take (idx + 1)).drop p
      rw [hrun.dropWhile_le, hes, List.drop_drop,
        show p + (rf.snapshot.index + 1 - p) = rf.snapshot.index + 1 by omega]
      exact Or.inl ⟨by omega, rfl⟩
  · rename_i hge
    have hpp : args.prevLogIndex.toNat + 1 = p := by omega
    dsimp only
    refine ⟨by omega, ?_, Or.inr ⟨hpp, rfl⟩⟩
    rcases h.entries with ⟨hp, hcut⟩ | ⟨hp, hes⟩
    · exact Or.inr ⟨by omega, hcut⟩
    · rw [hpp]
      exact Or.inl ⟨by omega, hes⟩

/-- The last entry of a request that starts at the sender's snapshot. -/
theorem Excerpt.last_entry {L es : List (LogEntry C)} {idx p : Nat} {args : AppendEntriesArgs n C}
    (h : Excerpt L idx p args) (hes : CutAt args.logSnapshot.index es (L.take (idx + 1))) :
    ∃ e z, es.getLast? = some e ∧ L[idx]? = some z ∧ e.index = idx ∧ e.term = z.term := by
  have hidx := h.idx_lt
  have hlen := hes.length
  have hsl := h.snap_le
  rw [List.length_take] at hlen
  obtain ⟨e, he⟩ : ∃ e, es[idx - args.logSnapshot.index]? = some e :=
    ⟨_, List.getElem?_eq_getElem (by omega)⟩
  obtain ⟨z, hz, hst, _⟩ := hes.stands hsl he
  have hzi := hes.run _ z hz
  rw [List.getElem?_take_of_lt (by omega)] at hz
  refine ⟨e, z, ?_, hz, by rw [hst.1, hzi]; omega, hst.2.1⟩
  rw [List.getLast?_eq_getElem?, ← he]
  congr 1
  omega

end Mit6824
