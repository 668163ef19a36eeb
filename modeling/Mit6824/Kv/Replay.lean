/-
  File:      Mit6824/Kv/Replay.lean
  Subject:   LOGS WITH REPETITIONS (kvraft/server.go lines 48-112): what the maps hold after a log
             in which commands occur again, or of which a part is applied a second time.

  `plain cmds` is the purpose: every command executed, once each, on a plain map.

  * `effects` -- the writes that `isRepeated` lets through, by running the server;
    `foldl_storage` -- the server's `Storage` is the plain execution of these;
  * `firsts` -- the first occurrence of every (client, message);
    `noted_iff_occurs` -- when messages first occur in increasing order, `isRepeated` finds
    exactly the later occurrences;
  * `exactly_once` -- so `Storage` is the plain execution of the first occurrences;
  * `replay_ahead` -- maps that are ahead of the place where the replay starts do no harm.
-/
import Mit6824.Kv.Server

namespace Mit6824.Kv

/-! ## 1. Plain execution -/

/-- One write on a plain map. -/
def execute (storage : String → Option String) (args : PutAppendArgs) : String → Option String :=
  match args.op with
  | .put => Function.update storage args.key (some args.value)
  | .append =>
      Function.update storage args.key (some ((storage args.key).getD "" ++ args.value))

/-- **Every command once, in order, from the empty map.** -/
def plain (cmds : List PutAppendArgs) : String → Option String :=
  cmds.foldl execute fun _ => none

theorem store_storage (kv : Tables) (args : PutAppendArgs) :
    (kv.store args).storage = execute kv.storage args := by
  unfold Tables.store execute
  cases args.op <;> rfl

/-! ## 2. The writes that take effect -/

/-- The log that holds these writes. -/
def writes (cmds : List PutAppendArgs) : List Op := cmds.map Op.putAppend

theorem writes_concat (cmds : List PutAppendArgs) (a : PutAppendArgs) :
    writes (cmds ++ [a]) = writes cmds ++ [.putAppend a] := List.map_append

theorem mem_of_writes {cmds : List PutAppendArgs} {q : Nat} {a : PutAppendArgs}
    (h : (writes cmds)[q]? = some (.putAppend a)) : a ∈ cmds := by
  unfold writes at h
  rw [List.getElem?_map, Option.map_eq_some_iff] at h
  obtain ⟨b, hb, e⟩ := h
  cases e
  exact List.mem_of_getElem? hb

/-- The writes that find themselves new when the server `kv` applies `cmds`. -/
def effects (kv : Tables) : List PutAppendArgs → List PutAppendArgs
  | [] => []
  | a :: cmds =>
      if (kv.isRepeated a.clientId a.msgId true).1 then effects (kv.apply (.putAppend a)) cmds
      else a :: effects (kv.apply (.putAppend a)) cmds

theorem effects_old {kv : Tables} {a : PutAppendArgs} (h : kv.Noted a.clientId a.msgId)
    (cmds : List PutAppendArgs) : effects kv (a :: cmds) = effects kv cmds := by
  rw [effects, if_pos ((kv.isRepeated_iff _ _ _).mpr h), Tables.apply_old h]

theorem effects_new {kv : Tables} {a : PutAppendArgs} (h : ¬ kv.Noted a.clientId a.msgId)
    (cmds : List PutAppendArgs) :
    effects kv (a :: cmds) = a :: effects (kv.apply (.putAppend a)) cmds := by
  rw [effects, if_neg (mt (kv.isRepeated_iff _ _ _).mp h)]

/-- **`Storage` is the plain execution of the writes that took effect.** -/
theorem foldl_storage (kv : Tables) (cmds : List PutAppendArgs) :
    ((writes cmds).foldl Tables.apply kv).storage =
      (effects kv cmds).foldl execute kv.storage := by
  induction cmds generalizing kv with
  | nil => rfl
  | cons a cmds ih =>
      have hcons : (writes (a :: cmds)).foldl Tables.apply kv =
          (writes cmds).foldl Tables.apply (kv.apply (.putAppend a)) := rfl
      by_cases hn : kv.Noted a.clientId a.msgId
      · rw [hcons, Tables.apply_old hn, effects_old hn]
        exact ih kv
      · have hs : (kv.apply (.putAppend a)).storage = execute kv.storage a := by
          rw [Tables.apply_new hn]
          exact store_storage kv a
        rw [hcons, ih, effects_new hn, List.foldl_cons, hs]

theorem not_noted_of_effects {kv : Tables} {cmds : List PutAppendArgs} {a : PutAppendArgs}
    (h : a ∈ effects kv cmds) : ¬ kv.Noted a.clientId a.msgId := by
  induction cmds generalizing kv with
  | nil => cases h
  | cons b cmds ih =>
      by_cases hn : kv.Noted b.clientId b.msgId
      · rw [effects_old hn] at h
        exact ih h
      · rw [effects_new hn] at h
        rcases List.mem_cons.mp h with rfl | h
        · exact hn
        · exact fun hold => ih h (hold.apply _)

/-- Two writes carry the same message of the same client. -/
def PutAppendArgs.same (a b : PutAppendArgs) : Bool :=
  a.clientId == b.clientId && a.msgId == b.msgId

theorem same_iff {a b : PutAppendArgs} :
    a.same b = true ↔ a.clientId = b.clientId ∧ a.msgId = b.msgId := by
  simp [PutAppendArgs.same]

/-- **No message of a client takes effect twice**, whatever the order of the messages. -/
theorem effects_once (kv : Tables) (cmds : List PutAppendArgs) :
    (effects kv cmds).Pairwise fun a b => a.same b = false := by
  induction cmds generalizing kv with
  | nil => exact .nil
  | cons a cmds ih =>
      by_cases hn : kv.Noted a.clientId a.msgId
      · rw [effects_old hn]
        exact ih kv
      · rw [effects_new hn]
        refine .cons (fun b hb => ?_) (ih _)
        -- once `a` is applied its message is noted, and what takes effect is not noted
        rw [Bool.eq_false_iff]
        intro hab
        obtain ⟨hc, hm⟩ := same_iff.mp hab
        exact not_noted_of_effects hb (hc ▸ hm ▸ kv.noted_apply_self a)

theorem effects_sublist (kv : Tables) (cmds : List PutAppendArgs) :
    (effects kv cmds).Sublist cmds := by
  induction cmds generalizing kv with
  | nil => exact .slnil
  | cons a cmds ih =>
      by_cases hn : kv.Noted a.clientId a.msgId
      · rw [effects_old hn]
        exact (ih kv).cons a
      · rw [effects_new hn]
        exact (ih _).cons_cons a

/-! ## 3. First occurrences -/

/-- **The first occurrence of every (ClientId, MsgId)**, in order. -/
def firsts : List PutAppendArgs → List PutAppendArgs
  | [] => []
  | a :: cmds => a :: (firsts cmds).filter fun b => !a.same b

/-- The messages of each client first occur in increasing order. -/
def InOrder (cmds : List PutAppendArgs) : Prop :=
  (firsts cmds).Pairwise fun a b => a.clientId = b.clientId → a.msgId < b.msgId

theorem firsts_concat (cmds : List PutAppendArgs) (a : PutAppendArgs) :
    firsts (cmds ++ [a]) =
      if cmds.any (·.same a) then firsts cmds else firsts cmds ++ [a] := by
  induction cmds with
  | nil => rfl
  | cons b cmds ih =>
      rw [List.cons_append, firsts, ih, List.any_cons]
      by_cases hb : b.same a = true
      · simp only [hb, Bool.true_or, if_true, firsts]
        split
        · rfl
        · simp [List.filter_append, hb]
      · have hb' : b.same a = false := by simpa using hb
        simp only [hb', Bool.false_or, firsts]
        split
        · rfl
        · simp [List.filter_append, hb']

theorem firsts_occurs {cmds : List PutAppendArgs} {a : PutAppendArgs} (h : a ∈ cmds) :
    ∃ b ∈ firsts cmds, b.same a = true := by
  induction cmds with
  | nil => cases h
  | cons c cmds ih =>
      by_cases hc : c.same a = true
      · exact ⟨c, List.mem_cons_self, hc⟩
      · rcases List.mem_cons.mp h with rfl | h
        · exact absurd (same_iff.mpr ⟨rfl, rfl⟩) hc
        · obtain ⟨b, hb, hba⟩ := ih h
          refine ⟨b, List.mem_cons_of_mem _ (List.mem_filter.mpr ⟨hb, ?_⟩), hba⟩
          obtain ⟨h1, h2⟩ := same_iff.mp hba
          simp only [Bool.not_eq_true', Bool.eq_false_iff]
          intro hcb
          obtain ⟨h3, h4⟩ := same_iff.mp hcb
          exact hc (same_iff.mpr ⟨h3.trans h1, h4.trans h2⟩)

theorem InOrder.init {cmds : List PutAppendArgs} {a : PutAppendArgs} (h : InOrder (cmds ++ [a])) :
    InOrder cmds := by
  unfold InOrder at h
  rw [firsts_concat] at h
  split at h
  · exact h
  · exact (List.pairwise_append.mp h).1

/-- **`isRepeated` finds exactly the later occurrences**, when messages first occur in order. -/
theorem noted_iff_occurs {cmds : List PutAppendArgs} {a : PutAppendArgs}
    (h : InOrder (cmds ++ [a])) :
    (replay (writes cmds)).Noted a.clientId a.msgId ↔ cmds.any (·.same a) = true := by
  constructor
  · rintro ⟨last, hl, hle⟩
    -- the noted message is that of a write `b` before; `b` first occurs before `a`, in order
    obtain ⟨q, b, hb, hc, hm⟩ := noted_source hl
    obtain ⟨b', hb', hbb⟩ := firsts_occurs (mem_of_writes hb.1)
    obtain ⟨hc', hm'⟩ := same_iff.mp hbb
    by_contra hno
    unfold InOrder at h
    rw [firsts_concat, if_neg hno] at h
    have hlt := (List.pairwise_append.mp h).2.2 b' hb' a (List.mem_singleton_self a)
      (hc'.trans hc)
    omega
  · intro hany
    obtain ⟨b, hb, hba⟩ := List.any_eq_true.mp hany
    obtain ⟨hc, hm⟩ := same_iff.mp hba
    obtain ⟨q, hq⟩ := List.mem_iff_getElem?.mp hb
    have hq' : (writes cmds)[q]? = some (.putAppend b) := by
      unfold writes
      rw [List.getElem?_map, hq]
      rfl
    have hlt := (List.getElem?_eq_some_iff.mp hq').1
    have hn := noted_after hq' hlt
    rw [List.take_length] at hn
    exact hc ▸ hm ▸ hn

theorem plain_concat (cmds : List PutAppendArgs) (a : PutAppendArgs) :
    plain (cmds ++ [a]) = execute (plain cmds) a := by
  simp [plain, List.foldl_append]

theorem replay_concat (cmds : List PutAppendArgs) (a : PutAppendArgs) :
    replay (writes (cmds ++ [a])) = (replay (writes cmds)).apply (.putAppend a) := by
  rw [writes_concat, replay_append]
  rfl

theorem replay_firsts {cmds : List PutAppendArgs} (h : InOrder cmds) :
    (replay (writes cmds)).storage = plain (firsts cmds) := by
  -- from the end: the last command is an occurrence of an earlier one, or a first occurrence
  induction cmds using List.reverseRecOn with
  | nil => rfl
  | append_singleton cmds a ih =>
      have hprev := ih h.init
      rw [replay_concat, firsts_concat]
      by_cases hany : cmds.any (·.same a) = true
      · rw [if_pos hany, Tables.apply_old ((noted_iff_occurs h).mpr hany)]
        exact hprev
      · rw [if_neg hany, Tables.apply_new (mt (noted_iff_occurs h).mp hany), plain_concat,
          ← hprev]
        exact store_storage _ a

/-- **Exactly once.** However often commands are repeated in the log: when the messages of each
    client first occur in increasing order, `Storage` is the plain execution of the first
    occurrence of every message; and in any order it is the plain execution of some of the
    commands, no message of a client twice among them. -/
theorem exactly_once (cmds : List PutAppendArgs) :
    (InOrder cmds → (replay (writes cmds)).storage = plain (firsts cmds)) ∧
      (replay (writes cmds)).storage = plain (effects Tables.empty cmds) ∧
      (effects Tables.empty cmds).Sublist cmds ∧
      (effects Tables.empty cmds).Pairwise fun a b => a.same b = false :=
  ⟨replay_firsts, foldl_storage _ _, effects_sublist _ _, effects_once _ _⟩

/-- Two clients append to one key; the first one's message comes again after its next one. -/
theorem exactly_once_late_copy :
    (replay (writes [⟨"k", "a", .append, 1, 1⟩, ⟨"k", "x", .append, 2, 1⟩,
      ⟨"k", "b", .append, 1, 2⟩, ⟨"k", "a", .append, 1, 1⟩])).storage =
      plain [⟨"k", "a", .append, 1, 1⟩, ⟨"k", "x", .append, 2, 1⟩, ⟨"k", "b", .append, 1, 2⟩] :=
  (exactly_once _).1 (by unfold InOrder; decide +kernel)

/-! ## 4. Replay over maps that are ahead -/

theorem foldl_old {ops part : List Op} {k : Nat}
    (h : ∀ op ∈ part, ∃ q, q < k ∧ ops[q]? = some op) :
    part.foldl Tables.apply (replay (ops.take k)) = replay (ops.take k) := by
  induction part with
  | nil => rfl
  | cons op part ih =>
      obtain ⟨q, hq, ho⟩ := h op List.mem_cons_self
      rw [List.foldl_cons, replay_apply_old ho hq]
      exact ih fun op' h' => h op' (List.mem_cons_of_mem _ h')

/-- **Replay from `j` over the maps after `k` commands**, `j ≤ k`: the commands up to `k` change
    nothing, and the rest leads where the whole sequence leads. -/
theorem replay_ahead (ops : List Op) (j k : Nat) (hjk : j ≤ k) (hk : k ≤ ops.length) :
    (ops.drop j).foldl Tables.apply (replay (ops.take k)) = replay ops := by
  have hsplit : ops.drop j = (ops.take k).drop j ++ ops.drop k := by
    conv_lhs => rw [← List.take_append_drop k ops]
    rw [List.drop_append_of_le_length]
    rw [List.length_take]
    omega
  rw [hsplit, List.foldl_append, foldl_old, ← replay_append, List.take_append_drop]
  intro op hop
  obtain ⟨q, hq⟩ := List.mem_iff_getElem?.mp (List.mem_of_mem_drop hop)
  rw [List.getElem?_take] at hq
  split at hq
  · exact ⟨q, ‹_›, hq⟩
  · cases hq

/-- Maps after three commands, labelled with the index 1. -/
theorem replay_ahead_appends :
    ([.get ⟨"k"⟩, .putAppend ⟨"k", "b", .append, 2, 1⟩, .putAppend ⟨"k", "c", .append, 1, 2⟩] :
        List Op).foldl Tables.apply
      (replay [.putAppend ⟨"k", "a", .append, 1, 1⟩, .get ⟨"k"⟩,
        .putAppend ⟨"k", "b", .append, 2, 1⟩]) =
      replay [.putAppend ⟨"k", "a", .append, 1, 1⟩, .get ⟨"k"⟩,
        .putAppend ⟨"k", "b", .append, 2, 1⟩, .putAppend ⟨"k", "c", .append, 1, 2⟩] :=
  replay_ahead [.putAppend ⟨"k", "a", .append, 1, 1⟩, .get ⟨"k"⟩,
    .putAppend ⟨"k", "b", .append, 2, 1⟩, .putAppend ⟨"k", "c", .append, 1, 2⟩] 1 3
    (by decide) (by decide)

end Mit6824.Kv
