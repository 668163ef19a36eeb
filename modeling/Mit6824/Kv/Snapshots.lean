/-
  File:      Mit6824/Kv/Snapshots.lean
  Subject:   THE SERVICE'S SNAPSHOTS (kvraft/server.go lines 130-139, 173-201): which maps a server
             can have when snapshots are saved, handed over and restored.

  Raft is one agreed sequence `ops` here. A server is delivered its commands in order; `ifSnapshot`
  saves the maps as they are under the number `kv.lastLogIndex`, which `requestRaft` sets for a
  command of its own at any time after it was applied, so the number may lag behind the maps. A
  saved snapshot may reach any server that was delivered less than its number; its data is decoded
  INTO the live maps.

  * `committed_prefix` -- if at every hand-over the snapshot has all keys and clients the live maps
    have, then every server's maps are always those after a beginning of the sequence, not shorter
    than what it was delivered;
  * `mixed_maps` -- without it a write can be noted and not stored, and is then never stored;
  * `covers_of_le` -- only a server whose maps are AHEAD of the snapshot's is in danger.
-/
import Mit6824.Lib.Runs
import Mit6824.Kv.Server

namespace Mit6824.Kv

open Lib

/-! ## 1. Servers and steps -/

/-- What `SaveSnapshot` is given. -/
structure Snapshot where
  index : Nat
  data : Tables

/-- A server: `delivered` are the indices of the commands its present instance was delivered,
    `persisted` is the snapshot in its Persister. -/
structure Node where
  kv : Tables
  lastLogIndex : Nat
  lastApplied : Nat
  delivered : List Nat
  persisted : Option Snapshot

/-- `rf.snapshot.Index`. -/
def Node.snapshotIndex (x : Node) : Nat := (x.persisted.map (·.index)).getD 0

/-- The Persister keeps the later of two snapshots. -/
def Node.keep (x : Node) (sn : Snapshot) : Option Snapshot :=
  if x.snapshotIndex < sn.index then some sn else x.persisted

structure Store (n : Nat) where
  nodes : Fin n → Node
  saved : List Snapshot

inductive Move (n : Nat) where
  /-- The next command. -/
  | deliver (v : Fin n)
  /-- Lines 132-134, for the command with this index. -/
  | setIndex (v : Fin n) (index : Nat)
  | ifSnapshot (v : Fin n)
  /-- Raft hands the snapshot over: `updateFromSnapshot`. -/
  | hand (v : Fin n) (i : Nat)
  /-- Raft takes the snapshot over and the service needs none. -/
  | install (v : Fin n) (i : Nat)
  | restart (v : Fin n)

namespace Store

variable {n : Nat}

def init (n : Nat) : Store n := ⟨fun _ => ⟨.empty, 0, 0, [], none⟩, []⟩

def setNode (s : Store n) (v : Fin n) (x : Node) : Store n :=
  { s with nodes := Function.update s.nodes v x }

def deliver (ops : List Op) (s : Store n) (v : Fin n) : Option (Store n) :=
  let x := s.nodes v
  (ops[x.lastApplied]?).map fun op => s.setNode v { x with
    kv := x.kv.apply op
    lastApplied := x.lastApplied + 1
    delivered := (x.lastApplied + 1) :: x.delivered }

def setIndex (s : Store n) (v : Fin n) (index : Nat) : Option (Store n) :=
  if index ∈ (s.nodes v).delivered then
    some (s.setNode v { s.nodes v with lastLogIndex := index })
  else none

/-- `SaveSnapshot` keeps only a later snapshot than the one it has. -/
def ifSnapshot (s : Store n) (v : Fin n) : Option (Store n) :=
  let x := s.nodes v
  if x.snapshotIndex < x.lastLogIndex then
    some { s.setNode v { x with persisted := some ⟨x.lastLogIndex, x.kv⟩ } with
           saved := s.saved ++ [⟨x.lastLogIndex, x.kv⟩] }
  else none

def hand (s : Store n) (v : Fin n) (i : Nat) : Option (Store n) :=
  let x := s.nodes v
  match s.saved[i]? with
  | none => none
  | some sn =>
      if x.lastApplied < sn.index then
        some (s.setNode v { x with
          kv := x.kv.updateFromSnapshot sn.data
          lastLogIndex := sn.index
          lastApplied := sn.index
          persisted := x.keep sn })
      else none

def install (s : Store n) (v : Fin n) (i : Nat) : Option (Store n) :=
  (s.saved[i]?).map fun sn =>
    s.setNode v { s.nodes v with persisted := (s.nodes v).keep sn }

/-- `StartKVServer` on the Persister: Raft hands over the snapshot there is before anything else. -/
def restart (s : Store n) (v : Fin n) : Store n :=
  let persisted := (s.nodes v).persisted
  s.setNode v (match persisted with
    | none => ⟨.empty, 0, 0, [], none⟩
    | some sn => ⟨Tables.empty.updateFromSnapshot sn.data, sn.index, sn.index, [], persisted⟩)

def step (ops : List Op) (s : Store n) : Move n → Option (Store n)
  | .deliver v => s.deliver ops v
  | .setIndex v index => s.setIndex v index
  | .ifSnapshot v => s.ifSnapshot v
  | .hand v i => s.hand v i
  | .install v i => s.install v i
  | .restart v => some (s.restart v)

end Store

/-! ## 2. Decoding into live maps -/

/-- Every key and every client of the live maps is also in the data. -/
structure Covers (kv data : Tables) : Prop where
  storage : ∀ key, kv.storage key ≠ none → data.storage key ≠ none
  clientMsgId : ∀ c, kv.clientMsgId c ≠ none → data.clientMsgId c ≠ none

theorem or_of_covers {α β : Type} {f g : α → Option β} (h : ∀ a, g a ≠ none → f a ≠ none) (a : α) :
    (f a).or (g a) = f a := by
  cases hf : f a with
  | some b => rfl
  | none =>
      cases hg : g a with
      | none => rfl
      | some b => exact absurd hf (h a (by rw [hg]; nofun))

/-- Then decoding leaves the data. -/
theorem Covers.update {kv data : Tables} (h : Covers kv data) : kv.updateFromSnapshot data = data :=
  Tables.ext (funext (or_of_covers h.storage)) (funext (or_of_covers h.clientMsgId))

theorem covers_empty (data : Tables) : Covers .empty data :=
  ⟨fun _ h => absurd rfl h, fun _ h => absurd rfl h⟩

/-- **Maps that are not ahead of the snapshot's are covered by it.** -/
theorem covers_of_le {ops : List Op} {k l : Nat} (h : k ≤ l) :
    Covers (replay (ops.take k)) (replay (ops.take l)) :=
  ⟨(replay_grows (List.take_prefix_take_left h)).1, (replay_grows (List.take_prefix_take_left h)).2⟩

/-! ## 3. Every server has the maps after a beginning of the sequence -/

/-- The maps after a beginning of `ops`, of length `index` or more. -/
def After (ops : List Op) (index : Nat) (kv : Tables) : Prop :=
  ∃ k, index ≤ k ∧ k ≤ ops.length ∧ kv = replay (ops.take k)

theorem After.le {ops : List Op} {i j : Nat} {kv : Tables} (h : After ops j kv) (hij : i ≤ j) :
    After ops i kv := by
  obtain ⟨k, hk, hrest⟩ := h
  exact ⟨k, Nat.le_trans hij hk, hrest⟩

/-- **The next command**: maps that are ahead have seen it, the others take it. -/
theorem After.apply {ops : List Op} {i : Nat} {kv : Tables} (h : After ops i kv) {op : Op}
    (hop : ops[i]? = some op) : After ops (i + 1) (kv.apply op) := by
  obtain ⟨k, hk, hlen, rfl⟩ := h
  rcases Nat.lt_or_ge i k with hlt | hge
  · rw [replay_apply_old hop hlt]
    exact ⟨k, hlt, hlen, rfl⟩
  · have hik : i = k := by omega
    subst hik
    exact ⟨i + 1, Nat.le_refl _, (List.getElem?_eq_some_iff.mp hop).1, (replay_take_succ hop).symm⟩

structure NodeOk (ops : List Op) (x : Node) : Prop where
  maps : After ops x.lastApplied x.kv
  label : x.lastLogIndex ≤ x.lastApplied
  own : ∀ i ∈ x.delivered, i ≤ x.lastApplied
  disk : ∀ sn, x.persisted = some sn → After ops sn.index sn.data

structure StoreOk {n : Nat} (ops : List Op) (s : Store n) : Prop where
  node : ∀ v, NodeOk ops (s.nodes v)
  saved : ∀ sn ∈ s.saved, After ops sn.index sn.data

theorem nodeOk_fresh (ops : List Op) : NodeOk ops ⟨.empty, 0, 0, [], none⟩ :=
  ⟨⟨0, Nat.le_refl _, Nat.zero_le _, rfl⟩, Nat.le_refl _, nofun, nofun⟩

theorem StoreOk.setNode {n : Nat} {ops : List Op} {s : Store n} (h : StoreOk ops s) {v : Fin n}
    {x : Node} (hx : NodeOk ops x) :
    StoreOk ops (s.setNode v x) := by
  refine ⟨fun w => ?_, h.saved⟩
  by_cases hw : w = v
  · subst hw
    rw [show (s.setNode w x).nodes w = x from Function.update_self _ _ _]
    exact hx
  · rw [show (s.setNode v x).nodes w = s.nodes w from Function.update_of_ne hw _ _]
    exact h.node w

theorem NodeOk.keep {ops : List Op} {x : Node} (h : NodeOk ops x) {sn : Snapshot}
    (hsn : After ops sn.index sn.data) :
    ∀ sn', x.keep sn = some sn' → After ops sn'.index sn'.data := by
  intro sn' hk
  unfold Node.keep at hk
  split at hk
  · cases hk
    exact hsn
  · exact h.disk sn' hk

namespace Store

variable {n : Nat} {ops : List Op} {s s' : Store n}

/-- **Every snapshot that is handed over covers the live maps.** -/
def HandsCovered (s : Store n) : Move n → Prop
  | .hand v i => ∀ sn, s.saved[i]? = some sn → Covers (s.nodes v).kv sn.data
  | _ => True

theorem storeOk_step {a : Move n} (h : s.step ops a = some s') (hg : HandsCovered s a)
    (hI : StoreOk ops s) : StoreOk ops s' := by
  cases a with
  | deliver v =>
      obtain ⟨op, hop, rfl⟩ := Option.map_eq_some_iff.mp h
      have hx := hI.node v
      refine hI.setNode ⟨hx.maps.apply hop, Nat.le_succ_of_le hx.label, fun i hi => ?_, hx.disk⟩
      rcases List.mem_cons.mp hi with rfl | hi
      · exact Nat.le_refl _
      · exact Nat.le_succ_of_le (hx.own i hi)
  | setIndex v index =>
      simp only [step, setIndex] at h
      split at h
      · rename_i hmem
        cases Option.some.inj h
        have hx := hI.node v
        exact hI.setNode ⟨hx.maps, hx.own index hmem, hx.own, hx.disk⟩
      · cases h
  | ifSnapshot v =>
      simp only [step, ifSnapshot] at h
      split at h
      · cases Option.some.inj h
        have hx := hI.node v
        -- the maps are at least as far as the number they are saved under
        have hsn : After ops (s.nodes v).lastLogIndex (s.nodes v).kv := hx.maps.le hx.label
        have hI' : StoreOk ops (s.setNode v { s.nodes v with
            persisted := some ⟨(s.nodes v).lastLogIndex, (s.nodes v).kv⟩ }) := by
          refine hI.setNode ⟨hx.maps, hx.label, hx.own, fun sn hsn' => ?_⟩
          cases hsn'
          exact hsn
        refine ⟨hI'.node, fun sn hmem => ?_⟩
        rcases List.mem_append.mp hmem with hmem | hmem
        · exact hI.saved sn hmem
        · rw [List.mem_singleton.mp hmem]
          exact hsn
      · cases h
  | hand v i =>
      simp only [step, hand] at h
      split at h
      · cases h
      · rename_i sn hsn
        split at h
        · rename_i hlt
          cases Option.some.inj h
          have hx := hI.node v
          have hok := hI.saved sn (List.mem_of_getElem? hsn)
          refine hI.setNode ⟨?_, Nat.le_refl _, fun i hi => ?_, hx.keep hok⟩
          · show After ops sn.index ((s.nodes v).kv.updateFromSnapshot sn.data)
            rw [(hg sn hsn).update]
            exact hok
          · have := hx.own i hi
            show i ≤ sn.index
            omega
        · cases h
  | install v i =>
      obtain ⟨sn, hsn, rfl⟩ := Option.map_eq_some_iff.mp h
      have hx := hI.node v
      exact hI.setNode ⟨hx.maps, hx.label, hx.own,
        hx.keep (hI.saved sn (List.mem_of_getElem? hsn))⟩
  | restart v =>
      cases Option.some.inj h
      refine hI.setNode ?_
      cases hp : (s.nodes v).persisted with
      | none => exact nodeOk_fresh ops
      | some sn =>
          have hok := (hI.node v).disk sn hp
          refine ⟨?_, Nat.le_refl _, nofun, fun sn' hsn' => ?_⟩
          · show After ops sn.index (Tables.empty.updateFromSnapshot sn.data)
            rw [(covers_empty sn.data).update]
            exact hok
          · cases hsn'
            exact hok

/-- **The maps of a server are those after a beginning of the sequence**, at least as long as what
    it was delivered. -/
theorem committed_prefix (h : Reach (step ops) HandsCovered (init n) s) (v : Fin n) :
    ∃ k, (s.nodes v).lastApplied ≤ k ∧ k ≤ ops.length ∧ (s.nodes v).kv = replay (ops.take k) := by
  have hI : StoreOk ops s := Reach.inv ⟨fun _ => nodeOk_fresh ops, nofun⟩
    (fun _ _ _ hI hg hs => storeOk_step hs hg hI) h
  exact (hI.node v).maps

/-- Client 1 puts two keys, client 2 overwrites the first. -/
def threePuts : List Op :=
  [.putAppend ⟨"x", "a", .put, 1, 1⟩, .putAppend ⟨"y", "b", .put, 1, 2⟩,
    .putAppend ⟨"x", "c", .put, 2, 1⟩]

/-- Server 0 saves the maps after two commands under number 2, and server 1, which was delivered
    nothing, is handed them. -/
theorem committed_prefix_handed : ∃ s : Store 2,
    Reach (step threePuts) HandsCovered (init 2) s ∧ (s.nodes 1).lastApplied = 2 ∧
    ∃ k, 2 ≤ k ∧ k ≤ 3 ∧ (s.nodes 1).kv = replay (threePuts.take k) := by
  have h : Reach (step threePuts) HandsCovered (init 2) _ :=
    .move _ _ (.hand 1 0) (.move _ _ (.ifSnapshot 0) (.move _ _ (.setIndex 0 2)
      (.move _ _ (.deliver 0) (.move _ _ (.deliver 0) .start trivial rfl) trivial rfl)
      trivial rfl) trivial rfl) (fun sn _ => covers_empty sn.data) rfl
  exact ⟨_, h, rfl, committed_prefix h 1⟩

/-- **A hand-over that does not cover the live maps mixes them.** Server 0 applies all three
    commands and saves its maps under number 1, server 1 saves those after two under number 2;
    server 0 crashes, has its own snapshot again, and is handed that of server 1. -/
theorem mixed_maps : ∃ s : Store 2, Reach (step threePuts) AnyStep (init 2) s ∧
    (s.nodes 0).lastApplied = 3 ∧ ∀ k, (s.nodes 0).kv ≠ replay (threePuts.take k) := by
  have run : (exec (step threePuts) (fun _ _ => true) (init 2)
      [.deliver 0, .deliver 0, .deliver 0, .setIndex 0 1, .ifSnapshot 0, .deliver 1, .deliver 1,
        .setIndex 1 2, .ifSnapshot 1, .restart 0, .hand 0 1, .deliver 0]).any (fun s =>
        decide ((s.nodes 0).lastApplied = 3 ∧ (s.nodes 0).kv.clientMsgId 2 = some 1 ∧
          (s.nodes 0).kv.storage "x" = some "a")) = true := by decide +kernel
  obtain ⟨s, hr, run⟩ := exists_of_run run
  obtain ⟨hla, hid, hx⟩ := of_decide_eq_true run
  refine ⟨s, hr, hla, fun k hk => ?_⟩
  rw [hk] at hid hx
  -- before the third command client 2 is not noted, and after it "x" is "c"
  have hshort : ∀ k < 3, (replay (threePuts.take k)).clientMsgId 2 ≠ some 1 := by decide +kernel
  rcases Nat.lt_or_ge k 3 with hlt | hge
  · exact hshort k hlt hid
  · rw [List.take_of_length_le hge] at hx
    exact absurd hx (by decide +kernel)

end Store

end Mit6824.Kv
