/-
  File:      Mit6824/Mr/Output.lean
  Subject:   WHAT A JOB WRITES (mr/worker.go lines 37-160, main/mrsequential.go lines 38-84): the
             lines of `mr-out-0`, `mr-out-1`, ... are those of the sequential program.

  A map task writes its records into one file per reduce task, chosen by `ihash`; a reduce task
  reads one file per map task in the order of `ValidTask`, groups the records in a Go map and
  writes the keys in whatever order `range` has. The sequential program appends everything,
  sorts by key and goes through runs of equal keys with two indices.

  JSON gives back the records it was given, so a file is a list of records; input files are there
  and readable; a file written and renamed under its final name is there whole. A line is what
  one `Fprintf` writes. Keys are compared as strings.

  * `mapTask`, `reduceTask` -- the worker; `sequential` -- the sequential program;
  * `mapTasks_file` -- what `mr-t-r` holds after the map tasks;
  * `output_eq_sequential` -- **the same lines, each as often**.
-/
import Mathlib.Data.String.Basic
import Mit6824.Lib.Grouping
import Mit6824.Mr.Master

namespace Mit6824.Mr

open Lib

/-! ## 1. The worker -/

structure KeyValue where
  key : String
  value : String
  deriving DecidableEq, Repr

/-- FNV-1a with 32 bits, without the sign bit of an `int32`. -/
def ihash (key : String) : Nat :=
  ((key.toUTF8.data.foldl (fun h b => (h ^^^ b.toUInt32) * 16777619) (2166136261 : UInt32)) &&&
    0x7fffffff).toNat

/-- The intermediate files, by name. -/
abbrev Files := String → Option (List KeyValue)

/-- Line 94: a record goes to the file of its reduce task. -/
def emit (nReduce : Nat) (intermediate : Nat → List KeyValue) (kv : KeyValue) :
    Nat → List KeyValue :=
  Function.update intermediate (ihash kv.key % nReduce)
    (intermediate (ihash kv.key % nReduce) ++ [kv])

/-- The name a map task gives the file for the reduce task `i`. -/
def mrName (taskNum i : Nat) : String := "mr-" ++ toString taskNum ++ "-" ++ toString i

section Worker

variable (mapf : String → String → List KeyValue) (content : String → String)

/-- Lines 80-101: the records of the files of a task, bucket by bucket. -/
def mapRecords (nReduce : Nat) (file : List String) : Nat → List KeyValue :=
  file.foldl
    (fun intermediate filename => (mapf filename (content filename)).foldl (emit nReduce)
      intermediate)
    fun _ => []

/-- A map task: lines 73-109. At the end every file gets its final name. -/
def mapTask (fs : Files) (taskNum nReduce : Nat) (file : List String) : Files :=
  (List.range nReduce).foldl
    (fun fs i => Function.update fs (mrName taskNum i) (some (mapRecords mapf content nReduce file i)))
    fs

end Worker

/-- Lines 121-137: the records of all files that are there, grouped in a map. -/
def readFiles (fs : Files) (file : List String) : AList fun _ : String => List String :=
  file.foldl
    (fun kva filename => ((fs filename).getD []).foldl (collect KeyValue.key KeyValue.value) kva) ∅

/-- `fmt.Fprintf(file, "%v %v\\n", key, output)`. -/
def line (key output : String) : String := key ++ " " ++ output ++ "\n"

/-- A reduce task may write these lines: one for each key of the map, in any order. -/
def ReduceTask (reducef : String → List String → String) (fs : Files) (file : List String)
    (out : List String) : Prop :=
  out.Perm ((entriesOf (readFiles fs file)).map fun x => line x.1 (reducef x.1 x.2))

/-! ## 2. The sequential program -/

/-- Lines 38-51. -/
def intermediate (mapf : String → String → List KeyValue) (content : String → String)
    (files : List String) : List KeyValue :=
  files.foldl (fun kva filename => kva ++ mapf filename (content filename)) []

/-- Lines 71-73: the first `j` from here on whose key is another one. -/
def runEnd (a : List KeyValue) (key : String) (j : Nat) : Nat :=
  if h : j < a.length then
    if a[j].key = key then runEnd a key (j + 1) else j
  else j
termination_by a.length - j

theorem le_runEnd (a : List KeyValue) (key : String) (j : Nat) : j ≤ runEnd a key j := by
  induction j using runEnd.induct a key with
  | case1 j h hk ih =>
      rw [runEnd, dif_pos h, if_pos hk]
      omega
  | case2 j h hk => rw [runEnd, dif_pos h, if_neg hk]
  | case3 j h => rw [runEnd, dif_neg h]

/-- Lines 68-84 from the index `i` on. -/
def sequentialFrom (reducef : String → List String → String) (a : List KeyValue) (i : Nat) :
    List String :=
  if h : i < a.length then
    let j := runEnd a a[i].key (i + 1)
    let values := ((a.take j).drop i).map KeyValue.value
    line a[i].key (reducef a[i].key values) :: sequentialFrom reducef a j
  else []
termination_by a.length - i
decreasing_by
  have := le_runEnd a a[i].key (i + 1)
  omega

def sequential (reducef : String → List String → String) (a : List KeyValue) : List String :=
  sequentialFrom reducef a 0

/-! ## 3. The sequential program groups -/

/-- Up to `runEnd` every key is the same; there the list ends or another key begins. -/
theorem runEnd_spec (a : List KeyValue) (key : String) (j : Nat) :
    (∀ k x, j ≤ k → k < runEnd a key j → a[k]? = some x → x.key = key) ∧
      ∀ x, a[runEnd a key j]? = some x → x.key ≠ key := by
  induction j using runEnd.induct a key with
  | case1 j h hk ih =>
      rw [runEnd, dif_pos h, if_pos hk]
      refine ⟨fun k x hjk hlt hx => ?_, ih.2⟩
      by_cases e : k = j
      · subst e
        rw [List.getElem?_eq_getElem h] at hx
        rw [← Option.some.inj hx]
        exact hk
      · exact ih.1 k x (by omega) hlt hx
  | case2 j h hk =>
      rw [runEnd, dif_pos h, if_neg hk]
      refine ⟨fun k x hjk hlt _ => by omega, fun x hx => ?_⟩
      rw [List.getElem?_eq_getElem h] at hx
      rw [← Option.some.inj hx]
      exact hk
  | case3 j h =>
      rw [runEnd, dif_neg h]
      refine ⟨fun k x hjk hlt _ => by omega, fun x hx => ?_⟩
      exact absurd (List.getElem?_eq_some_iff.mp hx).1 h

theorem runEnd_le {a : List KeyValue} {key : String} {j : Nat} (hj : j ≤ a.length) :
    runEnd a key j ≤ a.length := by
  induction j using runEnd.induct a key with
  | case1 j h hk ih =>
      rw [runEnd, dif_pos h, if_pos hk]
      exact ih h
  | case2 j h hk =>
      rw [runEnd, dif_pos h, if_neg hk]
      exact hj
  | case3 j h =>
      rw [runEnd, dif_neg h]
      exact hj

theorem pairwise_get {a : List KeyValue} (hs : a.Pairwise fun x y => x.key ≤ y.key) {i j : Nat}
    {x y : KeyValue} (hi : a[i]? = some x) (hj : a[j]? = some y) (hij : i ≤ j) :
    x.key ≤ y.key := by
  rcases Nat.lt_or_ge i j with h | h
  · obtain ⟨hi', rfl⟩ := List.getElem?_eq_some_iff.mp hi
    obtain ⟨hj', rfl⟩ := List.getElem?_eq_some_iff.mp hj
    exact List.pairwise_iff_getElem.mp hs i j hi' hj' h
  · have e : i = j := by omega
    rw [e, hj] at hi
    exact le_of_eq (congrArg KeyValue.key (Option.some.inj hi).symm)

/-- **The runs of a sorted list are a grouping** of it. -/
theorem sequentialFrom_groups (reducef : String → List String → String) {a : List KeyValue}
    (hs : a.Pairwise fun x y => x.key ≤ y.key) (i : Nat) :
    ∃ g, Groups KeyValue.key KeyValue.value (a.drop i) g ∧
      sequentialFrom reducef a i = g.map fun x => line x.1 (reducef x.1 x.2) := by
  induction i using sequentialFrom.induct a with
  | case1 i h j ih =>
      obtain ⟨g, hg, e⟩ := ih
      have hij : i + 1 ≤ j := le_runEnd a a[i].key (i + 1)
      have hj : j ≤ a.length := runEnd_le h
      obtain ⟨hin, hout⟩ := runEnd_spec a a[i].key (i + 1)
      have hi : a[i]? = some a[i] := List.getElem?_eq_getElem h
      refine ⟨(a[i].key, ((a.take j).drop i).map KeyValue.value) :: g, ?_, ?_⟩
      · have hsplit : a.drop i = (a.take j).drop i ++ a.drop j := by
          conv_lhs => rw [← List.take_append_drop j a]
          rw [List.drop_append_of_le_length]
          rw [List.length_take]
          omega
        rw [hsplit]
        refine groups_run ?_ ?_ ?_ hg
        · refine List.ne_nil_of_length_pos ?_
          rw [List.length_drop, List.length_take]
          omega
        · -- in the run: the first record, or one the inner loop has passed
          intro x hx
          obtain ⟨k, hk⟩ := List.mem_iff_getElem?.mp hx
          rw [List.getElem?_drop, List.getElem?_take] at hk
          split at hk
          · rename_i hlt
            rcases Nat.eq_zero_or_pos k with rfl | hpos
            · rw [Nat.add_zero, hi] at hk
              rw [← Option.some.inj hk]
            · exact hin (i + k) x (by omega) hlt hk
          · cases hk
        · -- behind it the key cannot come again: it would have to be sorted before `a[j]`
          intro x hx e
          obtain ⟨k, hk⟩ := List.mem_iff_getElem?.mp hx
          rw [List.getElem?_drop] at hk
          have hjl : j < a.length := by
            have := (List.getElem?_eq_some_iff.mp hk).1
            omega
          have hjx : a[j]? = some a[j] := List.getElem?_eq_getElem hjl
          have h1 := pairwise_get hs hi hjx (by omega)
          have h2 := pairwise_get hs hjx hk (by omega)
          rw [e] at h2
          exact hout a[j] hjx (le_antisymm h2 h1)
      · rw [sequentialFrom, dif_pos h, List.map_cons, ← e]
  | case2 i h =>
      refine ⟨[], ?_, ?_⟩
      · rw [List.drop_eq_nil_of_le (by omega)]
        exact groups_nil
      · rw [sequentialFrom, dif_neg h]
        rfl

/-! ## 4. The files between the phases -/

theorem foldl_emit (nReduce : Nat) (b : Nat → List KeyValue) (kvs : List KeyValue) (r : Nat) :
    kvs.foldl (emit nReduce) b r = b r ++ kvs.filter fun kv => ihash kv.key % nReduce = r := by
  induction kvs generalizing b with
  | nil => simp
  | cons kv kvs ih =>
      rw [List.foldl_cons, ih, emit]
      by_cases h : ihash kv.key % nReduce = r
      · subst h
        simp
      · rw [Function.update_of_ne (fun e => h e.symm)]
        simp [h]

/-- Bucket `r` of a map task holds the records whose key belongs to the reduce task `r`. -/
theorem mapRecords_one (mapf : String → String → List KeyValue) (content : String → String)
    (nReduce : Nat) (filename : String) (r : Nat) :
    mapRecords mapf content nReduce [filename] r =
      (mapf filename (content filename)).filter fun kv => ihash kv.key % nReduce = r := by
  show (mapf filename (content filename)).foldl (emit nReduce) (fun _ => []) r = _
  rw [foldl_emit]
  rfl

theorem digits_no_dash (n : Nat) : '-' ∉ (toString n).toList := by
  intro h
  rw [Nat.toString_eq_repr, Nat.toList_repr] at h
  have := Nat.isDigit_of_mem_toDigits (by decide) (by decide) h
  revert this
  decide

theorem digits_inj {n m : Nat} (h : (toString n).toList = (toString m).toList) : n = m := by
  rw [Nat.toString_eq_repr, Nat.toString_eq_repr, Nat.toList_repr, Nat.toList_repr] at h
  have := congrArg (fun ds => Nat.ofDigitChars 10 ds 0) h
  simpa using this

/-- Different tasks and buckets have different names. -/
theorem mrName_inj {t i t' i' : Nat} (h : mrName t i = mrName t' i') : t = t' ∧ i = i' := by
  have hl := congrArg String.toList h
  simp only [mrName, String.toList_append, List.append_assoc] at hl
  have hl := List.append_cancel_left hl
  have split : ∀ n m : Nat, ((toString n).toList ++ ("-".toList ++ (toString m).toList)).takeWhile
      (· != '-') = (toString n).toList := by
    intro n m
    rw [List.takeWhile_append_of_pos]
    · simp
    · intro c hc
      have : c ≠ '-' := fun e => digits_no_dash n (e ▸ hc)
      simpa using this
  have ht : (toString t).toList = (toString t').toList := by
    rw [← split t i, hl, split t' i']
  have ht' : t = t' := digits_inj ht
  subst ht'
  have hi := List.append_cancel_left (List.append_cancel_left hl)
  exact ⟨rfl, digits_inj hi⟩

/-- Writing a file for each number, under names that differ. -/
theorem foldl_write {names : Nat → String} {data : Nat → List KeyValue}
    (hinj : ∀ i j, names i = names j → i = j) {l : List Nat} (hl : l.Nodup) (fs : Files) :
    (∀ i ∈ l, l.foldl (fun fs i => Function.update fs (names i) (some (data i))) fs (names i) =
        some (data i)) ∧
      ∀ name, (∀ i ∈ l, name ≠ names i) →
        l.foldl (fun fs i => Function.update fs (names i) (some (data i))) fs name = fs name := by
  induction l generalizing fs with
  | nil => exact ⟨nofun, fun _ _ => rfl⟩
  | cons j l ih =>
      obtain ⟨hj, hl⟩ := List.nodup_cons.mp hl
      obtain ⟨ih1, ih2⟩ := ih hl (Function.update fs (names j) (some (data j)))
      refine ⟨fun i hi => ?_, fun name hn => ?_⟩
      · rcases List.mem_cons.mp hi with rfl | hi
        · have hother : ∀ k ∈ l, names i ≠ names k := fun k hk e => hj (by rwa [hinj i k e])
          rw [List.foldl_cons, ih2 _ hother, Function.update_self]
        · exact ih1 i hi
      · rw [List.foldl_cons, ih2 name fun k hk => hn k (List.mem_cons_of_mem _ hk),
          Function.update_of_ne (hn j List.mem_cons_self)]

section Between

variable (mapf : String → String → List KeyValue) (content : String → String)

/-- Map tasks, each with its number and its file, run one after the other. -/
def mapTasks (nReduce : Nat) (fs : Files) (tasks : List (Nat × String)) : Files :=
  tasks.foldl (fun fs x => mapTask mapf content fs x.1 nReduce [x.2]) fs

theorem mapTask_file (fs : Files) (t : Nat) (file : List String) {nReduce r : Nat}
    (hr : r < nReduce) :
    mapTask mapf content fs t nReduce file (mrName t r) =
      some (mapRecords mapf content nReduce file r) :=
  (foldl_write (fun _ _ e => (mrName_inj e).2) List.nodup_range fs).1 r (List.mem_range.mpr hr)

theorem mapTask_other (fs : Files) {t t' : Nat} (ht : t' ≠ t) (file : List String)
    (nReduce r : Nat) :
    mapTask mapf content fs t nReduce file (mrName t' r) = fs (mrName t' r) :=
  (foldl_write (fun _ _ e => (mrName_inj e).2) List.nodup_range fs).2 _
    fun _ _ e => ht (mrName_inj e).1

theorem mapTasks_other (nReduce : Nat) (fs : Files) {tasks : List (Nat × String)} {t : Nat}
    (ht : t ∉ tasks.map Prod.fst) (r : Nat) :
    mapTasks mapf content nReduce fs tasks (mrName t r) = fs (mrName t r) := by
  induction tasks generalizing fs with
  | nil => rfl
  | cons x tasks ih =>
      rw [List.map_cons, List.mem_cons, not_or] at ht
      exact (ih _ ht.2).trans (mapTask_other mapf content fs ht.1 _ _ _)

/-- **What `mr-t-r` holds after the map tasks**, whatever was there before. -/
theorem mapTasks_file {nReduce : Nat} (fs : Files) {tasks : List (Nat × String)}
    (hnum : (tasks.map Prod.fst).Nodup) {x : Nat × String} (hx : x ∈ tasks) {r : Nat}
    (hr : r < nReduce) :
    mapTasks mapf content nReduce fs tasks (mrName x.1 r) =
      some ((mapf x.2 (content x.2)).filter fun kv => ihash kv.key % nReduce = r) := by
  induction tasks generalizing fs with
  | nil => cases hx
  | cons y tasks ih =>
      obtain ⟨hy, hnum⟩ := List.nodup_cons.mp hnum
      rcases List.mem_cons.mp hx with rfl | hx
      · have hlast := mapTasks_other mapf content nReduce
          (mapTask mapf content fs x.1 nReduce [x.2]) hy r
        exact hlast.trans ((mapTask_file mapf content fs x.1 [x.2] hr).trans
          (congrArg some (mapRecords_one mapf content nReduce x.2 r)))
      · exact ih _ hnum hx

/-- The names of the files of the reduce task `r`, as the master sends them. -/
def reduceFiles (validTask : List Nat) (r : Nat) : List String :=
  validTask.map fun t => (Master.reduceFile t r).name

theorem readFiles_collected (fs : Files) (file : List String) :
    Collected KeyValue.key KeyValue.value (file.flatMap fun name => (fs name).getD [])
      (readFiles fs file) := by
  have from_ : ∀ (l : List KeyValue) (m : AList fun _ : String => List String),
      Collected KeyValue.key KeyValue.value l m →
      Collected KeyValue.key KeyValue.value (l ++ file.flatMap fun name => (fs name).getD [])
        (file.foldl (fun kva filename =>
          ((fs filename).getD []).foldl (collect KeyValue.key KeyValue.value) kva) m) := by
    induction file with
    | nil =>
        intro l m h
        simpa using h
    | cons name file ih =>
        intro l m h
        have := ih _ _ (collected_foldl h ((fs name).getD []))
        rwa [List.append_assoc] at this
  exact from_ [] ∅ collected_empty

/-- **The reduce task `r` groups the records that belong to it**, of all map tasks. -/
theorem readFiles_groups {nReduce : Nat} (fs : Files) {tasks : List (Nat × String)}
    (hnum : (tasks.map Prod.fst).Nodup) {validTask : List Nat}
    (hvalid : validTask.Perm (tasks.map Prod.fst)) {r : Nat} (hr : r < nReduce) :
    Groups KeyValue.key KeyValue.value
      ((tasks.flatMap fun x => mapf x.2 (content x.2)).filter fun kv => ihash kv.key % nReduce = r)
      (entriesOf (readFiles (mapTasks mapf content nReduce fs tasks)
        (reduceFiles validTask r))) := by
  refine (groups_collect (readFiles_collected _ _)).perm ?_
  rw [reduceFiles, List.flatMap_map]
  refine (hvalid.flatMap_right _).trans ?_
  rw [List.flatMap_map, List.filter_flatMap]
  refine List.Perm.of_eq (List.flatMap_congr fun x hx => ?_)
  show (mapTasks mapf content nReduce fs tasks (mrName x.1 r)).getD [] = _
  rw [mapTasks_file mapf content fs hnum hx hr]
  rfl

end Between

/-! ## 5. The same lines -/

theorem intermediate_eq (mapf : String → String → List KeyValue) (content : String → String)
    (files : List String) :
    intermediate mapf content files = files.flatMap fun f => mapf f (content f) := by
  unfold intermediate
  rw [List.flatMap_eq_foldl]

/-- **Distributed output equals sequential output.** Whatever numbers the map tasks have, in
    whatever order they stand in `ValidTask`, in whatever order a reduce task goes through its
    keys, and in whatever order the sequential program is given the files and sorts the records:
    the lines of all `mr-out-r` together are those of the sequential program, each as often. -/
theorem output_eq_sequential (mapf : String → String → List KeyValue)
    (reducef : String → List String → String)
    (hreduce : ∀ key vs vs', vs.Perm vs' → reducef key vs = reducef key vs')
    (content : String → String) (nReduce : Nat) (hn : 0 < nReduce) (fs : Files)
    (tasks : List (Nat × String)) (hnum : (tasks.map Prod.fst).Nodup)
    (validTask : List Nat) (hvalid : validTask.Perm (tasks.map Prod.fst))
    (out : Nat → List String)
    (hout : ∀ r < nReduce, ReduceTask reducef (mapTasks mapf content nReduce fs tasks)
      (reduceFiles validTask r) (out r))
    (files : List String) (hfiles : files.Perm (tasks.map Prod.snd))
    (sorted : List KeyValue) (hperm : sorted.Perm (intermediate mapf content files))
    (hsorted : sorted.Pairwise fun x y => x.key ≤ y.key) :
    ((List.range nReduce).flatMap out).Perm (sequential reducef sorted) := by
  have hlines : ∀ key vs vs', vs.Perm vs' →
      line key (reducef key vs) = line key (reducef key vs') :=
    fun key vs vs' h => by rw [hreduce key vs vs' h]
  -- the distributed side: the groupings of the reduce tasks are one grouping together
  have hdist := groups_flatMap (fun key => ihash key % nReduce)
    (fun key => Nat.mod_lt _ hn)
    fun r hr => readFiles_groups mapf content fs hnum hvalid (r := r) hr
  -- the sequential side: the runs are a grouping of the same records
  obtain ⟨g, hg, e⟩ := sequentialFrom_groups reducef hsorted 0
  rw [List.drop_zero] at hg
  have hsame : (tasks.flatMap fun x => mapf x.2 (content x.2)).Perm sorted := by
    refine List.Perm.trans ?_ hperm.symm
    rw [intermediate_eq]
    refine List.Perm.trans (List.Perm.of_eq ?_) (hfiles.symm.flatMap_right _)
    rw [List.flatMap_map]
  have hout' : ((List.range nReduce).flatMap out).Perm ((List.range nReduce).flatMap fun r =>
      (entriesOf (readFiles (mapTasks mapf content nReduce fs tasks)
        (reduceFiles validTask r))).map fun x => line x.1 (reducef x.1 x.2)) :=
    List.Perm.flatMap_left _ fun r hr => hout r (List.mem_range.mp hr)
  rw [← List.map_flatMap] at hout'
  rw [sequential, e]
  exact hout'.trans (hdist.perm_map hg hsame hlines)

/-- Two files with the same word, counted by three reduce tasks. -/
theorem output_eq_sequential_count :
    ((List.range 3).flatMap fun r =>
      (entriesOf (readFiles
        (mapTasks (fun f c => [⟨c, f⟩]) (fun _ => "x") 3 (fun _ => none) [(4, "f"), (1, "g")])
        (reduceFiles [1, 4] r))).map fun x => line x.1 (toString x.2.length)).Perm
      [line "x" (toString 2)] := by
  have h := output_eq_sequential (fun f c => [⟨c, f⟩]) (fun _ vs => toString vs.length)
    (fun _ _ _ h => by rw [h.length_eq]) (fun _ => "x") 3 (by decide) (fun _ => none)
    [(4, "f"), (1, "g")] (by decide) [1, 4] (List.Perm.swap 4 1 []) _
    (fun _ _ => List.Perm.refl _) ["f", "g"] (List.Perm.refl _) [⟨"x", "f"⟩, ⟨"x", "g"⟩]
    (List.Perm.refl _) (by simp)
  have e : sequential (fun _ vs => toString vs.length) [⟨"x", "f"⟩, ⟨"x", "g"⟩] =
      [line "x" (toString 2)] := by
    simp [sequential, sequentialFrom, runEnd]
  rwa [e] at h

end Mit6824.Mr
