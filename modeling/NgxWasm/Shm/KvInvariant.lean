import NgxWasm.Shm.Kv
import NgxWasm.Lib.Run
import Mathlib.Data.List.Flatten
import Mathlib.Data.List.Nodup

/-!
# Representation invariant of the key/value store

`Consistent` ties tree, queues, blocks and counter together. It survives every
get and every set except one: a growing overwrite whose allocation retries
evict the very node it is about to replace. `OldSurvives` excludes that case in
terms of the state before the call and of the allocator's answers.
-/

namespace NgxWasm.Shm.KvInvariant
open NgxWasm.Lib SearchTree NgxWasm.Shm.Kv

/-! ### The invariant -/

def frees (log : List Event) : List ℕ :=
  log.filterMap fun
    | .free n => some n
    | _ => none

def treeDeletes (log : List Event) : List ℕ :=
  log.filterMap fun
    | .treeDelete n => some n
    | _ => none

/-- The nodes of the tree are the nodes of the queues, each linked in one queue
once; they are allocated; no block is freed and no node unlinked twice; `nelts`
counts them. -/
structure Consistent (s : KvStore) : Prop where
  linked : s.queues.flatten.Perm s.tree.toList
  once : s.queues.flatten.Nodup
  allocated : ∀ n ∈ s.tree.toList, n < s.next ∧ n ∉ frees s.log
  freedOnce : (frees s.log).Nodup
  unlinkedOnce : (treeDeletes s.log).Nodup
  counted : s.nelts = s.tree.toList.length

/-- What a call keeps, for every eviction policy. `k` nodes are counted that
are not linked any more, or not yet. -/
structure Sound (zone : Zone) (k : ℕ) (s : KvStore) : Prop where
  linked : hasQueues zone = true → s.queues.flatten.Perm s.tree.toList
  queueCount : s.queues.length = nqueues zone
  ordered : Ordered (fun n => (s.node n).hash) s.tree
  distinct : (s.tree.toList.map fun n => (s.node n).hash).Nodup
  hashed : ∀ n ∈ s.tree.toList, (s.node n).hash = crc32 (s.node n).key
  live : ∀ n ∈ s.tree.toList, n < s.next
  freed : ∀ n ∈ frees s.log, n < s.next ∧ n ∉ s.tree.toList
  unlinked : ∀ n ∈ treeDeletes s.log, n < s.next ∧ n ∉ s.tree.toList
  freedOnce : (frees s.log).Nodup
  unlinkedOnce : (treeDeletes s.log).Nodup
  counted : s.nelts = s.tree.toList.length + k

theorem Sound.once {zone : Zone} {k : ℕ} {s : KvStore} (h : Sound zone k s) :
    s.tree.toList.Nodup := List.Nodup.of_map _ h.distinct

theorem Sound.consistent {zone : Zone} {s : KvStore} (h : Sound zone 0 s)
    (hq : hasQueues zone = true) : Consistent s where
  linked := h.linked hq
  once := (h.linked hq).nodup_iff.mpr h.once
  allocated := fun n hn => ⟨h.live n hn, fun hf => (h.freed n hf).2 hn⟩
  freedOnce := h.freedOnce
  unlinkedOnce := h.unlinkedOnce
  counted := h.counted

theorem kvInit_sound (zone : Zone) : Sound zone 0 (kvInit zone) where
  linked := by simp [kvInit, Tree.toList]
  queueCount := by simp [kvInit]
  ordered := by simp [kvInit, Tree.toList, Ordered]
  distinct := by simp [kvInit, Tree.toList]
  hashed := by simp [kvInit, Tree.toList]
  live := by simp [kvInit, Tree.toList]
  freed := by simp [kvInit, frees]
  unlinked := by simp [kvInit, treeDeletes]
  freedOnce := by simp [kvInit, frees]
  unlinkedOnce := by simp [kvInit, treeDeletes]
  counted := by simp [kvInit, Tree.toList]

theorem Sound.lookup_iff {zone : Zone} {k : ℕ} {s : KvStore} (h : Sound zone k s) (hash n : ℕ) :
    rbtreeLookup s hash = some n ↔ n ∈ s.tree.toList ∧ (s.node n).hash = hash := by
  constructor
  · exact lookup_some _ _ _ _
  · rintro ⟨hn, rfl⟩
    exact lookup_eq_some _ _ _ h.ordered h.distinct hn

theorem Sound.lookup_none_iff {zone : Zone} {k : ℕ} {s : KvStore} (h : Sound zone k s) (hash : ℕ) :
    rbtreeLookup s hash = none ↔ ∀ n ∈ s.tree.toList, (s.node n).hash ≠ hash := by
  constructor
  · exact lookup_none _ _ _ h.ordered
  · intro hn
    cases hl : rbtreeLookup s hash with
    | none => rfl
    | some n =>
      obtain ⟨hm, hh⟩ := (h.lookup_iff hash n).mp hl
      exact absurd hh (hn n hm)

/-! ### Queues -/

theorem shiftLoop_le (fuel s shift j : ℕ) (h : s < 2 ^ (j + 1)) :
    shiftLoop fuel s shift ≤ shift + j := by
  induction fuel generalizing s shift j with
  | zero => exact Nat.le_add_right _ _
  | succ fuel ih =>
    simp only [shiftLoop]
    split
    · exact Nat.le_add_right _ _
    · rename_i hs
      rw [Nat.shiftRight_eq_div_pow] at hs ⊢
      cases j with
      | zero => omega
      | succ j =>
        have hlt : s / 2 ^ 1 < 2 ^ (j + 1) := by
          rw [Nat.pow_succ] at h
          omega
        have := ih (s / 2 ^ 1) (shift + 1) j hlt
        omega

theorem slruIndexForSize_lt (pool : Pool) (size : ℕ) :
    slruIndexForSize pool size < pool.slruNqueues := by
  have hlt := pool.minShift_lt
  simp only [slruIndexForSize]
  split
  · simp only [Pool.slruNqueues]; omega
  · rename_i hpage
    split
    · rename_i hmin
      have hpos : 1 ≤ pool.minSize := Nat.one_le_two_pow
      -- a size of at least two bytes needs a page of at least four
      have hhalf : pool.pagesize / 2 = 2 ^ (pool.pagesizeShift - 1) := by
        obtain ⟨j, hj⟩ : ∃ j, pool.pagesizeShift = j + 1 := ⟨pool.pagesizeShift - 1, by omega⟩
        simp only [Pool.pagesize, hj, Nat.pow_succ, Nat.add_sub_cancel]
        omega
      rw [hhalf] at hpage
      cases hj : pool.pagesizeShift - 1 with
      | zero =>
        rw [hj] at hpage
        omega
      | succ j =>
        rw [hj] at hpage
        have hb := shiftLoop_le 64 (size - 1) 1 j (by omega)
        simp only [Pool.slruNqueues]
        omega
    · simp only [Pool.slruNqueues]; omega

theorem queueForNode_lt (zone : Zone) (n : Node) (h : hasQueues zone = true) :
    queueForNode zone n < nqueues zone := by
  cases he : zone.eviction with
  | lru => simp [queueForNode, nqueues, he]
  | slru =>
    simp only [queueForNode, nqueues, he]
    exact slruIndexForSize_lt _ _
  | none => simp [hasQueues, he] at h

theorem flatten_modify_perm {α : Type*} (qs : List (List α)) (i : ℕ) (a : α) (h : i < qs.length) :
    (qs.modify i (a :: ·)).flatten.Perm (a :: qs.flatten) := by
  induction qs generalizing i with
  | nil => simp at h
  | cons q qs ih =>
    cases i with
    | zero => simp
    | succ i =>
      have hi := ih i (by simpa using h)
      simp only [List.modify_succ_cons, List.flatten_cons]
      exact (List.Perm.append_left q hi).trans List.perm_middle

theorem flatten_map_filter {α : Type*} (qs : List (List α)) (p : α → Bool) :
    (qs.map fun q => q.filter p).flatten = qs.flatten.filter p := by
  rw [List.filter_flatten]

theorem filter_ne_eq_erase {as : List ℕ} (h : as.Nodup) (a : ℕ) :
    as.filter (· ≠ a) = as.erase a := by
  rw [List.Nodup.erase_eq_filter h]
  congr 1
  funext x
  simp [bne, beq_eq_decide]

theorem nodeQueueRemove_eq {zone : Zone} {k : ℕ} {s : KvStore} (h : Sound zone k s) (n : ℕ) :
    nodeQueueRemove zone s n = queueRemove s n := by
  unfold nodeQueueRemove
  split
  · rfl
  · rename_i hq
    have hnil : s.queues = [] := by
      have hc := h.queueCount
      cases he : zone.eviction <;> simp [hasQueues, nqueues, he] at hq hc
      exact hc
    obtain ⟨node, next, tree, queues, nelts, log⟩ := s
    simp only at hnil
    simp [queueRemove, hnil]

theorem Sound.touch {zone : Zone} {k : ℕ} {s : KvStore} (h : Sound zone k s) {n : ℕ}
    (hn : n ∈ s.tree.toList) : Sound zone k (queueTouch zone s n) := by
  unfold queueTouch
  split
  · rename_i hq
    have hi : queueForNode zone ((queueRemove s n).node n) < (queueRemove s n).queues.length := by
      simp only [queueRemove, List.length_map, h.queueCount]
      exact queueForNode_lt zone _ hq
    refine ⟨fun _ => ?_, ?_, h.ordered, h.distinct, h.hashed, h.live, h.freed, h.unlinked,
      h.freedOnce, h.unlinkedOnce, h.counted⟩
    · have hp := flatten_modify_perm (queueRemove s n).queues _ n hi
      apply hp.trans
      have hfl : (queueRemove s n).queues.flatten = s.queues.flatten.filter (· ≠ n) :=
        flatten_map_filter _ _
      rw [hfl]
      have hf : (s.queues.flatten.filter (· ≠ n)).Perm (s.tree.toList.filter (· ≠ n)) :=
        (h.linked hq).filter _
      rw [filter_ne_eq_erase h.once] at hf
      exact (List.Perm.cons n hf).trans (List.perm_cons_erase hn).symm
    · simp only [queueInsertHead, List.length_modify, queueRemove, List.length_map, h.queueCount]
  · exact h

@[simp] theorem queueTouch_node (zone : Zone) (s : KvStore) (n : ℕ) :
    (queueTouch zone s n).node = s.node := by
  unfold queueTouch; split <;> rfl

@[simp] theorem queueTouch_tree (zone : Zone) (s : KvStore) (n : ℕ) :
    (queueTouch zone s n).tree = s.tree := by
  unfold queueTouch; split <;> rfl

@[simp] theorem queueTouch_log (zone : Zone) (s : KvStore) (n : ℕ) :
    (queueTouch zone s n).log = s.log := by
  unfold queueTouch; split <;> rfl

/-! ### Blocks -/

@[simp] theorem frees_append (l m : List Event) : frees (l ++ m) = frees l ++ frees m :=
  List.filterMap_append

@[simp] theorem treeDeletes_append (l m : List Event) :
    treeDeletes (l ++ m) = treeDeletes l ++ treeDeletes m :=
  List.filterMap_append

theorem Sound.release {zone : Zone} {k : ℕ} {s : KvStore} (rb : RbtreeOps) (h : Sound zone k s)
    {n : ℕ} (hn : n ∈ s.tree.toList) :
    Sound zone (k + 1) (releaseNode rb (queueRemove s n) n) := by
  have htree : (rb.delete s.tree n).toList = s.tree.toList.erase n := rb.delete_toList _ _ hn
  have hnot : n ∉ s.tree.toList.erase n := h.once.not_mem_erase
  have hsub : ∀ m ∈ s.tree.toList.erase n, m ∈ s.tree.toList := fun m => List.mem_of_mem_erase
  constructor
  case linked =>
    intro hq
    show ((s.queues.map fun q => q.filter (· ≠ n)).flatten).Perm (rb.delete s.tree n).toList
    rw [flatten_map_filter, htree, ← filter_ne_eq_erase h.once]
    exact (h.linked hq).filter _
  case queueCount => simp only [releaseNode, queueRemove, List.length_map, h.queueCount]
  case ordered =>
    show ((rb.delete s.tree n).toList).Pairwise _
    rw [htree]
    exact h.ordered.sublist List.erase_sublist
  case distinct =>
    show ((rb.delete s.tree n).toList.map _).Nodup
    rw [htree]
    exact h.distinct.sublist (List.erase_sublist.map _)
  case hashed =>
    intro m hm
    exact h.hashed m (hsub m (htree ▸ hm))
  case live =>
    intro m hm
    exact h.live m (hsub m (htree ▸ hm))
  case freed =>
    intro m hm
    show m < s.next ∧ m ∉ (rb.delete s.tree n).toList
    rw [htree]
    rcases List.mem_append.mp (frees_append s.log _ ▸ hm) with hm | hm
    · exact ⟨(h.freed m hm).1, fun he => (h.freed m hm).2 (hsub m he)⟩
    · obtain rfl : m = n := by simpa [frees] using hm
      exact ⟨h.live m hn, hnot⟩
  case unlinked =>
    intro m hm
    show m < s.next ∧ m ∉ (rb.delete s.tree n).toList
    rw [htree]
    rcases List.mem_append.mp (treeDeletes_append s.log _ ▸ hm) with hm | hm
    · exact ⟨(h.unlinked m hm).1, fun he => (h.unlinked m hm).2 (hsub m he)⟩
    · obtain rfl : m = n := by simpa [treeDeletes] using hm
      exact ⟨h.live m hn, hnot⟩
  case freedOnce =>
    show (frees (s.log ++ _)).Nodup
    rw [frees_append]
    apply List.Nodup.append h.freedOnce (by simp [frees])
    intro m hm hm'
    obtain rfl : m = n := by simpa [frees] using hm'
    exact (h.freed m hm).2 hn
  case unlinkedOnce =>
    show (treeDeletes (s.log ++ _)).Nodup
    rw [treeDeletes_append]
    apply List.Nodup.append h.unlinkedOnce (by simp [treeDeletes])
    intro m hm hm'
    obtain rfl : m = n := by simpa [treeDeletes] using hm'
    exact (h.unlinked m hm).2 hn
  case counted =>
    show s.nelts = (rb.delete s.tree n).toList.length + (k + 1)
    rw [htree, List.length_erase_of_mem hn, h.counted]
    have := List.length_pos_of_mem hn
    omega

theorem Sound.logged {zone : Zone} {k : ℕ} {s : KvStore} (h : Sound zone k s) (e : Event)
    (hf : frees [e] = []) (ht : treeDeletes [e] = []) :
    Sound zone k { s with log := s.log ++ [e] } := by
  have hfs : frees (s.log ++ [e]) = frees s.log := by rw [frees_append, hf, List.append_nil]
  have hts : treeDeletes (s.log ++ [e]) = treeDeletes s.log := by
    rw [treeDeletes_append, ht, List.append_nil]
  refine ⟨h.linked, h.queueCount, h.ordered, h.distinct, h.hashed, h.live, ?_, ?_, ?_, ?_,
    h.counted⟩
  · show ∀ n ∈ frees (s.log ++ [e]), _
    rw [hfs]
    exact h.freed
  · show ∀ n ∈ treeDeletes (s.log ++ [e]), _
    rw [hts]
    exact h.unlinked
  · show (frees (s.log ++ [e])).Nodup
    rw [hfs]
    exact h.freedOnce
  · show (treeDeletes (s.log ++ [e])).Nodup
    rw [hts]
    exact h.unlinkedOnce

theorem Sound.recount {zone : Zone} {k l nelts : ℕ} {s : KvStore} (h : Sound zone k s)
    (hc : nelts = s.tree.toList.length + l) : Sound zone l { s with nelts := nelts } :=
  ⟨h.linked, h.queueCount, h.ordered, h.distinct, h.hashed, h.live, h.freed, h.unlinked,
    h.freedOnce, h.unlinkedOnce, hc⟩

theorem Sound.expire {zone : Zone} {k : ℕ} {s : KvStore} (rb : RbtreeOps) (h : Sound zone k s)
    {n : ℕ} (hn : n ∈ s.tree.toList) : Sound zone k (queueExpire rb s n) := by
  have hr := h.release rb hn
  have hc := hr.counted
  have hd : neltsDec (releaseNode rb (queueRemove s n) n).nelts =
      (releaseNode rb (queueRemove s n) n).tree.toList.length + k := by
    rw [hc, neltsDec, if_neg (by omega)]
    omega
  exact (hr.recount hd).logged _ rfl rfl

theorem Sound.update {zone : Zone} {k : ℕ} {s : KvStore} (h : Sound zone k s) (n : ℕ) (x : Node)
    (hx : n ∈ s.tree.toList → x.hash = (s.node n).hash ∧ x.key = (s.node n).key) :
    Sound zone k { s with node := Function.update s.node n x } := by
  have hhash : ∀ m ∈ s.tree.toList, (s.node m).hash = (Function.update s.node n x m).hash := by
    intro m hm
    by_cases he : m = n
    · subst he
      rw [Function.update_self]
      exact (hx hm).1.symm
    · rw [Function.update_of_ne he]
  have hkey : ∀ m ∈ s.tree.toList, (s.node m).key = (Function.update s.node n x m).key := by
    intro m hm
    by_cases he : m = n
    · subst he
      rw [Function.update_self]
      exact (hx hm).2.symm
    · rw [Function.update_of_ne he]
  refine ⟨h.linked, h.queueCount, ordered_congr hhash h.ordered, ?_, ?_, h.live, h.freed,
    h.unlinked, h.freedOnce, h.unlinkedOnce, h.counted⟩
  · rw [← List.map_congr_left hhash]
    exact h.distinct
  · intro m hm
    show (Function.update s.node n x m).hash = _
    rw [← hhash m hm, h.hashed m hm, hkey m hm]

theorem Sound.alloc {zone : Zone} {k : ℕ} {s : KvStore} (h : Sound zone k s) (x : Node) :
    Sound zone k (allocNode s x) := by
  have hnot : s.next ∉ s.tree.toList := fun hm => Nat.lt_irrefl _ (h.live _ hm)
  have hu := h.update s.next x (fun hm => absurd hm hnot)
  exact ⟨hu.linked, hu.queueCount, hu.ordered, hu.distinct, hu.hashed,
    fun m hm => Nat.lt_succ_of_lt (h.live m hm),
    fun m hm => ⟨Nat.lt_succ_of_lt (h.freed m hm).1, (h.freed m hm).2⟩,
    fun m hm => ⟨Nat.lt_succ_of_lt (h.unlinked m hm).1, (h.unlinked m hm).2⟩,
    h.freedOnce, h.unlinkedOnce, h.counted⟩

@[simp] theorem insertNode_tree (rb : RbtreeOps) (zone : Zone) (s : KvStore) (n : ℕ) :
    (insertNode rb zone s n).tree = rb.insert s.node s.tree n := by
  unfold insertNode; dsimp only; split <;> rfl

@[simp] theorem insertNode_node (rb : RbtreeOps) (zone : Zone) (s : KvStore) (n : ℕ) :
    (insertNode rb zone s n).node = s.node := by
  unfold insertNode; dsimp only; split <;> rfl

@[simp] theorem insertNode_log (rb : RbtreeOps) (zone : Zone) (s : KvStore) (n : ℕ) :
    (insertNode rb zone s n).log = s.log := by
  unfold insertNode; dsimp only; split <;> rfl

@[simp] theorem insertNode_next (rb : RbtreeOps) (zone : Zone) (s : KvStore) (n : ℕ) :
    (insertNode rb zone s n).next = s.next := by
  unfold insertNode; dsimp only; split <;> rfl

@[simp] theorem insertNode_nelts (rb : RbtreeOps) (zone : Zone) (s : KvStore) (n : ℕ) :
    (insertNode rb zone s n).nelts = s.nelts := by
  unfold insertNode; dsimp only; split <;> rfl

theorem Sound.insert {zone : Zone} {k : ℕ} {s : KvStore} (rb : RbtreeOps)
    (h : Sound zone (k + 1) s) {n : ℕ} (hlt : n < s.next) (hf : n ∉ frees s.log)
    (ht : n ∉ treeDeletes s.log) (hn : (s.node n).hash = crc32 (s.node n).key)
    (hnew : ∀ m ∈ s.tree.toList, (s.node m).hash ≠ (s.node n).hash) :
    Sound zone k (insertNode rb zone s n) := by
  have hp : (rb.insert s.node s.tree n).toList.Perm (n :: s.tree.toList) := rb.insert_perm _ _ _
  have hmem : ∀ m, m ∈ (rb.insert s.node s.tree n).toList ↔ m = n ∨ m ∈ s.tree.toList := by
    intro m
    rw [hp.mem_iff, List.mem_cons]
  constructor
  case linked =>
    intro hq
    rw [insertNode_tree]
    refine List.Perm.trans ?_ hp.symm
    simp only [insertNode, hq, if_true, queueInsertHead]
    refine (flatten_modify_perm s.queues _ n ?_).trans (List.Perm.cons n (h.linked hq))
    rw [h.queueCount]
    exact queueForNode_lt zone _ hq
  case queueCount =>
    unfold insertNode
    dsimp only
    split
    · simp only [queueInsertHead, List.length_modify, h.queueCount]
    · exact h.queueCount
  case ordered =>
    rw [insertNode_tree, insertNode_node]
    exact rb.insert_ordered _ _ _ h.ordered
  case distinct =>
    rw [insertNode_tree, insertNode_node, (hp.map _).nodup_iff, List.map_cons, List.nodup_cons]
    refine ⟨?_, h.distinct⟩
    intro hm
    obtain ⟨m, hm, he⟩ := List.mem_map.mp hm
    exact hnew m hm he
  case hashed =>
    intro m hm
    rw [insertNode_node]
    rcases (hmem m).mp (insertNode_tree rb zone s n ▸ hm) with rfl | hm
    · exact hn
    · exact h.hashed m hm
  case live =>
    intro m hm
    rw [insertNode_next]
    rcases (hmem m).mp (insertNode_tree rb zone s n ▸ hm) with rfl | hm
    · exact hlt
    · exact h.live m hm
  case freed =>
    rw [insertNode_log, insertNode_next, insertNode_tree]
    intro m hm
    refine ⟨(h.freed m hm).1, fun hi => ?_⟩
    rcases (hmem m).mp hi with rfl | hi
    · exact hf hm
    · exact (h.freed m hm).2 hi
  case unlinked =>
    rw [insertNode_log, insertNode_next, insertNode_tree]
    intro m hm
    refine ⟨(h.unlinked m hm).1, fun hi => ?_⟩
    rcases (hmem m).mp hi with rfl | hi
    · exact ht hm
    · exact (h.unlinked m hm).2 hi
  case freedOnce => rw [insertNode_log]; exact h.freedOnce
  case unlinkedOnce => rw [insertNode_log]; exact h.unlinkedOnce
  case counted =>
    rw [insertNode_nelts, insertNode_tree, hp.length_eq, List.length_cons, h.counted]
    omega

theorem Sound.commit {zone : Zone} {k : ℕ} {s : KvStore} (h : Sound zone k s) (n : ℕ)
    (key value : Bytes) : Sound zone k (commitNode s n key value).1 := by
  have hu := h.update n
    { s.node n with value := value, cas := ((s.node n).cas + 1) % 2 ^ 32 } fun _ => ⟨rfl, rfl⟩
  exact hu.logged (.commit key value (((s.node n).cas + 1) % 2 ^ 32)) rfl rfl

end NgxWasm.Shm.KvInvariant
