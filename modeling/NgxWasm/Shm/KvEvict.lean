import NgxWasm.Shm.KvInvariant
import Mathlib.Data.List.GetD

/-!
# Evictions and the representation invariant over runs

The retries of an allocation take nodes from the front of `evictionOrder`. A
call keeps the store sound when these do not include the node it replaces.
-/

namespace NgxWasm.Shm.KvEvict
open NgxWasm.Lib SearchTree Run NgxWasm.Shm.Kv NgxWasm.Shm.KvInvariant

/-! ### Order of eviction -/

/-- Linked nodes in the order in which repeated evictions for an item of `size`
bytes take them. -/
def evictionOrder (zone : Zone) (s : KvStore) (size : ℕ) : List ℕ :=
  (scanOrder zone size).flatMap fun i => (s.queues.getD i []).reverse

theorem expireVictim_eq_head (zone : Zone) (s : KvStore) (size : ℕ) :
    expireVictim zone s size = (evictionOrder zone s size).head? := by
  simp only [expireVictim, evictionOrder, List.head?_flatMap, List.head?_reverse]

theorem scanOrder_nodup (zone : Zone) (size : ℕ) : (scanOrder zone size).Nodup := by
  unfold scanOrder
  split
  · exact List.nodup_singleton 0
  · apply List.Nodup.append (List.nodup_range') (List.nodup_reverse.mpr List.nodup_range)
    intro i hi hj
    have hge := (List.mem_range'_1.mp hi).1
    have hlt := List.mem_range.mp (List.mem_reverse.mp hj)
    omega
  · exact List.nodup_nil

theorem mem_getD {qs : List (List ℕ)} {i n : ℕ} (h : n ∈ qs.getD i []) :
    ∃ hi : i < qs.length, n ∈ qs[i] := by
  by_cases hi : i < qs.length
  · exact ⟨hi, List.getD_eq_getElem _ _ hi ▸ h⟩
  · rw [List.getD_eq_default _ _ (Nat.le_of_not_lt hi)] at h
    simp at h

theorem evictionOrder_subset (zone : Zone) (s : KvStore) (size : ℕ) :
    evictionOrder zone s size ⊆ s.queues.flatten := by
  intro n hn
  obtain ⟨i, -, hi⟩ := List.mem_flatMap.mp hn
  obtain ⟨hlt, hmem⟩ := mem_getD (List.mem_reverse.mp hi)
  exact List.mem_flatten_of_mem (List.getElem_mem hlt) hmem

theorem evictionOrder_nodup_of_once {s : KvStore} (h : s.queues.flatten.Nodup) (zone : Zone) (size : ℕ) :
    (evictionOrder zone s size).Nodup := by
  obtain ⟨heach, hpair⟩ := List.nodup_flatten.mp h
  refine List.nodup_flatMap.mpr ⟨?_, ?_⟩
  · intro i _
    rw [List.nodup_reverse]
    by_cases hi : i < s.queues.length
    · rw [List.getD_eq_getElem _ _ hi]
      exact heach _ (List.getElem_mem hi)
    · rw [List.getD_eq_default _ _ (Nat.le_of_not_lt hi)]
      exact List.nodup_nil
  · refine List.Pairwise.imp ?_ (scanOrder_nodup zone size)
    intro i j hij n hni hnj
    obtain ⟨hi, hni⟩ := mem_getD (List.mem_reverse.mp hni)
    obtain ⟨hj, hnj⟩ := mem_getD (List.mem_reverse.mp hnj)
    -- two different queues share no node
    have hget := List.pairwise_iff_getElem.mp hpair
    rcases Nat.lt_or_gt_of_ne hij with hlt | hlt
    · exact hget i j hi hj hlt hni hnj
    · exact hget j i hj hi hlt hnj hni

theorem evictionOrder_none {zone : Zone} (h : zone.eviction = .none) (s : KvStore) (size : ℕ) :
    evictionOrder zone s size = [] := by
  simp [evictionOrder, scanOrder, h]

theorem evictionOrder_linked {zone : Zone} {k : ℕ} {s : KvStore} (h : Sound zone k s)
    {size n : ℕ} (hn : n ∈ evictionOrder zone s size) : n ∈ s.tree.toList := by
  by_cases hq : hasQueues zone = true
  · exact (h.linked hq).mem_iff.mp (evictionOrder_subset zone s size hn)
  · have he : zone.eviction = .none := by
      cases he : zone.eviction <;> simp [hasQueues, he] at hq
      rfl
    rw [evictionOrder_none he] at hn
    simp at hn

theorem evictionOrder_nodup {zone : Zone} {k : ℕ} {s : KvStore} (h : Sound zone k s)
    (size : ℕ) : (evictionOrder zone s size).Nodup := by
  by_cases hq : hasQueues zone = true
  · exact evictionOrder_nodup_of_once ((h.linked hq).nodup_iff.mpr h.once) zone size
  · have he : zone.eviction = .none := by
      cases he : zone.eviction <;> simp [hasQueues, he] at hq
      rfl
    rw [evictionOrder_none he]
    exact List.nodup_nil

theorem evictionOrder_expire (rb : RbtreeOps) (zone : Zone) (s : KvStore) (size n : ℕ) :
    evictionOrder zone (queueExpire rb s n) size = (evictionOrder zone s size).filter (· ≠ n) := by
  have hq : ∀ i, (queueExpire rb s n).queues.getD i [] = (s.queues.getD i []).filter (· ≠ n) := by
    intro i
    show (s.queues.map fun q => q.filter (· ≠ n)).getD i [] = _
    simp only [List.getD_eq_getElem?_getD, List.getElem?_map]
    cases s.queues[i]? <;> rfl
  simp only [evictionOrder, hq, List.filter_flatMap, List.filter_reverse]

/-! ### The retry loop -/

def expireAll (rb : RbtreeOps) (s : KvStore) (vs : List ℕ) : KvStore :=
  vs.foldl (queueExpire rb) s

/-- The loop evicts the first `k` nodes of the order, where attempt `k` is the
first one that succeeds or the one that finds no node left. -/
theorem allocLoop_eq (rb : RbtreeOps) (zone : Zone) (size : ℕ) (alloc : ℕ → Bool) :
    ∀ (fuel i : ℕ) (s : KvStore), Sound zone 0 s →
      (evictionOrder zone s size).length ≤ fuel →
      ∃ k ≤ (evictionOrder zone s size).length,
        allocLoop rb zone size alloc fuel i s =
          (expireAll rb s ((evictionOrder zone s size).take k), alloc (i + k)) ∧
        (∀ j < k, alloc (i + j) = false) ∧
        (alloc (i + k) = false → k = (evictionOrder zone s size).length) := by
  intro fuel
  induction fuel with
  | zero =>
    intro i s _ hf
    have hnil : evictionOrder zone s size = [] := List.length_eq_zero_iff.mp (Nat.le_zero.mp hf)
    refine ⟨0, Nat.zero_le _, ?_, by simp, by simp [hnil]⟩
    simp [allocLoop, expireAll]
  | succ fuel ih =>
    intro i s hs hf
    by_cases ha : alloc i = true
    · exact ⟨0, Nat.zero_le _, by simp [allocLoop, expireAll, ha], by simp, by simp [ha]⟩
    · have hv := expireVictim_eq_head zone s size
      have hnd := evictionOrder_nodup hs size
      have hlk := fun n => @evictionOrder_linked zone 0 s hs size n
      cases ho : evictionOrder zone s size with
      | nil =>
        rw [ho] at hv
        refine ⟨0, Nat.zero_le _, ?_, by simp, by simp⟩
        simp only [allocLoop, ha, hv, List.head?_nil, expireAll, List.take_nil, List.foldl_nil,
          Nat.add_zero]
        simp
      | cons n vs =>
        rw [ho] at hv hnd hlk hf
        obtain ⟨hn, -⟩ := List.nodup_cons.mp hnd
        have hs' := hs.expire rb (hlk n (List.mem_cons_self ..))
        have ho' : evictionOrder zone (queueExpire rb s n) size = vs := by
          rw [evictionOrder_expire, ho, List.filter_cons_of_neg (by simp),
            List.filter_eq_self.mpr]
          intro m hm
          have hne : m ≠ n := fun he => hn (he ▸ hm)
          simpa using hne
        have hlen : (evictionOrder zone (queueExpire rb s n) size).length ≤ fuel := by
          rw [ho']
          simpa using hf
        obtain ⟨k, hk, heq, hfail, hend⟩ := ih (i + 1) _ hs' hlen
        rw [ho'] at hk heq hend
        have hik : i + 1 + k = i + (k + 1) := by omega
        refine ⟨k + 1, by simpa using hk, ?_, ?_, ?_⟩
        · simp only [allocLoop, hv, List.head?_cons, heq, List.take_succ_cons, expireAll,
            List.foldl_cons, hik]
          simp [ha]
        · intro j hj
          cases j with
          | zero => simpa using ha
          | succ j =>
            have := hfail j (by omega)
            rwa [show i + 1 + j = i + (j + 1) by omega] at this
        · intro hf
          rw [← hik] at hf
          simpa using hend hf

@[simp] theorem expireAll_node (rb : RbtreeOps) (s : KvStore) (vs : List ℕ) :
    (expireAll rb s vs).node = s.node := by
  induction vs generalizing s with
  | nil => rfl
  | cons v vs ih => exact ih (queueExpire rb s v)

theorem mem_queueExpire {zone : Zone} {k : ℕ} {s : KvStore} (rb : RbtreeOps) (h : Sound zone k s)
    {n : ℕ} (hn : n ∈ s.tree.toList) (m : ℕ) :
    m ∈ (queueExpire rb s n).tree.toList ↔ m ≠ n ∧ m ∈ s.tree.toList := by
  show m ∈ (rb.delete s.tree n).toList ↔ _
  rw [rb.delete_toList _ _ hn]
  exact h.once.mem_erase_iff

theorem expireAll_sound (rb : RbtreeOps) {zone : Zone} {k : ℕ} (vs : List ℕ) :
    ∀ s : KvStore, Sound zone k s → vs.Nodup → (∀ v ∈ vs, v ∈ s.tree.toList) →
      Sound zone k (expireAll rb s vs) ∧
      ∀ m, m ∈ (expireAll rb s vs).tree.toList ↔ m ∉ vs ∧ m ∈ s.tree.toList := by
  induction vs with
  | nil =>
    intro s h _ _
    exact ⟨h, by simp [expireAll]⟩
  | cons v vs ih =>
    intro s h hd hm
    obtain ⟨hv, hd⟩ := List.nodup_cons.mp hd
    have hvt := hm v (List.mem_cons_self ..)
    have hm' : ∀ w ∈ vs, w ∈ (queueExpire rb s v).tree.toList := by
      intro w hw
      exact (mem_queueExpire rb h hvt w).mpr
        ⟨fun he => hv (he ▸ hw), hm w (List.mem_cons_of_mem _ hw)⟩
    obtain ⟨hs, hmem⟩ := ih _ (h.expire rb hvt) hd hm'
    refine ⟨hs, fun m => ?_⟩
    show m ∈ (expireAll rb (queueExpire rb s v) vs).tree.toList ↔ _
    rw [hmem, mem_queueExpire rb h hvt, List.mem_cons]
    tauto

theorem evictionOrder_length_le {zone : Zone} {k : ℕ} {s : KvStore} (h : Sound zone k s)
    (size : ℕ) : (evictionOrder zone s size).length ≤ s.queues.flatten.length :=
  (List.subperm_of_subset (evictionOrder_nodup h size) (evictionOrder_subset zone s size)).length_le

/-- No attempt is needed beyond the one that precedes the eviction of `n`. -/
def Spared (zone : Zone) (s : KvStore) (size : ℕ) (alloc : ℕ → Bool) (n : ℕ) : Prop :=
  ∃ j ≤ (evictionOrder zone s size).idxOf n, alloc j = true

theorem idxOf_lt_of_mem_take {l : List ℕ} {n k : ℕ} (h : n ∈ l.take k) : l.idxOf n < k := by
  have happ : l.idxOf n = (l.take k).idxOf n := by
    conv_lhs => rw [← List.take_append_drop k l]
    exact List.idxOf_append_of_mem h
  have hlt := List.idxOf_lt_length_of_mem h
  rw [List.length_take] at hlt
  omega

theorem allocLoop_spec (rb : RbtreeOps) {zone : Zone} {s : KvStore} (h : Sound zone 0 s)
    (size : ℕ) (alloc : ℕ → Bool) :
    ∃ vs, vs <+: evictionOrder zone s size ∧
      (allocLoop rb zone size alloc s.queues.flatten.length 0 s).1 = expireAll rb s vs ∧
      Sound zone 0 (expireAll rb s vs) ∧
      (∀ m, m ∈ (expireAll rb s vs).tree.toList ↔ m ∉ vs ∧ m ∈ s.tree.toList) ∧
      ((allocLoop rb zone size alloc s.queues.flatten.length 0 s).2 = true →
        ∃ i ≤ (evictionOrder zone s size).length, alloc i = true) ∧
      (∀ n, Spared zone s size alloc n → n ∉ vs) := by
  obtain ⟨k, hk, heq, hfail, -⟩ :=
    allocLoop_eq rb zone size alloc _ 0 s h (evictionOrder_length_le h size)
  have hsub : (evictionOrder zone s size).take k ⊆ evictionOrder zone s size :=
    List.take_subset _ _
  obtain ⟨hs, hmem⟩ := expireAll_sound rb _ s h ((evictionOrder_nodup h size).sublist
    (List.take_sublist k _)) fun v hv => evictionOrder_linked h (hsub hv)
  refine ⟨_, List.take_prefix k _, by rw [heq], hs, hmem, ?_, ?_⟩
  · intro hok
    rw [heq] at hok
    exact ⟨k, hk, by simpa using hok⟩
  · rintro n ⟨j, hj, ha⟩ hn
    have hlt := idxOf_lt_of_mem_take hn
    have hfalse := hfail j (by omega)
    rw [Nat.zero_add, ha] at hfalse
    exact absurd hfalse (by decide)

/-! ### One call -/

def retired : Option ℕ → List Event
  | none => []
  | some o => [.treeDelete o, .free o]

theorem frees_retired (old : Option ℕ) : frees (retired old) = old.toList := by
  cases old <;> rfl

theorem treeDeletes_retired (old : Option ℕ) : treeDeletes (retired old) = old.toList := by
  cases old <;> rfl

theorem retireOld_spec (rb : RbtreeOps) {zone : Zone} {s : KvStore} (h : Sound zone 0 s)
    (old : Option ℕ) (ho : ∀ o, old = some o → o ∈ s.tree.toList) :
    Sound zone 1 (retireOld rb zone s old) ∧
      (∀ m, m ∈ (retireOld rb zone s old).tree.toList ↔ m ∈ s.tree.toList ∧ old ≠ some m) ∧
      (retireOld rb zone s old).node = s.node ∧ (retireOld rb zone s old).next = s.next ∧
      (retireOld rb zone s old).log = s.log ++ retired old := by
  cases old with
  | none =>
    have hc : s.nelts + 1 = s.tree.toList.length + 1 := by rw [h.counted]
    exact ⟨h.recount hc, by simp [retireOld], rfl, rfl, (List.append_nil _).symm⟩
  | some o =>
    have hm := ho o rfl
    have heq : retireOld rb zone s (some o) = releaseNode rb (queueRemove s o) o := by
      rw [retireOld, nodeQueueRemove_eq h]
    rw [heq]
    refine ⟨h.release rb hm, fun m => ?_, rfl, rfl, rfl⟩
    show m ∈ (rb.delete s.tree o).toList ↔ _
    rw [rb.delete_toList _ _ hm, h.once.mem_erase_iff, and_comm]
    simp [eq_comm]

theorem linkNode_sound (rb : RbtreeOps) {zone : Zone} {s : KvStore} (h : Sound zone 0 s)
    (key value : Bytes) {old : Option ℕ} (ho : rbtreeLookup s (crc32 key) = old) :
    Sound zone 0 (linkNode rb zone s key value old).1 := by
  have hold : ∀ o, old = some o → o ∈ s.tree.toList := by
    rintro o rfl
    exact ((h.lookup_iff _ _).mp ho).1
  simp only [linkNode]
  generalize hx : Node.mk (crc32 key) key value _ = x
  obtain ⟨hs, hmem, hnode, hnext, hlog⟩ := retireOld_spec rb (h.alloc x) old hold
  have hself : (retireOld rb zone (allocNode s x) old).node s.next = x := by
    rw [hnode]
    exact Function.update_self ..
  have hfresh : ∀ m, m < s.next → m ≠ s.next := fun m => Nat.ne_of_lt
  refine (Sound.insert rb hs (n := s.next) ?_ ?_ ?_ ?_ ?_).commit _ _ _
  · rw [hnext]
    exact Nat.lt_succ_self _
  · rw [hlog, frees_append, frees_retired, List.mem_append, Option.mem_toList]
    rintro (hf | hf)
    · exact hfresh _ (h.freed _ hf).1 rfl
    · exact hfresh _ (h.live _ (hold _ hf)) rfl
  · rw [hlog, treeDeletes_append, treeDeletes_retired, List.mem_append, Option.mem_toList]
    rintro (hf | hf)
    · exact hfresh _ (h.unlinked _ hf).1 rfl
    · exact hfresh _ (h.live _ (hold _ hf)) rfl
  · rw [hself, ← hx]
  · intro m hm
    obtain ⟨hm, hne⟩ := (hmem m).mp hm
    have hlt := h.live m hm
    rw [hself, hnode]
    show (Function.update s.node s.next x m).hash ≠ x.hash
    rw [Function.update_of_ne hlt.ne, ← hx]
    intro he
    have := (h.lookup_iff (crc32 key) m).mpr ⟨hm, he⟩
    exact hne (ho ▸ this)

def NeedsBlock (s : KvStore) (key value : Bytes) : Prop :=
  ∀ n, rbtreeLookup s (crc32 key) = some n → (s.node n).value.length < value.length

def Obtains (zone : Zone) (s : KvStore) (key value : Bytes) (alloc : ℕ → Bool) : Prop :=
  ∃ i ≤ (evictionOrder zone s (nodeSize + key.length + value.length)).length, alloc i = true

def Writes (zone : Zone) (s : KvStore) (key value : Bytes) (cas : ℕ) (alloc : ℕ → Bool) : Prop :=
  cas = currentCas s (crc32 key) ∧ (NeedsBlock s key value → Obtains zone s key value alloc)

/-- A growing overwrite gets its block before the retries reach the node it replaces. -/
def OldSurvives (zone : Zone) (s : KvStore) : Op → Prop
  | .set key (some value) cas alloc =>
    Writes zone s key value cas alloc → NeedsBlock s key value →
      ∀ n, rbtreeLookup s (crc32 key) = some n →
        Spared zone s (nodeSize + key.length + value.length) alloc n
  | _ => True

theorem lookup_after_evictions {zone : Zone} {s s' : KvStore} {vs : List ℕ}
    (h : Sound zone 0 s) (h' : Sound zone 0 s') (hnode : s'.node = s.node)
    (hmem : ∀ m, m ∈ s'.tree.toList ↔ m ∉ vs ∧ m ∈ s.tree.toList) {hash : ℕ} {old : Option ℕ}
    (ho : rbtreeLookup s hash = old) (hkeep : ∀ o, old = some o → o ∉ vs) :
    rbtreeLookup s' hash = old := by
  subst ho
  cases hl : rbtreeLookup s hash with
  | none =>
    apply (h'.lookup_none_iff hash).mpr
    intro m hm
    rw [hnode]
    exact (h.lookup_none_iff hash).mp hl m ((hmem m).mp hm).2
  | some n =>
    obtain ⟨hm, hh⟩ := (h.lookup_iff hash n).mp hl
    exact (h'.lookup_iff hash n).mpr ⟨(hmem n).mpr ⟨hkeep n hl, hm⟩, hnode ▸ hh⟩

theorem setAlloc_sound (rb : RbtreeOps) {zone : Zone} {s : KvStore} (h : Sound zone 0 s)
    (key value : Bytes) (alloc : ℕ → Bool) {old : Option ℕ}
    (ho : rbtreeLookup s (crc32 key) = old)
    (hkeep : ∀ o, old = some o → Obtains zone s key value alloc →
      Spared zone s (nodeSize + key.length + value.length) alloc o) :
    Sound zone 0 (setAlloc rb zone s key value old alloc).1 := by
  obtain ⟨vs, -, hfst, hs, hmem, hok, hspared⟩ :=
    allocLoop_spec rb h (nodeSize + key.length + value.length) alloc
  simp only [setAlloc]
  split
  · rename_i s' hloop
    rw [hloop] at hfst
    rw [show s' = expireAll rb s vs from hfst]
    exact hs
  · rename_i s' hloop
    rw [hloop] at hfst hok
    rw [show s' = expireAll rb s vs from hfst]
    have hkept : ∀ o, old = some o → o ∉ vs := fun o he => hspared o (hkeep o he (hok rfl))
    exact linkNode_sound rb hs key value
      (lookup_after_evictions h hs (expireAll_node rb s vs) hmem ho hkept)

theorem setInPlace_sound {zone : Zone} {s : KvStore} (h : Sound zone 0 s) {n : ℕ}
    (hn : n ∈ s.tree.toList) (key value : Bytes) :
    Sound zone 0 (setInPlace zone s n key value).1 := by
  have hu := h.update n { s.node n with value := value } fun _ => ⟨rfl, rfl⟩
  exact (hu.touch hn).commit _ _ _

theorem deleteNode_fst (rb : RbtreeOps) {zone : Zone} {s : KvStore} (h : Sound zone 0 s) (n : ℕ) :
    (deleteNode rb zone s n).1 = queueExpire rb s n := by
  simp only [deleteNode, queueExpire, nodeQueueRemove_eq h]

inductive SetBranch (rb : RbtreeOps) (zone : Zone) (s : KvStore) (key : Bytes)
    (value : Option Bytes) (cas : ℕ) (alloc : ℕ → Bool) : KvStore × Answer → Prop where
  | refused :
    cas ≠ currentCas s (crc32 key) ∨ (value = none ∧ rbtreeLookup s (crc32 key) = none) →
    SetBranch rb zone s key value cas alloc (s, ⟨.ok, none, none, some false⟩)
  | deleted (n : ℕ) : cas = (s.node n).cas → value = none →
    rbtreeLookup s (crc32 key) = some n →
    SetBranch rb zone s key value cas alloc (deleteNode rb zone s n)
  | allocated (v : Bytes) : cas = currentCas s (crc32 key) → value = some v →
    NeedsBlock s key v →
    SetBranch rb zone s key value cas alloc
      (setAlloc rb zone s key v (rbtreeLookup s (crc32 key)) alloc)
  | inPlace (v : Bytes) (n : ℕ) : cas = (s.node n).cas → value = some v →
    rbtreeLookup s (crc32 key) = some n → v.length ≤ (s.node n).value.length →
    SetBranch rb zone s key value cas alloc (setInPlace zone s n key v)

theorem kvSetLocked_branch (rb : RbtreeOps) (zone : Zone) (s : KvStore) (key : Bytes)
    (value : Option Bytes) (cas : ℕ) (alloc : ℕ → Bool) :
    SetBranch rb zone s key value cas alloc (kvSetLocked rb zone s key value cas alloc) := by
  unfold kvSetLocked
  by_cases hcas : cas = currentCas s (crc32 key)
  · rw [if_neg (not_not.mpr hcas)]
    cases hl : rbtreeLookup s (crc32 key) with
    | none =>
      cases value with
      | none => exact .refused (.inr ⟨rfl, hl⟩)
      | some v =>
        have ha : SetBranch rb zone s key (some v) cas alloc _ :=
          .allocated v hcas rfl fun n hn => by rw [hl] at hn; exact absurd hn (by simp)
        rw [hl] at ha
        exact ha
    | some n =>
      have hn : cas = (s.node n).cas := by rw [hcas, currentCas, hl, casOf]
      cases value with
      | none => exact .deleted n hn rfl hl
      | some v =>
        by_cases hlen : (s.node n).value.length < v.length
        · have ha : SetBranch rb zone s key (some v) cas alloc _ :=
            .allocated v hcas rfl fun m hm => by
              obtain rfl : n = m := Option.some.inj (hl ▸ hm)
              exact hlen
          rw [hl] at ha
          simp only [hlen, if_true]
          exact ha
        · simp only [hlen, if_false]
          exact .inPlace v n hn rfl hl (Nat.le_of_not_lt hlen)
  · rw [if_pos hcas]
    exact .refused (.inl hcas)

theorem step_sound (rb : RbtreeOps) {zone : Zone} {s : KvStore} (h : Sound zone 0 s) (op : Op)
    (hop : OldSurvives zone s op) : Sound zone 0 (step rb zone s op).1 := by
  cases op with
  | get key =>
    simp only [step, kvGetLocked]
    split
    · exact h
    · rename_i n hl
      exact h.touch ((h.lookup_iff _ _).mp hl).1
  | set key value cas alloc =>
    simp only [step]
    have hb := kvSetLocked_branch rb zone s key value cas alloc
    generalize kvSetLocked rb zone s key value cas alloc = r at hb ⊢
    cases hb with
    | refused _ => exact h
    | deleted n _ _ hl =>
      rw [deleteNode_fst rb h n]
      exact h.expire rb ((h.lookup_iff _ _).mp hl).1
    | allocated v hcas hv hlen =>
      subst hv
      exact setAlloc_sound rb h key v alloc rfl fun o ho hob => hop ⟨hcas, fun _ => hob⟩ hlen o ho
    | inPlace v n _ _ hl _ => exact setInPlace_sound h ((h.lookup_iff _ _).mp hl).1 key v

/-- The invariant over whole runs: under an eviction policy a store is
consistent after every call of a run in which no growing overwrite evicts the
node it replaces. -/
theorem kv_consistent (rb : RbtreeOps) (zone : Zone) (hz : zone.eviction ≠ .none)
    (ops : List Op) (hops : Meets (step rb zone) (OldSurvives zone) (kvInit zone) ops) :
    ∀ pre, pre <+: ops → Consistent (exec (step rb zone) (kvInit zone) pre).1 := by
  rintro pre ⟨post, rfl⟩
  have hpre := ((meets_append _ _ _ _ _).mp hops).1
  have hs := exec_invariant (step rb zone) (OldSurvives zone) (Sound zone 0)
    (fun s op h hop => step_sound rb h op hop) pre (kvInit zone) (kvInit_sound zone) hpre
  apply hs.consistent
  cases he : zone.eviction <;> simp_all [hasQueues]

def lruZone : Zone := ⟨.lru, ⟨12, 3, by decide⟩⟩

theorem kv_consistent_evicting_other :
    Consistent (exec (step (listOps ℕ Node.hash) lruZone) (kvInit lruZone)
      [.set [97] (some []) 0 fun _ => true, .set [98] (some []) 0 fun _ => true, .get [97],
        .set [97] (some [1]) 1 fun i => i == 1]).1 := by
  refine kv_consistent _ lruZone (by decide) _ ?_ _ (List.prefix_refl _)
  refine ⟨fun _ hb n hn => absurd (hb n hn) (by simp), fun _ hb n hn => absurd (hb n hn) (by simp),
    trivial, ?_, trivial⟩
  intro _ _ n hn
  obtain rfl : n = 0 := by
    refine Option.some.inj (hn.symm.trans ?_)
    decide
  exact ⟨1, by decide, rfl⟩

/-- A store whose only node is grown under memory pressure frees it twice. -/
theorem growing_overwrite_frees_twice :
    ¬ Consistent (exec (step (listOps ℕ Node.hash) lruZone) (kvInit lruZone)
      [.set [97] (some []) 0 fun _ => true, .set [97] (some [1]) 1 fun i => i == 1]).1 := by
  intro h
  have hfreed : ¬ (frees (exec (step (listOps ℕ Node.hash) lruZone) (kvInit lruZone)
      [.set [97] (some []) 0 fun _ => true, .set [97] (some [1]) 1 fun i => i == 1]).1.log).Nodup := by
    decide
  exact hfreed h.freedOnce

end NgxWasm.Shm.KvEvict
