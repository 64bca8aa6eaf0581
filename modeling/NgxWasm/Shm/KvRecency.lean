import NgxWasm.Shm.KvSlots

/-!
# Which entries an allocation evicts

Time is counted in calls. An entry is used by a get that returns it and by a
set that writes it; entries go by the crc32 of their key, as everywhere in the
store. Each queue is sorted by the last use of its entries, so an eviction takes
the oldest one of the first queue that has any.
-/

namespace NgxWasm.Shm.KvRecency

set_option maxRecDepth 8192
open NgxWasm.Lib SearchTree Run Buckets NgxWasm.Shm.Kv NgxWasm.Shm.KvInvariant NgxWasm.Shm.KvEvict
open NgxWasm.Shm.KvEffect NgxWasm.Shm.KvMap NgxWasm.Shm.KvQueues NgxWasm.Shm.KvSlots

/-! ### Times of use -/

/-- The store together with the time of the last use of each hash. -/
structure Timed where
  store : KvStore
  now : ℕ
  lastUse : ℕ → ℕ

def timedInit (zone : Zone) : Timed := ⟨kvInit zone, 0, fun _ => 0⟩

def timedStep (rb : RbtreeOps) (zone : Zone) (t : Timed) (op : Op) : Timed × Answer :=
  let r := step rb zone t.store op
  (⟨r.1, t.now + 1,
    if uses op r.2 then Function.update t.lastUse (crc32 (opKey op)) t.now else t.lastUse⟩, r.2)

def Timed.used (t : Timed) (n : ℕ) : ℕ := t.lastUse (t.store.node n).hash

/-- Queues hold the nodes of their sizes, the most recently used ones first. -/
structure Recent (zone : Zone) (t : Timed) : Prop where
  sound : Sound zone 0 t.store
  queued : Queued zone t.store
  newest : NewestFirst t.used t.store.queues
  past : ∀ n ∈ t.store.tree.toList, t.used n < t.now

theorem timedInit_recent (zone : Zone) : Recent zone (timedInit zone) where
  sound := kvInit_sound zone
  queued := kvInit_queued zone
  newest i := by
    have hnil : bucket (kvInit zone).queues i = [] := by
      apply List.eq_nil_iff_forall_not_mem.mpr
      intro n hn
      have := bucket_subset _ i hn
      simp [kvInit] at this
    show (bucket (kvInit zone).queues i).Pairwise _
    rw [hnil]
    exact List.Pairwise.nil
  past n hn := by simp [timedInit, kvInit, Tree.toList] at hn

theorem Sound.hash_inj {zone : Zone} {k : ℕ} {s : KvStore} (h : Sound zone k s) {m n : ℕ}
    (hm : m ∈ s.tree.toList) (hn : n ∈ s.tree.toList)
    (he : (s.node m).hash = (s.node n).hash) : m = n :=
  List.inj_on_of_nodup_map h.distinct hm hn he

section Step

variable {zone : Zone} {t : Timed} {s' : KvStore} {op : Op}

/-- A call that puts node `n` at the head of its queue marks the entry as the last one used. -/
theorem recent_push (hq : hasQueues zone = true) (h : Recent zone t) (h' : Sound zone 0 s')
    (hc' : Queued zone s') {n : ℕ} {keep : ℕ → Bool}
    (hqs : s'.queues = push (queueForNode zone (s'.node n)) n (drop keep t.store.queues))
    (hnode : ∀ m ≠ n, s'.node m = t.store.node m) (hhash : (s'.node n).hash = crc32 (opKey op))
    (hfresh : ∀ i, ∀ m ∈ bucket (drop keep t.store.queues) i, m ≠ n) :
    Recent zone ⟨s', t.now + 1, Function.update t.lastUse (crc32 (opKey op)) t.now⟩ := by
  obtain ⟨hnew, hrest⟩ := mem_of_push hq h.sound h' hqs
  have hlt : queueForNode zone (s'.node n) < (drop keep t.store.queues).length := by
    rw [length_drop, h.sound.queueCount]
    exact queueForNode_lt zone _ hq
  have hother : ∀ m ∈ s'.tree.toList, m ≠ n →
      Function.update t.lastUse (crc32 (opKey op)) t.now (s'.node m).hash = t.used m := by
    intro m hm hmn
    have hne : (s'.node m).hash ≠ crc32 (opKey op) := by
      intro he
      exact hmn (Sound.hash_inj h' hm hnew (he.trans hhash.symm))
    rw [Function.update_of_ne hne, hnode m hmn]
    rfl
  have hself : Function.update t.lastUse (crc32 (opKey op)) t.now (s'.node n).hash = t.now := by
    rw [hhash, Function.update_self]
  -- what is still linked behind the new head
  have hkept : ∀ i, ∀ m ∈ bucket (drop keep t.store.queues) i,
      Function.update t.lastUse (crc32 (opKey op)) t.now (s'.node m).hash = t.used m ∧
        t.used m < t.now := by
    intro i m hm
    have hm' : m ∈ s'.tree.toList := by
      refine (mem_queues_iff hq h' m).mp ⟨i, ?_⟩
      rw [hqs]
      exact (mem_bucket_push hlt).mpr (.inr hm)
    refine ⟨hother m hm' (hfresh i m hm), h.past m ?_⟩
    exact (mem_queues_iff hq h.sound m).mp ⟨i, (mem_bucket_drop.mp hm).1⟩
  refine ⟨h', hc', ?_, fun m hm => ?_⟩
  · show NewestFirst _ s'.queues
    rw [hqs]
    have hold : NewestFirst (Timed.used
        ⟨s', t.now + 1, Function.update t.lastUse (crc32 (opKey op)) t.now⟩)
        (drop keep t.store.queues) := by
      refine (h.newest.drop keep).congr ?_
      intro i m hm
      exact (hkept i m hm).1
    refine hold.push hlt ?_
    intro m hm
    have hm := hkept _ m hm
    simp only [Timed.used] at hm ⊢
    rw [hself, hm.1]
    exact hm.2
  · show Function.update t.lastUse (crc32 (opKey op)) t.now (s'.node m).hash < t.now + 1
    by_cases hmn : m = n
    · rw [hmn, hself]
      exact Nat.lt_succ_self _
    · rw [hother m hm hmn]
      exact Nat.lt_succ_of_lt (h.past m (hrest m hm hmn))

theorem step_recent (rb : RbtreeOps) (hq : hasQueues zone = true) (h : Recent zone t)
    (hop : OldSurvives zone t.store op) : Recent zone (timedStep rb zone t op).1 := by
  have he := step_queues rb hq h.sound op hop
  have h' := step_sound rb h.sound op hop
  have hc' := effect_queued hq h.sound h.queued he
  simp only [timedStep]
  generalize step rb zone t.store op = r at he h' hc' ⊢
  obtain ⟨s', a⟩ := r
  simp only at he h' hc' ⊢
  cases he with
  | dropped keep hqs hnode _ hunused _ =>
    rw [hunused]
    refine ⟨h', hc', ?_, fun m hm => ?_⟩
    · show NewestFirst (fun m => t.lastUse (s'.node m).hash) s'.queues
      rw [hqs, hnode]
      exact h.newest.drop keep
    · obtain ⟨i, hi⟩ := (mem_queues_iff hq h' m).mpr hm
      rw [hqs] at hi
      have hold := h.past m ((mem_queues_iff hq h.sound m).mp ⟨i, (mem_bucket_drop.mp hi).1⟩)
      show t.lastUse (s'.node m).hash < t.now + 1
      rw [hnode]
      exact Nat.lt_succ_of_lt hold
  | touched n hl hqs hnode hhash _ hused _ =>
    rw [hused]
    have hkey := hhash.trans ((h.sound.lookup_iff _ _).mp hl).2
    exact recent_push hq h h' hc' hqs hnode hkey fun i => not_mem_drop_self n i _
  | linked keep key v cas alloc hset hqs hnode hhash _ _ _ hused _ =>
    rw [hused]
    have hkey : (s'.node t.store.next).hash = crc32 (opKey op) := by rw [hhash, hset]; rfl
    exact recent_push hq h h' hc' hqs hnode hkey fun i => not_mem_drop_next hq h.sound keep i

theorem run_recent (rb : RbtreeOps) (hq : hasQueues zone = true) (ops : List Op)
    (hops : Meets (timedStep rb zone) (fun t op => OldSurvives zone t.store op) (timedInit zone)
      ops) : Recent zone (exec (timedStep rb zone) (timedInit zone) ops).1 :=
  exec_invariant (timedStep rb zone) (fun t op => OldSurvives zone t.store op) (Recent zone)
    (fun _ _ h hop => step_recent rb hq h hop) ops _ (timedInit_recent zone) hops

end Step

/-! ### Order of eviction -/

/-- Queue `i` is searched before queue `j`: from `start` upwards, then downwards. -/
def SearchedBefore (start i j : ℕ) : Prop :=
  (start ≤ i ∧ (i < j ∨ j < start)) ∨ (i < start ∧ j < i)

/-- An item of `size` bytes evicts node `m` before node `n`. -/
def EvictedBefore (zone : Zone) (t : Timed) (size m n : ℕ) : Prop :=
  match zone.eviction with
  | .slru =>
    let queue := fun x : ℕ => slruIndexForSize zone.pool
      (nodeSize + (t.store.node x).key.length + (t.store.node x).value.length)
    SearchedBefore (slruIndexForSize zone.pool size) (queue m) (queue n) ∨
      (queue m = queue n ∧ t.used m < t.used n)
  | _ => t.used m < t.used n

theorem searchedBefore_pairwise (start n : ℕ) :
    (List.range' start (n - start) ++ (List.range start).reverse).Pairwise
      (SearchedBefore start) := by
  rw [List.pairwise_append]
  refine ⟨?_, ?_, ?_⟩
  · refine List.Pairwise.imp_of_mem ?_ (List.pairwise_lt_range' (s := start) (n := n - start))
    intro i j hi _ hij
    exact .inl ⟨(List.mem_range'_1.mp hi).1, .inl hij⟩
  · rw [List.pairwise_reverse]
    refine List.Pairwise.imp_of_mem ?_ List.pairwise_lt_range
    intro i j _ hj hij
    exact .inr ⟨List.mem_range.mp hj, hij⟩
  · intro i hi j hj
    exact .inl ⟨(List.mem_range'_1.mp hi).1, .inr (List.mem_range.mp (List.mem_reverse.mp hj))⟩

theorem evictionOrder_pairwise {zone : Zone} (hq : hasQueues zone = true) {t : Timed}
    (h : Recent zone t) (size : ℕ) :
    (evictionOrder zone t.store size).Pairwise (EvictedBefore zone t size) := by
  cases hz : zone.eviction with
  | none => simp [hasQueues, hz] at hq
  | lru =>
    have hscan : scanOrder zone size = [0] := by simp only [scanOrder, hz]
    have hp := scan_pairwise (R := fun _ _ => False) (List.pairwise_singleton _ 0) h.queued
      h.newest
    rw [← hscan] at hp
    refine hp.imp ?_
    intro m n hmn
    simp only [EvictedBefore, hz]
    exact (hmn.resolve_left id).2
  | slru =>
    have hp := scan_pairwise (searchedBefore_pairwise (slruIndexForSize zone.pool size)
      zone.pool.slruNqueues) h.queued h.newest
    have hscan : scanOrder zone size = List.range' (slruIndexForSize zone.pool size)
        (zone.pool.slruNqueues - slruIndexForSize zone.pool size) ++
        (List.range (slruIndexForSize zone.pool size)).reverse := by simp only [scanOrder, hz]
    rw [← hscan] at hp
    refine hp.imp ?_
    intro m n hmn
    simpa only [EvictedBefore, hz, queueForNode_slru hz] using hmn

theorem scanOrder_all {zone : Zone} (size i : ℕ) (hi : i < nqueues zone) :
    i ∈ scanOrder zone size := by
  cases hz : zone.eviction with
  | none => simp [nqueues, hz] at hi
  | lru =>
    simp only [nqueues, hz] at hi
    simp only [scanOrder, hz, List.mem_singleton]
    omega
  | slru =>
    simp only [nqueues, hz] at hi
    simp only [scanOrder, hz, List.mem_append, List.mem_range'_1, List.mem_reverse, List.mem_range]
    omega

/-- Repeated evictions reach every entry. -/
theorem mem_evictionOrder {zone : Zone} (hq : hasQueues zone = true) {k : ℕ} {s : KvStore}
    (h : Sound zone k s) (size n : ℕ) :
    n ∈ evictionOrder zone s size ↔ n ∈ s.tree.toList := by
  refine ⟨evictionOrder_linked h, fun hn => ?_⟩
  refine mem_scan ?_ ((h.linked hq).mem_iff.mpr hn)
  intro i hi
  exact scanOrder_all size i (h.queueCount ▸ hi)

/-! ### The allocation loop -/

/-- The executions of `for ( ;; )` that come to an end. -/
inductive AllocRun (rb : RbtreeOps) (zone : Zone) (size : ℕ) (alloc : ℕ → Bool) :
    ℕ → KvStore → KvStore × Bool → Prop where
  | granted (i : ℕ) (s : KvStore) : alloc i = true → AllocRun rb zone size alloc i s (s, true)
  | stuck (i : ℕ) (s : KvStore) : alloc i = false → expireVictim zone s size = none →
    AllocRun rb zone size alloc i s (s, false)
  | expired (i n : ℕ) (s : KvStore) (r : KvStore × Bool) : alloc i = false →
    expireVictim zone s size = some n →
    AllocRun rb zone size alloc (i + 1) (queueExpire rb s n) r → AllocRun rb zone size alloc i s r

theorem allocLoop_run (rb : RbtreeOps) (zone : Zone) (size : ℕ) (alloc : ℕ → Bool) :
    ∀ (fuel i : ℕ) (s : KvStore), Sound zone 0 s →
      (evictionOrder zone s size).length ≤ fuel →
      AllocRun rb zone size alloc i s (allocLoop rb zone size alloc fuel i s) := by
  intro fuel
  induction fuel with
  | zero =>
    intro i s _ hf
    have hnil : evictionOrder zone s size = [] := List.length_eq_zero_iff.mp (Nat.le_zero.mp hf)
    have hv := expireVictim_eq_head zone s size
    rw [hnil] at hv
    simp only [allocLoop]
    cases ha : alloc i with
    | true => exact .granted i s ha
    | false => exact .stuck i s ha hv
  | succ fuel ih =>
    intro i s hs hf
    have hv := expireVictim_eq_head zone s size
    simp only [allocLoop]
    cases ha : alloc i with
    | true =>
      rw [if_pos rfl]
      exact .granted i s ha
    | false =>
      rw [if_neg (by decide)]
      cases ho : expireVictim zone s size with
      | none => exact .stuck i s ha ho
      | some n =>
        rw [ho] at hv
        have hn : n ∈ evictionOrder zone s size := List.mem_of_mem_head? hv.symm
        refine .expired i n s _ ha ho (ih (i + 1) _ ?_ ?_)
        · exact hs.expire rb (evictionOrder_linked hs hn)
        · have hlt : ((evictionOrder zone s size).filter (· ≠ n)).length <
              (evictionOrder zone s size).length :=
            List.length_filter_lt_length_iff_exists.mpr ⟨n, hn, by simp⟩
          rw [evictionOrder_expire]
          omega

theorem frees_expireAll (rb : RbtreeOps) (vs : List ℕ) :
    ∀ s : KvStore, frees (expireAll rb s vs).log = frees s.log ++ vs := by
  induction vs with
  | nil => intro s; simp [expireAll]
  | cons v vs ih =>
    intro s
    show frees (expireAll rb (queueExpire rb s v) vs).log = _
    have hone : frees (queueExpire rb s v).log = frees s.log ++ [v] := by
      show frees (s.log ++ [.treeDelete v, .free v] ++ [.remove (s.node v).hash]) = _
      rw [frees_append, frees_append]
      simp [frees]
    rw [ih, hone, List.append_assoc]
    rfl

/-! ### A set of a new key -/

def KeyAbsent (s : KvStore) (key : Bytes) : Prop := ∀ n ∈ s.tree.toList, (s.node n).key ≠ key

/-- No entry of another key is taken for the entry of `key` and has the counter of the call. -/
def NotMistaken (s : KvStore) (key : Bytes) (cas : ℕ) : Prop :=
  ∀ n ∈ s.tree.toList, crc32 (s.node n).key = crc32 key → (s.node n).key ≠ key →
    (s.node n).cas ≠ cas

/-- Nodes that the call freed, and what became of the others. -/
structure Evicts (zone : Zone) (t : Timed) (size : ℕ) (s' : KvStore) (vs : List ℕ) : Prop where
  freed : frees s'.log = frees t.store.log ++ vs
  ordered : vs.Pairwise (EvictedBefore zone t size)
  gone : ∀ m ∈ vs, m ∈ t.store.tree.toList ∧ m ∉ s'.tree.toList
  kept : ∀ n ∈ t.store.tree.toList, n ∉ vs →
    n ∈ s'.tree.toList ∧ s'.node n = t.store.node n ∧ ∀ m ∈ vs, EvictedBefore zone t size m n

structure SetOutcome (rb : RbtreeOps) (zone : Zone) (t : Timed) (key v : Bytes) (cas : ℕ)
    (alloc : ℕ → Bool) (r : KvStore × Answer) : Prop where
  terminates : AllocRun rb zone (nodeSize + key.length + v.length) alloc 0 t.store
    (allocLoop rb zone (nodeSize + key.length + v.length) alloc t.store.queues.flatten.length 0
      t.store)
  failed : r.2.rc = .error → r.1.tree.toList = []
  stored : r.2.written = some true →
    rbtreeLookup r.1 (crc32 key) = some t.store.next ∧
      r.1.node t.store.next = ⟨crc32 key, key, v, 1⟩
  evicts : ∃ vs, Evicts zone t (nodeSize + key.length + v.length) r.1 vs

section Set

variable {zone : Zone} {t : Timed}

/-- The nodes that a loop frees are the first ones of the order. -/
theorem expireAll_evicts (rb : RbtreeOps) (hq : hasQueues zone = true) (h : Recent zone t)
    {size : ℕ} {vs : List ℕ} (hpre : vs <+: evictionOrder zone t.store size)
    (hmem : ∀ m, m ∈ (expireAll rb t.store vs).tree.toList ↔
      m ∉ vs ∧ m ∈ t.store.tree.toList) :
    Evicts zone t size (expireAll rb t.store vs) vs := by
  have hp := evictionOrder_pairwise hq h size
  obtain ⟨ws, hws⟩ := hpre
  rw [← hws] at hp
  obtain ⟨hvs, -, hvw⟩ := List.pairwise_append.mp hp
  refine ⟨frees_expireAll rb vs _, hvs, fun m hm => ⟨?_, fun hm' => ((hmem m).mp hm').1 hm⟩,
    fun n hn hnv => ⟨(hmem n).mpr ⟨hnv, hn⟩, by rw [expireAll_node], fun m hm => ?_⟩⟩
  · have hmo : m ∈ evictionOrder zone t.store size := by
      rw [← hws]
      exact List.mem_append_left _ hm
    exact evictionOrder_linked h.sound hmo
  · have hno := (mem_evictionOrder hq h.sound size n).mpr hn
    rw [← hws, List.mem_append] at hno
    exact hvw m hm n (hno.resolve_left hnv)

theorem set_refused (rb : RbtreeOps) {s : KvStore} {key : Bytes} {value : Option Bytes} {cas : ℕ}
    {alloc : ℕ → Bool} (h : cas ≠ currentCas s (crc32 key)) :
    kvSetLocked rb zone s key value cas alloc = (s, ⟨.ok, none, none, some false⟩) := by
  simp only [kvSetLocked, if_pos h]

theorem set_new (rb : RbtreeOps) {s : KvStore} {key v : Bytes} {alloc : ℕ → Bool}
    (h : rbtreeLookup s (crc32 key) = none) :
    kvSetLocked rb zone s key (some v) 0 alloc = setAlloc rb zone s key v none alloc := by
  simp only [kvSetLocked, currentCas, h, casOf]
  simp

theorem setAlloc_outcome (rb : RbtreeOps) (hq : hasQueues zone = true) (h : Recent zone t)
    {key v : Bytes} {alloc : ℕ → Bool} (hl : rbtreeLookup t.store (crc32 key) = none) :
    SetOutcome rb zone t key v 0 alloc (setAlloc rb zone t.store key v none alloc) := by
  have hs := h.sound
  obtain ⟨k, hk, heq, -, hend⟩ := allocLoop_eq rb zone (nodeSize + key.length + v.length) alloc _
    0 t.store hs (evictionOrder_length_le hs _)
  have hrun := allocLoop_run rb zone (nodeSize + key.length + v.length) alloc _ 0 t.store hs
    (evictionOrder_length_le hs _)
  have hpre := List.take_prefix k (evictionOrder zone t.store (nodeSize + key.length + v.length))
  have hd := (evictionOrder_nodup hs (nodeSize + key.length + v.length)).sublist hpre.sublist
  have hlinked := fun m hm => evictionOrder_linked hs (hpre.subset (a := m) hm)
  rw [Nat.zero_add] at heq hend
  simp only [setAlloc]
  cases ha : alloc k with
  | false =>
    -- every entry stands in the order, and all of it was evicted
    rw [ha] at heq
    rw [hend ha, List.take_length] at heq
    rw [hend ha, List.take_length] at hpre hd hlinked
    obtain ⟨-, hmem⟩ := expireAll_sound rb _ t.store hs hd hlinked
    refine ⟨hrun, fun _ => ?_, fun hw => ?_,
      evictionOrder zone t.store (nodeSize + key.length + v.length), ?_⟩
    · rw [heq]
      apply List.eq_nil_iff_forall_not_mem.mpr
      intro m hm
      obtain ⟨hnot, hm⟩ := (hmem m).mp hm
      exact hnot ((mem_evictionOrder hq hs _ m).mpr hm)
    · rw [heq] at hw
      exact absurd hw (by simp)
    · rw [heq]
      exact expireAll_evicts rb hq h hpre hmem
  | true =>
    rw [ha] at heq
    generalize List.take k _ = vs at heq hpre hd hlinked
    obtain ⟨hs', hmem⟩ := expireAll_sound rb vs t.store hs hd hlinked
    have hev := expireAll_evicts rb hq h hpre hmem
    have hl' : rbtreeLookup (expireAll rb t.store vs) (crc32 key) = none :=
      lookup_after_evictions hs hs' (expireAll_node rb _ vs) hmem hl fun o ho => absurd ho (by simp)
    have hsound := linkNode_sound rb hs' key v hl'
    obtain ⟨htree, hself, hother, hlog⟩ := linkNode_spec rb hs' key v hl'
    rw [expireAll_next] at htree hself hother
    have hfresh : ∀ m ∈ t.store.tree.toList, m ≠ t.store.next := fun m hm => (hs.live m hm).ne
    rw [heq]
    refine ⟨hrun, fun hrc => absurd hrc (by simp [linkNode, commitNode]), fun _ => ⟨?_, ?_⟩, vs, ?_⟩
    · refine (hsound.lookup_iff _ _).mpr ⟨(htree _).mpr (.inl rfl), ?_⟩
      rw [hself]
    · simp only [hself, currentCas, hl', casOf]
      rfl
    · refine ⟨?_, hev.ordered, fun m hm => ⟨(hev.gone m hm).1, fun hm' => ?_⟩,
        fun n hn hnv => ⟨?_, ?_, (hev.kept n hn hnv).2.2⟩⟩
      · show frees (linkNode rb zone _ key v none).1.log = _
        rw [hlog, frees_append, frees_append, hev.freed]
        simp [retired, frees]
      · rcases (htree m).mp hm' with he | ⟨he, -⟩
        · exact hfresh m (hev.gone m hm).1 he
        · exact (hev.gone m hm).2 he
      · exact (htree n).mpr (.inr ⟨(hev.kept n hn hnv).1, by simp⟩)
      · rw [hother n (hfresh n hn)]
        exact (hev.kept n hn hnv).2.1

end Set

/-- After any history without a node that is freed twice, a set of an absent key evicts the
least recently used entries, queue by queue, unless it takes another key's entry for its own. -/
theorem set_evicts_in_order (rb : RbtreeOps) (zone : Zone) (hz : zone.eviction ≠ .none)
    (ops : List Op) (key v : Bytes) (cas : ℕ) (alloc : ℕ → Bool)
    (hops : Meets (timedStep rb zone) (fun t op => OldSurvives zone t.store op) (timedInit zone)
      ops)
    (habsent : KeyAbsent (exec (timedStep rb zone) (timedInit zone) ops).1.store key)
    (hcrc : NotMistaken (exec (timedStep rb zone) (timedInit zone) ops).1.store key cas) :
    let t := (exec (timedStep rb zone) (timedInit zone) ops).1
    SetOutcome rb zone t key v cas alloc (kvSetLocked rb zone t.store key (some v) cas alloc) := by
  have hq : hasQueues zone = true := by
    cases he : zone.eviction <;> simp_all [hasQueues]
  have h := run_recent rb hq ops hops
  generalize (exec (timedStep rb zone) (timedInit zone) ops).1 = t at habsent hcrc h ⊢
  dsimp only
  by_cases hne : cas = currentCas t.store (crc32 key)
  · cases hl : rbtreeLookup t.store (crc32 key) with
    | none =>
      have hzero : cas = 0 := by rw [hne, currentCas, hl, casOf]
      rw [hzero, set_new rb hl]
      exact setAlloc_outcome rb hq h hl
    | some n =>
      -- an entry with the hash of an absent key belongs to another key
      obtain ⟨hn, hh⟩ := (h.sound.lookup_iff _ _).mp hl
      have hsame := (h.sound.hashed n hn).symm.trans hh
      refine absurd ?_ (hcrc n hn hsame (habsent n hn))
      rw [hne, currentCas, hl, casOf]
  · simp only [set_refused rb hne]
    have hrun := allocLoop_run rb zone (nodeSize + key.length + v.length) alloc _ 0 t.store h.sound
      (evictionOrder_length_le h.sound _)
    refine ⟨hrun, fun hrc => absurd hrc (by simp), fun hw => absurd hw (by simp), [],
      (List.append_nil _).symm, List.Pairwise.nil, by simp, ?_⟩
    exact fun n hn _ => ⟨hn, rfl, by simp⟩

/-- Two entries fill the zone; the first one was read last, so the second one goes. -/
theorem set_evicts_unread :
    SetOutcome (listOps ℕ Node.hash) lruZone (exec (timedStep (listOps ℕ Node.hash) lruZone)
      (timedInit lruZone) [.set [97] (some [1]) 0 fun _ => true,
        .set [98] (some [2]) 0 fun _ => true, .get [97]]).1 [99] [3] 0 (fun i => i == 1)
      (kvSetLocked (listOps ℕ Node.hash) lruZone (exec (timedStep (listOps ℕ Node.hash) lruZone)
        (timedInit lruZone) [.set [97] (some [1]) 0 fun _ => true,
          .set [98] (some [2]) 0 fun _ => true, .get [97]]).1.store [99] (some [3]) 0
        (fun i => i == 1)) := by
  refine set_evicts_in_order _ lruZone (by decide) _ [99] [3] 0 _ ?_ ?_ ?_
  · exact ⟨fun _ _ n _ => spared_first .., fun _ _ n _ => spared_first .., trivial, trivial⟩
  · unfold KeyAbsent
    decide
  · unfold NotMistaken
    decide

/-- `plumless` and `buckeroo` have the same crc32. -/
theorem mistaken_set_overwrites :
    KeyAbsent (exec (timedStep (listOps ℕ Node.hash) lruZone) (timedInit lruZone)
      [.set [112, 108, 117, 109, 108, 101, 115, 115] (some [1, 2]) 0 fun _ => true]).1.store
      [98, 117, 99, 107, 101, 114, 111, 111] ∧
    ¬ SetOutcome (listOps ℕ Node.hash) lruZone (exec (timedStep (listOps ℕ Node.hash) lruZone)
      (timedInit lruZone)
        [.set [112, 108, 117, 109, 108, 101, 115, 115] (some [1, 2]) 0 fun _ => true]).1
      [98, 117, 99, 107, 101, 114, 111, 111] [3] 1 (fun _ => true)
      (kvSetLocked (listOps ℕ Node.hash) lruZone (exec (timedStep (listOps ℕ Node.hash) lruZone)
        (timedInit lruZone)
          [.set [112, 108, 117, 109, 108, 101, 115, 115] (some [1, 2]) 0 fun _ => true]).1.store
        [98, 117, 99, 107, 101, 114, 111, 111] (some [3]) 1 (fun _ => true)) := by
  refine ⟨by unfold KeyAbsent; decide, fun h => ?_⟩
  obtain ⟨vs, hvs⟩ := h.evicts
  -- the node is still linked, so it was not evicted, and yet its value is another one
  have hnot : 0 ∉ vs := fun hm => (hvs.gone 0 hm).2 (by decide)
  have hsame := (hvs.kept 0 (by decide) hnot).2.1
  exact absurd hsame (by decide)

end NgxWasm.Shm.KvRecency
