import NgxWasm.Shm.KvQueues

/-!
# Queues and slab slots under SLRU eviction (docs/SLRU.md)

Evicting from a queue is meant to free a block of the slab slot that the queue
stands for. The queue of a node is computed from the present length of its
value; its block keeps the size of its allocation.
-/

namespace NgxWasm.Shm.KvSlots
open NgxWasm.Lib SearchTree Run Buckets NgxWasm.Shm.Kv NgxWasm.Shm.KvInvariant NgxWasm.Shm.KvEvict
open NgxWasm.Shm.KvMap NgxWasm.Shm.KvQueues

/-! ### Sizes of blocks -/

/-- The store together with the size that each block was allocated with. -/
structure Sized where
  store : KvStore
  size : ℕ → ℕ

def requestedSize : Op → ℕ
  | .set key (some value) _ _ => nodeSize + key.length + value.length
  | _ => 0

def sizedInit (zone : Zone) : Sized := ⟨kvInit zone, fun _ => 0⟩

def sizedStep (rb : RbtreeOps) (zone : Zone) (t : Sized) (op : Op) : Sized × Answer :=
  let r := step rb zone t.store op
  (⟨r.1, if r.1.next = t.store.next then t.size
    else Function.update t.size t.store.next (requestedSize op)⟩, r.2)

/-- Each node is linked in the queue of the slot that its block comes from, and nowhere else. -/
structure InSlots (zone : Zone) (t : Sized) : Prop where
  below : ∀ n ∈ t.store.tree.toList,
    slruIndexForSize zone.pool (t.size n) < t.store.queues.length
  linked : ∀ n ∈ t.store.tree.toList, ∀ i,
    n ∈ bucket t.store.queues i ↔ i = slruIndexForSize zone.pool (t.size n)

/-- An overwrite that reuses a block leaves an item of the same slot in it. -/
def SameSlot (zone : Zone) (s : KvStore) (op : Op) : Prop :=
  ∀ n v, Reuses s n v op →
    slruIndexForSize zone.pool (nodeSize + (s.node n).key.length + v.length) =
      slruIndexForSize zone.pool (nodeSize + (s.node n).key.length + (s.node n).value.length)

/-! ### The queue of a node -/

abbrev Queued (zone : Zone) (s : KvStore) : Prop :=
  Classed (fun n => queueForNode zone (s.node n)) s.queues

theorem mem_queues_iff {zone : Zone} (hq : hasQueues zone = true) {k : ℕ} {s : KvStore}
    (h : Sound zone k s) (n : ℕ) : (∃ i, n ∈ bucket s.queues i) ↔ n ∈ s.tree.toList := by
  rw [← mem_flatten_iff]
  exact (h.linked hq).mem_iff

theorem kvInit_queued (zone : Zone) : Queued zone (kvInit zone) := by
  intro i n hn
  have := bucket_subset _ i hn
  simp [kvInit] at this

section Queued

variable {rb : RbtreeOps} {zone : Zone} {s s' : KvStore} {op : Op} {a : Answer}

theorem queued_push (hq : hasQueues zone = true) (h : Sound zone 0 s) (hc : Queued zone s)
    {n : ℕ} {keep : ℕ → Bool}
    (hqs : s'.queues = push (queueForNode zone (s'.node n)) n (drop keep s.queues))
    (hnode : ∀ m ≠ n, s'.node m = s.node m)
    (hfresh : ∀ i, ∀ m ∈ bucket (drop keep s.queues) i, m ≠ n) : Queued zone s' := by
  have hrest : Classed (fun m => queueForNode zone (s'.node m)) (drop keep s.queues) := by
    refine (hc.drop keep).congr ?_
    intro i m hm
    rw [hnode m (hfresh i m hm)]
  have hlt : queueForNode zone (s'.node n) < (drop keep s.queues).length := by
    rw [length_drop, h.queueCount]
    exact queueForNode_lt zone _ hq
  rw [Queued, hqs]
  exact hrest.push hlt

/-- Nodes that a call leaves linked, other than the one it puts at the head of a queue. -/
theorem mem_of_push (hq : hasQueues zone = true) (h : Sound zone 0 s) (h' : Sound zone 0 s')
    {n : ℕ} {keep : ℕ → Bool}
    (hqs : s'.queues = push (queueForNode zone (s'.node n)) n (drop keep s.queues)) :
    n ∈ s'.tree.toList ∧ ∀ m ∈ s'.tree.toList, m ≠ n → m ∈ s.tree.toList := by
  have hlt : queueForNode zone (s'.node n) < (drop keep s.queues).length := by
    rw [length_drop, h.queueCount]
    exact queueForNode_lt zone _ hq
  refine ⟨(mem_queues_iff hq h' n).mp ⟨queueForNode zone (s'.node n), ?_⟩, fun m hm hmn => ?_⟩
  · rw [hqs]
    exact (mem_bucket_push hlt).mpr (.inl ⟨rfl, rfl⟩)
  · obtain ⟨i, hi⟩ := (mem_queues_iff hq h' m).mpr hm
    rw [hqs] at hi
    have hold := ((mem_bucket_push hlt).mp hi).resolve_left fun hne => hmn hne.2
    exact (mem_queues_iff hq h m).mp ⟨i, (mem_bucket_drop.mp hold).1⟩

theorem not_mem_drop_self (n i : ℕ) (qs : List (List ℕ)) :
    ∀ m ∈ bucket (drop (· ≠ n) qs) i, m ≠ n := by
  intro m hm
  simpa using (mem_bucket_drop.mp hm).2

theorem not_mem_drop_next (hq : hasQueues zone = true) (h : Sound zone 0 s) (keep : ℕ → Bool)
    (i : ℕ) : ∀ m ∈ bucket (drop keep s.queues) i, m ≠ s.next := by
  intro m hm
  exact (h.live m ((mem_queues_iff hq h m).mp ⟨i, (mem_bucket_drop.mp hm).1⟩)).ne

theorem effect_queued (hq : hasQueues zone = true) (h : Sound zone 0 s) (hc : Queued zone s)
    (he : QueueEffect zone s op s' a) : Queued zone s' := by
  cases he with
  | dropped keep hqs hnode =>
    rw [Queued, hqs, hnode]
    exact hc.drop keep
  | touched n _ hqs hnode =>
    exact queued_push hq h hc hqs hnode fun i => not_mem_drop_self n i s.queues
  | linked keep key v cas alloc _ hqs hnode =>
    exact queued_push hq h hc hqs hnode fun i => not_mem_drop_next hq h keep i

end Queued

/-! ### Slots along a run -/

section Slots

variable {zone : Zone} (hz : zone.eviction = .slru)
include hz

theorem slru_hasQueues : hasQueues zone = true := by
  simp only [hasQueues, hz]

theorem queueForNode_slru (n : Node) : queueForNode zone n =
    slruIndexForSize zone.pool (nodeSize + n.key.length + n.value.length) := by
  simp only [queueForNode, hz]

theorem inSlots_iff {t : Sized} (h : Sound zone 0 t.store) (hc : Queued zone t.store) :
    InSlots zone t ↔ ∀ n ∈ t.store.tree.toList,
      queueForNode zone (t.store.node n) = slruIndexForSize zone.pool (t.size n) := by
  have hq := slru_hasQueues hz
  constructor
  · intro hs n hn
    obtain ⟨i, hi⟩ := (mem_queues_iff hq h n).mpr hn
    exact (hc i n hi).trans ((hs.linked n hn i).mp hi)
  · intro heq
    refine ⟨fun n hn => ?_, fun n hn i => ⟨fun hi => ?_, fun hi => ?_⟩⟩
    · rw [h.queueCount, ← heq n hn]
      exact queueForNode_lt zone _ hq
    · rw [← heq n hn]
      exact (hc i n hi).symm
    · obtain ⟨j, hj⟩ := (mem_queues_iff hq h n).mpr hn
      have hji : j = i := (hc j n hj).symm.trans ((heq n hn).trans hi.symm)
      exact hji ▸ hj

theorem step_slots_iff (rb : RbtreeOps) {t : Sized} {op : Op} (h : Sound zone 0 t.store)
    (hc : Queued zone t.store) (hs : InSlots zone t) (hop : OldSurvives zone t.store op) :
    InSlots zone (sizedStep rb zone t op).1 ↔ SameSlot zone t.store op := by
  have hq := slru_hasQueues hz
  have he := step_queues rb hq h op hop
  have h' := step_sound rb h op hop
  have hc' := effect_queued hq h hc he
  have hs := (inSlots_iff hz h hc).mp hs
  rw [inSlots_iff hz (t := (sizedStep rb zone t op).1) h' hc']
  simp only [sizedStep]
  generalize (step rb zone t.store op).1 = s' at he h' ⊢
  cases he with
  | dropped keep hqs hnode hnext _ hnone =>
    refine iff_of_true (fun n hn => ?_) fun n v hr => absurd hr (hnone n v)
    obtain ⟨i, hi⟩ := (mem_queues_iff hq h' n).mpr hn
    rw [hqs] at hi
    rw [if_pos hnext, hnode]
    exact hs n ((mem_queues_iff hq h n).mp ⟨i, (mem_bucket_drop.mp hi).1⟩)
  | touched n hl hqs hnode _ hnext _ hval =>
    obtain ⟨hn, -⟩ := (h.lookup_iff _ _).mp hl
    obtain ⟨hnew, hrest⟩ := mem_of_push hq h h' hqs
    -- only the touched node can have left the queue of its slot
    have hone : (∀ m ∈ s'.tree.toList, queueForNode zone (s'.node m) =
        slruIndexForSize zone.pool (t.size m)) ↔
        queueForNode zone (s'.node n) = queueForNode zone (t.store.node n) := by
      rw [hs n hn]
      refine ⟨fun hall => hall n hnew, fun heq m hm => ?_⟩
      by_cases hmn : m = n
      · rw [hmn, heq]
      · rw [hnode m hmn]
        exact hs m (hrest m hm hmn)
    rw [if_pos hnext, hone]
    rcases hval with ⟨hsame, hnone⟩ | ⟨v, hr, hkey, hv⟩
    · rw [hsame]
      exact iff_of_true rfl fun m v hr => absurd hr (hnone m v)
    · rw [queueForNode_slru hz, queueForNode_slru hz, hkey, hv]
      constructor
      · intro heq m w hw
        obtain rfl : n = m := Option.some.inj (hr.found.symm.trans hw.found)
        cases op with
        | get key => exact absurd hw id
        | set key value cas alloc =>
          cases value with
          | none => exact absurd hw id
          | some x =>
            obtain rfl : v = w := hr.1.symm.trans hw.1
            exact heq
      · intro hsame
        exact hsame n v hr
  | linked keep key v cas alloc hset hqs hnode _ hkey hv hnext _ hnone =>
    refine iff_of_true (fun m hm => ?_) fun n w hr => absurd hr (hnone n w)
    obtain ⟨-, hrest⟩ := mem_of_push hq h h' hqs
    rw [if_neg (by omega)]
    by_cases hmn : m = t.store.next
    · rw [hmn, Function.update_self, queueForNode_slru hz, hkey, hv, hset]
      rfl
    · rw [Function.update_of_ne hmn, hnode m hmn]
      exact hs m (hrest m hm hmn)

/-- In a run in which no overwrite replaces a node that its own retries evicted, every node
stays in the queue of its slot exactly when each overwrite of a block keeps the slot. -/
theorem slots_match_iff (rb : RbtreeOps) (ops : List Op)
    (hops : Meets (sizedStep rb zone) (fun t op => OldSurvives zone t.store op) (sizedInit zone)
      ops) :
    (∀ k, InSlots zone (exec (sizedStep rb zone) (sizedInit zone) (ops.take k)).1) ↔
      Meets (sizedStep rb zone) (fun t op => SameSlot zone t.store op) (sizedInit zone) ops := by
  refine prefixes_iff_within (sizedStep rb zone)
    (I := fun t => Sound zone 0 t.store ∧ Queued zone t.store) ?_ ?_ ops _
    ⟨kvInit_sound zone, kvInit_queued zone⟩ ?_ hops
  · intro t op hi _ hop _
    have hq := slru_hasQueues hz
    exact ⟨step_sound rb hi.1 op hop, effect_queued hq hi.1 hi.2 (step_queues rb hq hi.1 op hop)⟩
  · intro t op hi hs hop
    exact step_slots_iff hz rb hi.1 hi.2 hs hop
  · rw [inSlots_iff hz (kvInit_sound zone) (kvInit_queued zone)]
    intro n hn
    simp [sizedInit, kvInit, Tree.toList] at hn

end Slots

def slruZone : Zone := ⟨.slru, lruZone.pool⟩

theorem spared_first (zone : Zone) (s : KvStore) (size n : ℕ) :
    Spared zone s size (fun _ => true) n := ⟨0, Nat.zero_le _, rfl⟩

/-- A value that stays above 128 bytes of block keeps its node where it is. -/
theorem slots_match_same_slot :
    (∀ k, InSlots slruZone (exec (sizedStep (listOps ℕ Node.hash) slruZone) (sizedInit slruZone)
      ([.set [97] (some (List.replicate 40 1)) 0 fun _ => true,
        .set [97] (some (List.replicate 32 2)) 1 fun _ => true, .get [97]].take k)).1) ↔
      Meets (sizedStep (listOps ℕ Node.hash) slruZone) (fun t op => SameSlot slruZone t.store op)
        (sizedInit slruZone)
        [.set [97] (some (List.replicate 40 1)) 0 fun _ => true,
          .set [97] (some (List.replicate 32 2)) 1 fun _ => true, .get [97]] := by
  apply slots_match_iff rfl
  exact ⟨fun _ _ n _ => spared_first .., fun _ _ n _ => spared_first .., trivial, trivial⟩

/-- A value of 32 bytes that is overwritten by one byte: the block belongs to
slot 5, the node is moved to queue 4. -/
theorem shrunk_value_leaves_slot :
    ¬ ∀ k, InSlots slruZone (exec (sizedStep (listOps ℕ Node.hash) slruZone) (sizedInit slruZone)
      ([.set [97] (some (List.replicate 32 1)) 0 fun _ => true,
        .set [97] (some [2]) 1 fun _ => true].take k)).1 := by
  intro h
  have hfive := ((h 2).linked 0 (by decide) 5).mpr (by decide)
  exact absurd hfive (by decide)

end NgxWasm.Shm.KvSlots
