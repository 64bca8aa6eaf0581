import NgxWasm.Lib.Buckets
import NgxWasm.Shm.KvMap

/-!
# What a call does to the queues

A call drops nodes from their queues, moves the node it found to the head of
the queue of its size, or puts a new node there. Everything about the order of
the queues is derived from this case distinction.
-/

namespace NgxWasm.Shm.KvQueues
open NgxWasm.Lib SearchTree Run Buckets NgxWasm.Shm.Kv NgxWasm.Shm.KvInvariant NgxWasm.Shm.KvEvict
open NgxWasm.Shm.KvEffect NgxWasm.Shm.KvMap

/-- The call is a successful get, or a set that wrote a value. -/
def uses : Op → Answer → Bool
  | .get _, a => a.rc == .ok
  | .set _ (some _) _ _, a => a.written == some true
  | .set _ none _ _, _ => false

/-- The call stores `v` in the block of node `n`. -/
def Reuses (s : KvStore) (n : ℕ) (v : Bytes) : Op → Prop
  | .set key (some w) cas _ =>
    w = v ∧ rbtreeLookup s (crc32 key) = some n ∧ cas = (s.node n).cas ∧
      w.length ≤ (s.node n).value.length
  | _ => False

inductive QueueEffect (zone : Zone) (s : KvStore) (op : Op) (s' : KvStore) (a : Answer) : Prop where
  | dropped (keep : ℕ → Bool) :
    s'.queues = drop keep s.queues → s'.node = s.node → s'.next = s.next →
    uses op a = false → (∀ n v, ¬ Reuses s n v op) → QueueEffect zone s op s' a
  | touched (n : ℕ) :
    rbtreeLookup s (crc32 (opKey op)) = some n →
    s'.queues = push (queueForNode zone (s'.node n)) n (drop (· ≠ n) s.queues) →
    (∀ m ≠ n, s'.node m = s.node m) → (s'.node n).hash = (s.node n).hash →
    s'.next = s.next → uses op a = true →
    (s'.node n = s.node n ∧ ∀ m v, ¬ Reuses s m v op) ∨
      (∃ v, Reuses s n v op ∧ (s'.node n).key = (s.node n).key ∧ (s'.node n).value = v) →
    QueueEffect zone s op s' a
  | linked (keep : ℕ → Bool) (key v : Bytes) (cas : ℕ) (alloc : ℕ → Bool) :
    op = .set key (some v) cas alloc →
    s'.queues = push (queueForNode zone (s'.node s.next)) s.next (drop keep s.queues) →
    (∀ m ≠ s.next, s'.node m = s.node m) → (s'.node s.next).hash = crc32 key →
    (s'.node s.next).key = key → (s'.node s.next).value = v →
    s'.next = s.next + 1 → uses op a = true → (∀ n w, ¬ Reuses s n w op) →
    QueueEffect zone s op s' a

theorem queueForNode_congr (zone : Zone) {m n : Node} (hk : m.key = n.key)
    (hv : m.value = n.value) : queueForNode zone m = queueForNode zone n := by
  simp only [queueForNode, hk, hv]

theorem Reuses.found {s : KvStore} {n : ℕ} {v : Bytes} {op : Op} (h : Reuses s n v op) :
    rbtreeLookup s (crc32 (opKey op)) = some n := by
  cases op with
  | get key => exact absurd h id
  | set key value cas alloc =>
    cases value with
    | none => exact absurd h id
    | some w => exact h.2.1

/-! ### The parts of a call -/

theorem queueTouch_queues {zone : Zone} (hq : hasQueues zone = true) (s : KvStore) (n : ℕ) :
    (queueTouch zone s n).queues =
      push (queueForNode zone (s.node n)) n (drop (· ≠ n) s.queues) := by
  simp only [queueTouch, hq, if_true]
  rfl

@[simp] theorem queueTouch_next (zone : Zone) (s : KvStore) (n : ℕ) :
    (queueTouch zone s n).next = s.next := by
  unfold queueTouch; split <;> rfl

theorem expireAll_queues (rb : RbtreeOps) (vs : List ℕ) :
    ∀ s : KvStore, (expireAll rb s vs).queues = drop (· ∉ vs) s.queues := by
  induction vs with
  | nil => intro s; simp [expireAll]
  | cons v vs ih =>
    intro s
    show (expireAll rb (queueExpire rb s v) vs).queues = _
    have hone : (queueExpire rb s v).queues = drop (· ≠ v) s.queues := rfl
    rw [ih, hone, drop_drop]
    congr 1
    funext a
    by_cases hav : a = v <;> simp [hav]

@[simp] theorem expireAll_next (rb : RbtreeOps) (s : KvStore) (vs : List ℕ) :
    (expireAll rb s vs).next = s.next := by
  induction vs generalizing s with
  | nil => rfl
  | cons v vs ih => exact ih (queueExpire rb s v)

theorem deleteNode_queues (rb : RbtreeOps) {zone : Zone} {s : KvStore} (h : Sound zone 0 s)
    (n : ℕ) : (deleteNode rb zone s n).1.queues = drop (· ≠ n) s.queues := by
  rw [deleteNode_fst rb h n]
  rfl

/-- The replaced node, if there is one, leaves its queue. -/
theorem retireOld_queues (rb : RbtreeOps) {zone : Zone} {s : KvStore} (h : Sound zone 0 s)
    (old : Option ℕ) :
    (retireOld rb zone s old).queues = drop (fun m => some m ≠ old) s.queues := by
  cases old with
  | none => simp [retireOld]
  | some o =>
    rw [retireOld, nodeQueueRemove_eq h]
    simp only [ne_eq, Option.some.injEq]
    rfl

theorem linkNode_queues (rb : RbtreeOps) {zone : Zone} (hq : hasQueues zone = true) {s : KvStore}
    (h : Sound zone 0 s) (key value : Bytes) {old : Option ℕ}
    (ho : rbtreeLookup s (crc32 key) = old) :
    let s' := (linkNode rb zone s key value old).1
    s'.queues = push (queueForNode zone (s'.node s.next)) s.next
      (drop (fun m => some m ≠ old) s.queues) ∧ s'.next = s.next + 1 := by
  obtain ⟨-, hself, -, -⟩ := linkNode_spec rb h key value ho
  have hold : ∀ o, old = some o → o ∈ s.tree.toList := by
    intro o he
    subst he
    exact ((h.lookup_iff _ _).mp ho).1
  generalize hx : Node.mk (crc32 key) key value (casOf s old) = x
  obtain ⟨-, -, hnode, hnext, -⟩ := retireOld_spec rb (h.alloc x) old hold
  have hret := retireOld_queues rb (h.alloc x) old
  have hslot : queueForNode zone x =
      queueForNode zone ((linkNode rb zone s key value old).1.node s.next) := by
    apply queueForNode_congr <;> rw [hself, ← hx]
  refine ⟨?_, ?_⟩
  · rw [← hslot]
    simp only [linkNode, hx, commitNode, insertNode, hq, if_true, queueInsertHead, hret, hnode]
    show push (queueForNode zone (Function.update s.node s.next x s.next)) _ _ = _
    rw [Function.update_self]
    rfl
  · simp only [linkNode, hx, commitNode, insertNode_next, hnext]
    rfl

theorem setInPlace_queues {zone : Zone} (hq : hasQueues zone = true) (s : KvStore) (n : ℕ)
    (key value : Bytes) :
    let s' := (setInPlace zone s n key value).1
    s'.queues = push (queueForNode zone (s'.node n)) n (drop (· ≠ n) s.queues) ∧
      (∀ m ≠ n, s'.node m = s.node m) ∧
      s'.node n = { s.node n with value := value, cas := ((s.node n).cas + 1) % 2 ^ 32 } ∧
      s'.next = s.next := by
  have hself : (setInPlace zone s n key value).1.node n =
      { s.node n with value := value, cas := ((s.node n).cas + 1) % 2 ^ 32 } := by
    simp only [setInPlace, commitNode, queueTouch_node, Function.update_self]
  refine ⟨?_, fun m hm => ?_, hself, ?_⟩
  · simp only [hself]
    show (queueTouch zone { s with node := _ } n).queues = _
    rw [queueTouch_queues hq]
    simp only [Function.update_self]
    rfl
  · simp only [setInPlace, commitNode, queueTouch_node, Function.update_of_ne hm]
  · simp only [setInPlace, commitNode, queueTouch_next]

theorem needsBlock_not_reuses {s : KvStore} {key value : Bytes} (h : NeedsBlock s key value)
    (cas : ℕ) (alloc : ℕ → Bool) (n : ℕ) (w : Bytes) :
    ¬ Reuses s n w (.set key (some value) cas alloc) := by
  intro hr
  obtain ⟨rfl, hl, -, hle⟩ := hr
  exact absurd (h n hl) (Nat.not_lt.mpr hle)

/-! ### One call -/

theorem setAlloc_queues (rb : RbtreeOps) {zone : Zone} (hq : hasQueues zone = true) {s : KvStore}
    (h : Sound zone 0 s) (key value : Bytes) (cas : ℕ) (alloc : ℕ → Bool)
    (hb : NeedsBlock s key value)
    (hkeep : ∀ o, rbtreeLookup s (crc32 key) = some o → Obtains zone s key value alloc →
      Spared zone s (nodeSize + key.length + value.length) alloc o) :
    let r := setAlloc rb zone s key value (rbtreeLookup s (crc32 key)) alloc
    QueueEffect zone s (.set key (some value) cas alloc) r.1 r.2 := by
  obtain ⟨vs, hpre, hfst, hs, hmem, hok, hspared⟩ :=
    allocLoop_spec rb h (nodeSize + key.length + value.length) alloc
  have hnone := needsBlock_not_reuses hb cas alloc
  simp only [setAlloc]
  split
  · rename_i s' hloop
    rw [hloop] at hfst
    rw [show s' = expireAll rb s vs from hfst]
    exact .dropped _ (expireAll_queues rb vs s) (expireAll_node rb s vs) (expireAll_next rb s vs)
      rfl hnone
  · rename_i s' hloop
    rw [hloop] at hfst hok
    rw [show s' = expireAll rb s vs from hfst]
    have hold : rbtreeLookup (expireAll rb s vs) (crc32 key) = rbtreeLookup s (crc32 key) :=
      lookup_after_evictions h hs (expireAll_node rb s vs) hmem rfl
        fun o ho => hspared o (hkeep o ho (hok rfl))
    obtain ⟨hqs, hnext⟩ := linkNode_queues rb hq hs key value hold
    obtain ⟨-, hself, hother, -⟩ := linkNode_spec rb hs key value hold
    simp only [expireAll_next, expireAll_node, expireAll_queues, drop_drop] at hqs hnext hself hother
    exact .linked _ key value cas alloc rfl hqs hother (by rw [hself]) (by rw [hself])
      (by rw [hself]) hnext rfl hnone

theorem step_queues (rb : RbtreeOps) {zone : Zone} (hq : hasQueues zone = true) {s : KvStore}
    (h : Sound zone 0 s) (op : Op) (hop : OldSurvives zone s op) :
    QueueEffect zone s op (step rb zone s op).1 (step rb zone s op).2 := by
  cases op with
  | get key =>
    simp only [step, kvGetLocked, Option.getD_none]
    split
    · exact .dropped (fun _ => true) (drop_true _).symm rfl rfl rfl fun _ _ => id
    · rename_i n hl
      refine .touched n hl ?_ (fun m _ => by rw [queueTouch_node]) (by rw [queueTouch_node])
        (queueTouch_next ..) rfl (.inl ⟨by rw [queueTouch_node], fun _ _ => id⟩)
      rw [queueTouch_node]
      exact queueTouch_queues hq s n
  | set key value cas alloc =>
    simp only [step]
    have hb := kvSetLocked_branch rb zone s key value cas alloc
    generalize kvSetLocked rb zone s key value cas alloc = r at hb ⊢
    cases hb with
    | refused hwhy =>
      refine .dropped (fun _ => true) (drop_true _).symm rfl rfl ?_ ?_
      · cases value <;> rfl
      · intro n v hr
        cases value with
        | none => exact hr
        | some w =>
          obtain ⟨-, hl, hcas, -⟩ := hr
          rcases hwhy with hne | ⟨hv, -⟩
          · exact hne (by rw [hcas, currentCas, hl, casOf])
          · exact absurd hv (by simp)
    | deleted n _ hv _ =>
      subst hv
      have heq := deleteNode_fst rb h n
      exact .dropped _ (deleteNode_queues rb h n) (by rw [heq]; rfl) (by rw [heq]; rfl) rfl
        fun _ _ => id
    | allocated v hcas hv hlen =>
      subst hv
      exact setAlloc_queues rb hq h key v cas alloc hlen
        fun o ho hob => hop ⟨hcas, fun _ => hob⟩ hlen o ho
    | inPlace v n hcas hv hl hle =>
      subst hv
      obtain ⟨hqs, hother, hself, hnext⟩ := setInPlace_queues hq s n key v
      exact .touched n hl hqs hother (by rw [hself]) hnext rfl
        (.inr ⟨v, ⟨rfl, hl, hcas, hle⟩, by rw [hself], by rw [hself]⟩)

end NgxWasm.Shm.KvQueues
