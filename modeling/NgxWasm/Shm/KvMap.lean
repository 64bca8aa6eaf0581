import NgxWasm.Shm.KvEffect
import Mathlib.Data.Set.Function

/-!
# The store as a map from strings

Without evictions the store answers like a map from key strings exactly when
the keys in use have pairwise different crc32: the tree search compares nothing
but the hash.
-/

namespace NgxWasm.Shm.KvMap

set_option maxRecDepth 8192
open NgxWasm.Lib SearchTree Run NgxWasm.Shm.Kv NgxWasm.Shm.KvInvariant NgxWasm.Shm.KvEvict
open NgxWasm.Shm.KvEffect

/-! ### Specification -/

structure Reply where
  rc : Rc
  value : Option Bytes
  cas : Option ℕ
  written : Option Bool
  deriving Repr, DecidableEq

abbrev StringMap := Bytes → Option (Bytes × ℕ)

def entryCas : Option (Bytes × ℕ) → ℕ
  | none => 0
  | some (_, cas) => cas

def fits (v : Bytes) : Option (Bytes × ℕ) → Bool
  | none => false
  | some (w, _) => v.length ≤ w.length

/-- The map that the store stands for: an operation reads and writes its own key only. -/
def mapStep (m : StringMap) : Op → StringMap × Reply
  | .get key =>
    match m key with
    | none => (m, ⟨.declined, none, none, none⟩)
    | some (v, cas) => (m, ⟨.ok, some v, some cas, none⟩)
  | .set key value cas alloc =>
    if cas ≠ entryCas (m key) then (m, ⟨.ok, none, none, some false⟩)
    else
      match value, m key with
      | none, none => (m, ⟨.ok, none, none, some false⟩)
      | none, some _ => (Function.update m key none, ⟨.ok, none, none, some true⟩)
      | some v, e =>
        if fits v e || alloc 0 then
          (Function.update m key (some (v, (cas + 1) % 2 ^ 32)), ⟨.ok, none, none, some true⟩)
        else (m, ⟨.error, none, none, none⟩)

def kvStep (rb : RbtreeOps) (zone : Zone) (s : KvStore) (op : Op) : KvStore × Reply :=
  let r := step rb zone s op
  (r.1, ⟨r.2.rc, r.2.valueOut.map fun n => (r.1.node n).value, r.2.cas, r.2.written⟩)

def opKey : Op → Bytes
  | .get key => key
  | .set key _ _ _ => key

/-! ### Entries -/

def entry (s : KvStore) (hash : ℕ) : Option (Bytes × ℕ) :=
  (rbtreeLookup s hash).map fun n => ((s.node n).value, (s.node n).cas)

theorem currentCas_entry (s : KvStore) (hash : ℕ) : currentCas s hash = entryCas (entry s hash) := by
  unfold currentCas entry
  cases rbtreeLookup s hash <;> rfl

theorem entry_kept {hash : ℕ} {s s' : KvStore} (h : Kept hash s s') :
    entry s' hash = entry s hash := by
  unfold entry
  rw [h.lookup]
  cases hl : rbtreeLookup s hash with
  | none => rfl
  | some n => simp only [Option.map_some, h.node n hl]

theorem entry_removed {hash : ℕ} {s s' : KvStore} (h : Removed hash s s') :
    entry s' hash = none := by
  rw [entry, h.gone, Option.map_none]

theorem entry_committed {key value : Bytes} {s s' : KvStore} (h : Committed key value s s') :
    entry s' (crc32 key) = some (value, (currentCas s (crc32 key) + 1) % 2 ^ 32) := by
  obtain ⟨n, hl, hv, hc⟩ := h.node
  rw [entry, hl, Option.map_some, hv, hc]

/-! ### Refinement -/

section Refinement

variable {zone : Zone} {K : Set Bytes}

/-- The store holds the entries of the map under the hashes of the keys in use. -/
def Represents (zone : Zone) (K : Set Bytes) (s : KvStore) (m : StringMap) : Prop :=
  Sound zone 0 s ∧ ∀ k ∈ K, entry s (crc32 k) = m k

theorem hasQueues_none (hz : zone.eviction = .none) : hasQueues zone = false := by
  simp [hasQueues, hz]

theorem setAlloc_none (rb : RbtreeOps) (hz : zone.eviction = .none) {s : KvStore}
    (h : Sound zone 0 s) (key value : Bytes) (old : Option ℕ) (alloc : ℕ → Bool) :
    setAlloc rb zone s key value old alloc =
      if alloc 0 then linkNode rb zone s key value old else (s, ⟨.error, none, none, none⟩) := by
  have hq : s.queues = [] := by
    have hc := h.queueCount
    rw [nqueues, hz] at hc
    exact List.length_eq_zero_iff.mp hc
  cases ha : alloc 0 <;> simp [setAlloc, allocLoop, hq, ha]

theorem represents_update {s s' : KvStore} {m : StringMap} (h : Represents zone K s m)
    (hs : Sound zone 0 s') (hK : Set.InjOn crc32 K) {key : Bytes} (hkey : key ∈ K)
    (e : Option (Bytes × ℕ)) (he : entry s' (crc32 key) = e)
    (hother : ∀ hash ≠ crc32 key, Kept hash s s') :
    Represents zone K s' (Function.update m key e) := by
  refine ⟨hs, fun k hk => ?_⟩
  by_cases heq : k = key
  · subst heq
    rw [Function.update_self, he]
  · rw [Function.update_of_ne heq, ← h.2 k hk]
    exact entry_kept (hother _ fun hc => heq (hK hk hkey hc))

theorem get_simulates (rb : RbtreeOps) (hz : zone.eviction = .none) {s : KvStore} {m : StringMap}
    (h : Represents zone K s m) {key : Bytes} (hkey : key ∈ K) :
    Represents zone K (kvStep rb zone s (.get key)).1 (mapStep m (.get key)).1 ∧
      (kvStep rb zone s (.get key)).2 = (mapStep m (.get key)).2 := by
  have hm := h.2 key hkey
  unfold entry at hm
  simp only [kvStep, step, kvGetLocked, Option.getD_none, mapStep, ← hm]
  cases hl : rbtreeLookup s (crc32 key) with
  | none => exact ⟨h, rfl⟩
  | some n =>
    have ht : queueTouch zone s n = s := by
      unfold queueTouch
      rw [if_neg (by simp [hasQueues_none hz])]
    simp only [ht, Option.map_some]
    exact ⟨h, trivial⟩

theorem set_simulates (rb : RbtreeOps) (hz : zone.eviction = .none) (hK : Set.InjOn crc32 K)
    {s : KvStore} {m : StringMap} (h : Represents zone K s m) {key : Bytes} (hkey : key ∈ K)
    (value : Option Bytes) (cas : ℕ) (alloc : ℕ → Bool) :
    Represents zone K (kvStep rb zone s (.set key value cas alloc)).1
        (mapStep m (.set key value cas alloc)).1 ∧
      (kvStep rb zone s (.set key value cas alloc)).2 = (mapStep m (.set key value cas alloc)).2 := by
  have hm := h.2 key hkey
  have hcur : currentCas s (crc32 key) = entryCas (m key) := by rw [currentCas_entry, hm]
  simp only [kvStep, step, mapStep]
  have hb := kvSetLocked_branch rb zone s key value cas alloc
  generalize kvSetLocked rb zone s key value cas alloc = r at hb ⊢
  cases hb with
  | refused hno =>
    rcases hno with hcas | ⟨rfl, hl⟩
    · rw [hcur] at hcas
      rw [if_pos hcas]
      exact ⟨h, rfl⟩
    · have he : m key = none := by rw [← hm, entry, hl, Option.map_none]
      rw [he]
      split <;> exact ⟨h, rfl⟩
  | deleted n hcas hv hl =>
    subst hv
    have he : m key = some ((s.node n).value, (s.node n).cas) := by
      rw [← hm, entry, hl, Option.map_some]
    obtain ⟨hrem, hother⟩ := deleteNode_removed rb h.1 hl
    have hs : Sound zone 0 (deleteNode rb zone s n).1 := by
      rw [deleteNode_fst rb h.1]
      exact h.1.expire rb ((h.1.lookup_iff _ _).mp hl).1
    rw [if_neg (by rw [he, entryCas, hcas]; simp), he]
    exact ⟨represents_update h hs hK hkey none (entry_removed hrem) hother, rfl⟩
  | allocated v hcas hv hlen =>
    subst hv
    have hfits : fits v (m key) = false := by
      rw [← hm, entry]
      cases hl : rbtreeLookup s (crc32 key) with
      | none => rfl
      | some n => simpa [fits] using hlen n hl
    rw [if_neg (not_not.mpr (hcas.trans hcur)), setAlloc_none rb hz h.1]
    simp only [hfits, Bool.false_or]
    cases ha : alloc 0 with
    | false => exact ⟨h, rfl⟩
    | true =>
      obtain ⟨hcom, hother⟩ := linkNode_committed rb h.1 key v rfl
      have hs := linkNode_sound rb h.1 key v rfl
      have he := entry_committed hcom
      rw [← hcas] at he
      exact ⟨represents_update h hs hK hkey _ he hother, rfl⟩
  | inPlace v n hcas hv hl hle =>
    subst hv
    have hfits : fits v (m key) = true := by
      rw [← hm, entry, hl]
      simpa [fits] using hle
    have hc : cas = currentCas s (crc32 key) := by rw [hcas, currentCas, hl, casOf]
    obtain ⟨hcom, hother⟩ := setInPlace_committed h.1 key v hl
    have hs := setInPlace_sound h.1 ((h.1.lookup_iff _ _).mp hl).1 key v
    have he := entry_committed hcom
    rw [← hc] at he
    rw [if_neg (not_not.mpr (hc.trans hcur))]
    simp only [hfits, Bool.true_or, if_true]
    exact ⟨represents_update h hs hK hkey _ he hother, rfl⟩

theorem run_simulates (rb : RbtreeOps) (hz : zone.eviction = .none) (hK : Set.InjOn crc32 K)
    (ops : List Op) (hops : ∀ op ∈ ops, opKey op ∈ K) :
    Represents zone K (exec (kvStep rb zone) (kvInit zone) ops).1
        (exec mapStep (fun _ => none) ops).1 ∧
      (exec (kvStep rb zone) (kvInit zone) ops).2 = (exec mapStep (fun _ => none) ops).2 := by
  refine exec_simulates (kvStep rb zone) mapStep (fun _ op => opKey op ∈ K) (Represents zone K)
    ?_ ops _ _ ⟨kvInit_sound zone, fun k _ => rfl⟩ (meets_of_forall _ _ ops _ hops)
  intro s m op h hop
  cases op with
  | get key => exact get_simulates rb hz h hop
  | set key value cas alloc => exact set_simulates rb hz hK h hop value cas alloc

end Refinement

/-- Over the keys in `K` the store refines the map if and only if no two of them collide. -/
theorem store_refines_map_iff (rb : RbtreeOps) (zone : Zone) (hz : zone.eviction = .none)
    (K : Set Bytes) :
    (∀ ops : List Op, (∀ op ∈ ops, opKey op ∈ K) →
      (exec (kvStep rb zone) (kvInit zone) ops).2 = (exec mapStep (fun _ => none) ops).2) ↔
    Set.InjOn crc32 K := by
  constructor
  · intro hall k hk k' hk' hc
    by_contra hne
    -- one set of `k`, then a read of `k'`
    have hset := (run_simulates (K := {k}) rb hz (Set.injOn_singleton _ _)
      [.set k (some []) 0 fun _ => true] (by simp [opKey])).1.2 k rfl
    have hans := hall [.set k (some []) 0 fun _ => true, .get k'] (by simp [opKey, hk, hk'])
    simp only [exec_cons, exec_nil, List.cons.injEq, and_true] at hset hans
    have hmap : (mapStep (mapStep (fun _ => none) (.set k (some []) 0 fun _ => true)).1
        (.get k')).2.rc = .declined := by
      simp [mapStep, entryCas, Function.update_of_ne (Ne.symm hne)]
    rw [← hans.2] at hmap
    revert hmap
    generalize (kvStep rb zone (kvInit zone) (.set k (some []) 0 fun _ => true)).1 = s at hset ⊢
    rw [hc] at hset
    simp only [entry, mapStep, entryCas] at hset
    cases hl : rbtreeLookup s (crc32 k') with
    | none => simp [hl] at hset
    | some n => simp [kvStep, step, kvGetLocked, hl]
  · intro hK ops hops
    exact (run_simulates rb hz hK ops hops).2

def noneZone : Zone := { lruZone with eviction := .none }

theorem store_refines_map_two_keys :
    (exec (kvStep (listOps ℕ Node.hash) noneZone) (kvInit noneZone)
        [.set [97] (some [1]) 0 fun _ => true, .set [98] (some [2]) 0 fun _ => true, .get [97]]).2 =
      (exec mapStep (fun _ => none)
        [.set [97] (some [1]) 0 fun _ => true, .set [98] (some [2]) 0 fun _ => true,
          .get [97]]).2 := by
  refine (store_refines_map_iff _ noneZone rfl {[97], [98]}).mpr ?_ _ (by simp [opKey])
  have hne : crc32 [97] ≠ crc32 [98] := by decide
  intro k hk k' hk' hc
  rcases hk with rfl | rfl <;> rcases hk' with rfl | rfl
  · rfl
  · exact absurd hc hne
  · exact absurd hc.symm hne
  · rfl

/-- `buckeroo` reads the entry of `plumless`. -/
theorem colliding_key_reads_other_entry :
    (exec (kvStep (listOps ℕ Node.hash) noneZone) (kvInit noneZone)
        [.set [112, 108, 117, 109, 108, 101, 115, 115] (some [1]) 0 fun _ => true,
          .get [98, 117, 99, 107, 101, 114, 111, 111]]).2 ≠
      (exec mapStep (fun _ => none)
        [.set [112, 108, 117, 109, 108, 101, 115, 115] (some [1]) 0 fun _ => true,
          .get [98, 117, 99, 107, 101, 114, 111, 111]]).2 := by
  decide

end NgxWasm.Shm.KvMap
