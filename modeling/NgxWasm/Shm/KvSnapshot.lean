import NgxWasm.Shm.KvEffect

/-!
# Snapshot reads (ngx_proxy_wasm_host.c, `get_shared_data`)

The host call looks the key up and copies the counter under the lock, but reads
the value through the node's pointer after the lock is released. The pair it
hands to the guest was committed as one if no step in between writes, deletes or
evicts the entry.
-/

namespace NgxWasm.Shm.KvSnapshot
open NgxWasm.Lib SearchTree Run NgxWasm.Shm.Kv NgxWasm.Shm.KvInvariant NgxWasm.Shm.KvEvict
open NgxWasm.Shm.KvEffect

inductive GuestResult where
  | notFound
  | trap
  | ok (value : Bytes) (cas : ℕ)
  deriving Repr, DecidableEq

/-- The bytes behind `value->data`; a freed block may hold anything. -/
def valueAt (junk : ℕ → Bytes) (s : KvStore) (n : ℕ) : Bytes :=
  if n ∈ frees s.log then junk n else (s.node n).value

/-- `ngx_proxy_wasm_hfuncs_get_shared_data` once the key is resolved. `others`
are the locked sections of other workers between its unlock and its copy;
`guestAlloc` tells whether `ngx_proxy_wasm_alloc` gets that many bytes. -/
def getSharedData (rb : RbtreeOps) (zone : Zone) (junk : ℕ → Bytes) (guestAlloc : ℕ → Bool)
    (s : KvStore) (key : Bytes) (others : List Op) : GuestResult :=
  let r := kvGetLocked zone s key none
  let t := (exec (step rb zone) r.1 others).1
  match r.2.valueOut, r.2.cas with
  | some n, some cas =>
    let value := valueAt junk t n
    if guestAlloc value.length then .ok value cas else .trap
  | _, _ => .notFound

def NoCollision (key : Bytes) : Op → Prop
  | .set k (some _) _ _ => crc32 k = crc32 key → k = key
  | _ => True

/-- The call neither writes nor removes the entry of `hash`. -/
def Untouched (zone : Zone) (hash : ℕ) (s : KvStore) (op : Op) : Prop :=
  ¬ Removes zone hash s op ∧
    match op with
    | .set key (some value) cas alloc => crc32 key = hash → ¬ Writes zone s key value cas alloc
    | _ => True

def Recorded (key : Bytes) (s : KvStore) : Prop :=
  ∀ n, rbtreeLookup s (crc32 key) = some n →
    .commit key (s.node n).value (s.node n).cas ∈ history (crc32 key) s.log

theorem effect_recorded {zone : Zone} {key : Bytes} {op : Op} {s s' : KvStore}
    (he : Effect zone (crc32 key) op s s') (hop : NoCollision key op) (h : Recorded key s) :
    Recorded key s' := by
  intro n hn
  cases he with
  | kept hk =>
    have hn := hk.lookup ▸ hn
    rw [hk.node n hn, hk.history]
    exact h n hn
  | removed _ hm =>
    rw [hm.gone] at hn
    exact absurd hn (by simp)
  | committed k value cas alloc hset hk _ hc =>
    subst hset
    obtain rfl : k = key := hop hk
    obtain ⟨m, hm, hv, hcas⟩ := hc.node
    obtain rfl : m = n := Option.some.inj (hm.symm.trans hn)
    rw [hv, hcas, hc.history]
    exact List.mem_append_right _ (List.mem_singleton_self _)

theorem effect_untouched {zone : Zone} {hash : ℕ} {op : Op} {s s' : KvStore}
    (he : Effect zone hash op s s') (hop : Untouched zone hash s op) : Kept hash s s' := by
  cases he with
  | kept hk => exact hk
  | removed hr _ => exact absurd hr hop.1
  | committed key value cas alloc hset hk hw _ =>
    subst hset
    exact absurd hw (hop.2 hk)

theorem run_untouched (rb : RbtreeOps) (zone : Zone) (hash : ℕ) (ops : List Op) :
    ∀ s : KvStore, Sound zone 0 s →
      Meets (step rb zone) (fun s op => OldSurvives zone s op ∧ Untouched zone hash s op) s ops →
      Sound zone 0 (exec (step rb zone) s ops).1 ∧ Kept hash s (exec (step rb zone) s ops).1 := by
  induction ops with
  | nil => intro s h _; exact ⟨h, .refl hash s⟩
  | cons op ops ih =>
    intro s h hm
    have hk := effect_untouched (step_effect hash rb h op hm.1.1) hm.1.2
    obtain ⟨hs, hrest⟩ := ih _ (step_sound rb h op hm.1.1) hm.2
    exact ⟨hs, hk.trans hrest⟩

/-- The pair handed to the guest is one that a set of the key committed, if the
key shares its hash with no other key that is set before and no step between
unlock and copy touches the entry. -/
theorem snapshot_read (rb : RbtreeOps) (zone : Zone) (junk : ℕ → Bytes) (guestAlloc : ℕ → Bool)
    (key : Bytes) (before others : List Op) (value : Bytes) (cas : ℕ)
    (hbefore : Meets (step rb zone) (fun s op => OldSurvives zone s op ∧ NoCollision key op)
      (kvInit zone) before)
    (hothers : Meets (step rb zone)
      (fun s op => OldSurvives zone s op ∧ Untouched zone (crc32 key) s op)
      (kvGetLocked zone (exec (step rb zone) (kvInit zone) before).1 key none).1 others)
    (hget : getSharedData rb zone junk guestAlloc (exec (step rb zone) (kvInit zone) before).1
      key others = .ok value cas) :
    .commit key value cas ∈ (exec (step rb zone) (kvInit zone) before).1.log := by
  have hinv := exec_invariant (step rb zone)
    (fun s op => OldSurvives zone s op ∧ NoCollision key op)
    (fun s => Sound zone 0 s ∧ Recorded key s)
    (fun s op h hop => ⟨step_sound rb h.1 op hop.1,
      effect_recorded (step_effect _ rb h.1 op hop.1) hop.2 h.2⟩)
    before (kvInit zone)
    ⟨kvInit_sound zone, fun n hn => by simp [rbtreeLookup, kvInit, lookup] at hn⟩ hbefore
  generalize (exec (step rb zone) (kvInit zone) before).1 = s at hinv hothers hget ⊢
  obtain ⟨hs, hrec⟩ := hinv
  cases hl : rbtreeLookup s (crc32 key) with
  | none => simp [getSharedData, kvGetLocked, hl] at hget
  | some n =>
    obtain ⟨hn, -⟩ := (hs.lookup_iff _ _).mp hl
    have hlock : kvGetLocked zone s key none =
        (queueTouch zone s n, ⟨.ok, some n, some (s.node n).cas, none⟩) := by
      simp only [kvGetLocked, Option.getD_none, hl]
    rw [hlock] at hothers
    obtain ⟨ht, hkeep⟩ := run_untouched rb zone (crc32 key) others _ (hs.touch hn) hothers
    have hkeep := (kept_touch (crc32 key) zone s n).trans hkeep
    -- the node is linked when it is copied, so its block is not a freed one
    have hlive : n ∉ frees (exec (step rb zone) (queueTouch zone s n) others).1.log := by
      intro hf
      exact (ht.freed n hf).2 ((ht.lookup_iff _ _).mp (hkeep.lookup.trans hl)).1
    simp only [getSharedData, hlock, valueAt, if_neg hlive, hkeep.node n hl] at hget
    split at hget
    · obtain ⟨rfl, rfl⟩ := GuestResult.ok.inj hget
      exact List.mem_of_mem_filter (hrec n hl)
    · simp at hget

theorem snapshot_read_other_key :
    .commit [97] [1] 1 ∈ (exec (step (listOps ℕ Node.hash) lruZone) (kvInit lruZone)
      [.set [97] (some [1]) 0 fun _ => true]).1.log := by
  refine snapshot_read (listOps ℕ Node.hash) lruZone (fun _ => []) (fun _ => true) [97] _
    [.set [98] (some [2]) 0 fun _ => true] [1] 1 ?_ ?_ (by decide)
  · exact ⟨⟨fun _ _ n _ => ⟨0, Nat.zero_le _, rfl⟩, fun _ => rfl⟩, trivial⟩
  · refine ⟨⟨fun _ _ n _ => ⟨0, Nat.zero_le _, rfl⟩, ?_, fun hk => absurd hk (by decide)⟩,
      trivial⟩
    rintro ⟨-, -, n, -, -, hsp⟩
    exact hsp ⟨0, Nat.zero_le _, rfl⟩

/-- An overwrite between unlock and copy hands out a pair that was never committed. -/
theorem overwritten_value_with_old_cas :
    getSharedData (listOps ℕ Node.hash) lruZone (fun _ => []) (fun _ => true)
        (exec (step (listOps ℕ Node.hash) lruZone) (kvInit lruZone)
          [.set [97] (some [1]) 0 fun _ => true]).1
        [97] [.set [97] (some [2]) 1 fun _ => true] = .ok [2] 1 ∧
      Event.commit [97] [2] 1 ∉ (exec (step (listOps ℕ Node.hash) lruZone) (kvInit lruZone)
        [.set [97] (some [1]) 0 fun _ => true, .get [97],
          .set [97] (some [2]) 1 fun _ => true]).1.log := by
  decide

end NgxWasm.Shm.KvSnapshot
