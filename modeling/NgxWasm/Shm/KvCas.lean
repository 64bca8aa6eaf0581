import NgxWasm.Shm.KvEffect

/-!
# Compare-and-swap over whole runs

The counter of an entry starts at 1 when the entry is created and has 32 bits.
As long as a key is created once and its counter does not wrap around, the
counter is the number of commits of the key, so a matching counter means that
nothing happened to the entry since it was read.
-/

namespace NgxWasm.Shm.KvCas
open NgxWasm.Lib SearchTree Run NgxWasm.Shm.Kv NgxWasm.Shm.KvInvariant NgxWasm.Shm.KvEvict
open NgxWasm.Shm.KvEffect

/-- The step does not restart the counter of `hash`: a write creates the entry
only if it was never removed and does not take the counter to `2 ^ 32`. -/
def CasFresh (zone : Zone) (hash : ℕ) (s : KvStore) (op : Op) : Prop :=
  OldSurvives zone s op ∧
    match op with
    | .set key (some value) cas alloc =>
      crc32 key = hash → Writes zone s key value cas alloc →
        (rbtreeLookup s hash = none → .remove hash ∉ history hash s.log) ∧
        currentCas s hash + 1 < 2 ^ 32
    | _ => True

structure Counted (hash : ℕ) (s : KvStore) : Prop where
  present : ∀ n, rbtreeLookup s hash = some n →
    .remove hash ∉ history hash s.log ∧ (s.node n).cas = (history hash s.log).length ∧
      0 < (s.node n).cas
  absent : rbtreeLookup s hash = none →
    .remove hash ∉ history hash s.log → history hash s.log = []

theorem kvInit_counted (zone : Zone) (hash : ℕ) : Counted hash (kvInit zone) where
  present n hn := by simp [rbtreeLookup, kvInit, lookup] at hn
  absent _ _ := rfl

theorem Counted.currentCas {hash : ℕ} {s : KvStore} (h : Counted hash s)
    (hr : rbtreeLookup s hash = none → .remove hash ∉ history hash s.log) :
    .remove hash ∉ history hash s.log ∧ currentCas s hash = (history hash s.log).length := by
  unfold Kv.currentCas
  cases hl : rbtreeLookup s hash with
  | none => exact ⟨hr hl, by rw [h.absent hl (hr hl), casOf, List.length_nil]⟩
  | some n => exact ⟨(h.present n hl).1, (h.present n hl).2.1⟩

theorem effect_counted {zone : Zone} {hash : ℕ} {op : Op} {s s' : KvStore}
    (he : Effect zone hash op s s') (hop : CasFresh zone hash s op) (h : Counted hash s) :
    Counted hash s' := by
  cases he with
  | kept hk =>
    refine ⟨fun n hn => ?_, fun hn hr => ?_⟩
    · have hn := hk.lookup ▸ hn
      rw [hk.node n hn, hk.history]
      exact h.present n hn
    · rw [hk.history] at hr ⊢
      exact h.absent (hk.lookup ▸ hn) hr
  | removed _ hm =>
    refine ⟨fun n hn => ?_, fun _ hr => ?_⟩
    · rw [hm.gone] at hn
      exact absurd hn (by simp)
    · rw [hm.history] at hr
      exact absurd (List.mem_append_right _ (List.mem_singleton_self _)) hr
  | committed key value cas alloc hset hk hw hc =>
    subst hset hk
    obtain ⟨hfresh, hlt⟩ := hop.2 rfl hw
    obtain ⟨hr, hcur⟩ := h.currentCas hfresh
    obtain ⟨m, hm, -, hcas⟩ := hc.node
    rw [Nat.mod_eq_of_lt hlt] at hcas
    refine ⟨fun n hn => ?_, fun hn _ => ?_⟩
    · obtain rfl : m = n := Option.some.inj (hm.symm.trans hn)
      refine ⟨?_, ?_, by omega⟩
      · rw [hc.history]
        simpa using hr
      · rw [hcas, hc.history, List.length_append, List.length_singleton, hcur]
    · rw [hm] at hn
      exact absurd hn (by simp)

theorem step_counted (rb : RbtreeOps) {zone : Zone} {hash : ℕ} {s : KvStore} {op : Op}
    (h : Sound zone 0 s ∧ Counted hash s) (hop : CasFresh zone hash s op) :
    Sound zone 0 (step rb zone s op).1 ∧ Counted hash (step rb zone s op).1 :=
  ⟨step_sound rb h.1 op hop.1, effect_counted (step_effect hash rb h.1 op hop.1) hop h.2⟩

theorem run_history_grows (rb : RbtreeOps) (zone : Zone) (hash : ℕ) (ops : List Op) :
    ∀ s : KvStore, Sound zone 0 s → Meets (step rb zone) (OldSurvives zone) s ops →
      history hash s.log <+: history hash (exec (step rb zone) s ops).1.log := by
  induction ops with
  | nil => intro s _ _; exact List.prefix_rfl
  | cons op ops ih =>
    intro s h hm
    exact (history_grows (step_effect hash rb h op hm.1)).trans
      (ih _ (step_sound rb h op hm.1) hm.2)

theorem kvSetLocked_written {rb : RbtreeOps} {zone : Zone} {s : KvStore} {key : Bytes}
    {value : Option Bytes} {cas : ℕ} {alloc : ℕ → Bool}
    (h : (kvSetLocked rb zone s key value cas alloc).2.written = some true) :
    cas = currentCas s (crc32 key) := by
  have hb := kvSetLocked_branch rb zone s key value cas alloc
  generalize kvSetLocked rb zone s key value cas alloc = r at hb h
  cases hb with
  | refused _ => simp at h
  | deleted n hcas _ hl => rw [hcas, currentCas, hl, casOf]
  | allocated v hcas _ _ => exact hcas
  | inPlace v n hcas _ hl _ => rw [hcas, currentCas, hl, casOf]

theorem kvGetLocked_cas {zone : Zone} {s : KvStore} {key : Bytes} {c : ℕ}
    (h : (kvGetLocked zone s key none).2.cas = some c) :
    ∃ n, rbtreeLookup s (crc32 key) = some n ∧ (s.node n).cas = c := by
  simp only [kvGetLocked, Option.getD_none] at h
  split at h
  · simp at h
  · rename_i n hl
    exact ⟨n, hl, Option.some.inj h⟩

/-- A read of counter `c`, any steps of any clients, then a successful write
with `c`: no commit, delete or eviction of the key lies between the two. -/
theorem no_lost_update (rb : RbtreeOps) (zone : Zone) (key : Bytes) (value : Option Bytes) (c : ℕ)
    (alloc : ℕ → Bool) (pre mid : List Op)
    (hrun : Meets (step rb zone) (CasFresh zone (crc32 key)) (kvInit zone)
      (pre ++ .get key :: mid))
    (hread : (step rb zone (exec (step rb zone) (kvInit zone) pre).1 (.get key)).2.cas = some c)
    (hwrite : (step rb zone (exec (step rb zone) (kvInit zone) (pre ++ .get key :: mid)).1
      (.set key value c alloc)).2.written = some true) :
    history (crc32 key) (exec (step rb zone) (kvInit zone) (pre ++ .get key :: mid)).1.log =
      history (crc32 key) (exec (step rb zone) (kvInit zone) pre).1.log := by
  have hinv := exec_invariant (step rb zone) (CasFresh zone (crc32 key))
    (fun s => Sound zone 0 s ∧ Counted (crc32 key) s) (fun s op h hop => step_counted rb h hop)
  have hinit := And.intro (kvInit_sound zone) (kvInit_counted zone (crc32 key))
  have hend := hinv _ _ hinit hrun
  obtain ⟨hpre, hmid⟩ := (meets_append _ _ _ _ _).mp hrun
  have hstart := hinv _ _ hinit hpre
  have hgrow := run_history_grows rb zone (crc32 key) (.get key :: mid) _ hstart.1
    (meets_mono _ (fun _ _ h => h.1) _ _ hmid)
  rw [exec_append] at hend hwrite ⊢
  simp only at hend hwrite ⊢
  generalize (exec (step rb zone) (kvInit zone) pre).1 = s at hread hend hstart hgrow hwrite ⊢
  generalize (exec (step rb zone) s (.get key :: mid)).1 = t at hend hgrow hwrite ⊢
  -- both counters are the lengths of the two histories
  obtain ⟨n, hn, hc⟩ := kvGetLocked_cas hread
  obtain ⟨-, hlen, hpos⟩ := hstart.2.present n hn
  have hcur := kvSetLocked_written hwrite
  cases hl : rbtreeLookup t (crc32 key) with
  | none =>
    rw [Kv.currentCas, hl, casOf] at hcur
    omega
  | some m =>
    rw [Kv.currentCas, hl, casOf] at hcur
    have hlen' := (hend.2.present m hl).2.1
    exact (hgrow.eq_of_length (by omega)).symm

theorem no_lost_update_other_key :
    history (crc32 [97]) (exec (step (listOps ℕ Node.hash) lruZone) (kvInit lruZone)
        ([.set [97] (some [1]) 0 fun _ => true] ++ .get [97] ::
          [.set [98] (some [2]) 0 fun _ => true, .get [97]])).1.log =
      history (crc32 [97]) (exec (step (listOps ℕ Node.hash) lruZone) (kvInit lruZone)
        [.set [97] (some [1]) 0 fun _ => true]).1.log := by
  refine no_lost_update _ lruZone [97] (some [3]) 1 (fun _ => true) _ _ ?_ (by decide)
    (by decide)
  have hspared : ∀ s size n, Spared lruZone s size (fun _ => true) n :=
    fun _ _ _ => ⟨0, Nat.zero_le _, rfl⟩
  refine ⟨⟨fun _ _ n _ => hspared _ _ n, fun _ _ => ⟨fun _ => ?_, ?_⟩⟩, ⟨trivial, trivial⟩,
    ⟨fun _ _ n _ => hspared _ _ n, fun hk => absurd hk (by decide)⟩,
    ⟨trivial, trivial⟩, trivial⟩
  · decide
  · decide

/-- A counter that was read before a delete matches the recreated entry. -/
theorem recreated_entry_matches_stale_cas :
    (step (listOps ℕ Node.hash) lruZone
        (exec (step (listOps ℕ Node.hash) lruZone) (kvInit lruZone)
          [.set [97] (some [1]) 0 fun _ => true]).1 (.get [97])).2.cas = some 1 ∧
      (step (listOps ℕ Node.hash) lruZone
        (exec (step (listOps ℕ Node.hash) lruZone) (kvInit lruZone)
          ([.set [97] (some [1]) 0 fun _ => true] ++ .get [97] ::
            [.set [97] none 1 fun _ => true, .set [97] (some [2]) 0 fun _ => true])).1
        (.set [97] (some [3]) 1 fun _ => true)).2.written = some true ∧
      history (crc32 [97]) (exec (step (listOps ℕ Node.hash) lruZone) (kvInit lruZone)
          ([.set [97] (some [1]) 0 fun _ => true] ++ .get [97] ::
            [.set [97] none 1 fun _ => true, .set [97] (some [2]) 0 fun _ => true])).1.log ≠
        history (crc32 [97]) (exec (step (listOps ℕ Node.hash) lruZone) (kvInit lruZone)
          [.set [97] (some [1]) 0 fun _ => true]).1.log := by
  decide

end NgxWasm.Shm.KvCas
