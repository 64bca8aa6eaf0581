import NgxWasm.Shm.KvEvict

/-!
# What a call does to one entry

Entries are found by the crc32 of their key. Seen from one hash a call keeps
the entry, removes it or commits a new value with the next counter, and the log
gets no event, one removal or one commit of that hash.
-/

namespace NgxWasm.Shm.KvEffect
open NgxWasm.Lib SearchTree Run NgxWasm.Shm.Kv NgxWasm.Shm.KvInvariant NgxWasm.Shm.KvEvict

def concerns (hash : ℕ) : Event → Bool
  | .commit key _ _ => crc32 key == hash
  | .remove h => h == hash
  | _ => false

def history (hash : ℕ) (log : List Event) : List Event := log.filter (concerns hash)

@[simp] theorem history_append (hash : ℕ) (l m : List Event) :
    history hash (l ++ m) = history hash l ++ history hash m := List.filter_append ..

structure Kept (hash : ℕ) (s s' : KvStore) : Prop where
  lookup : rbtreeLookup s' hash = rbtreeLookup s hash
  node : ∀ n, rbtreeLookup s hash = some n → s'.node n = s.node n
  history : history hash s'.log = history hash s.log

structure Committed (key value : Bytes) (s s' : KvStore) : Prop where
  node : ∃ n, rbtreeLookup s' (crc32 key) = some n ∧ (s'.node n).value = value ∧
    (s'.node n).cas = (currentCas s (crc32 key) + 1) % 2 ^ 32
  history : history (crc32 key) s'.log = history (crc32 key) s.log ++
    [.commit key value ((currentCas s (crc32 key) + 1) % 2 ^ 32)]

structure Removed (hash : ℕ) (s s' : KvStore) : Prop where
  found : ∃ n, rbtreeLookup s hash = some n
  gone : rbtreeLookup s' hash = none
  history : history hash s'.log = history hash s.log ++ [.remove hash]

def Removes (zone : Zone) (hash : ℕ) (s : KvStore) : Op → Prop
  | .get _ => False
  | .set key none cas _ => crc32 key = hash ∧ cas = currentCas s hash
  | .set key (some value) cas alloc =>
    cas = currentCas s (crc32 key) ∧ NeedsBlock s key value ∧
      ∃ n ∈ evictionOrder zone s (nodeSize + key.length + value.length),
        rbtreeLookup s hash = some n ∧
        ¬ Spared zone s (nodeSize + key.length + value.length) alloc n

/-- Everything that a call can do to the entry of `hash`. -/
inductive Effect (zone : Zone) (hash : ℕ) (op : Op) (s s' : KvStore) : Prop where
  | kept : Kept hash s s' → Effect zone hash op s s'
  | removed : Removes zone hash s op → Removed hash s s' → Effect zone hash op s s'
  | committed (key value : Bytes) (cas : ℕ) (alloc : ℕ → Bool) :
    op = .set key (some value) cas alloc → crc32 key = hash →
    Writes zone s key value cas alloc → Committed key value s s' → Effect zone hash op s s'

theorem Kept.refl (hash : ℕ) (s : KvStore) : Kept hash s s := ⟨rfl, fun _ _ => rfl, rfl⟩

theorem Kept.trans {hash : ℕ} {s t u : KvStore} (h : Kept hash s t) (h' : Kept hash t u) :
    Kept hash s u where
  lookup := h'.lookup.trans h.lookup
  node n hn := (h'.node n (h.lookup.trans hn)).trans (h.node n hn)
  history := h'.history.trans h.history

theorem Kept.currentCas {hash : ℕ} {s t : KvStore} (h : Kept hash s t) :
    currentCas t hash = currentCas s hash := by
  unfold Kv.currentCas
  rw [h.lookup]
  cases hl : rbtreeLookup s hash with
  | none => rfl
  | some n => exact congrArg Node.cas (h.node n hl)

theorem Kept.committed {key value : Bytes} {s t u : KvStore} (h : Kept (crc32 key) s t)
    (h' : Committed key value t u) : Committed key value s u where
  node := h.currentCas ▸ h'.node
  history := by rw [h'.history, h.history, h.currentCas]

theorem Removed.kept {hash : ℕ} {s t u : KvStore} (h : Removed hash s t) (h' : Kept hash t u) :
    Removed hash s u where
  found := h.found
  gone := h'.lookup.trans h.gone
  history := h'.history.trans h.history

theorem kept_of_mem {zone : Zone} {s s' : KvStore} (h : Sound zone 0 s) (h' : Sound zone 0 s')
    {hash : ℕ}
    (hmem : ∀ m, m ∈ s'.tree.toList ∧ (s'.node m).hash = hash ↔
      m ∈ s.tree.toList ∧ (s.node m).hash = hash)
    (hnode : ∀ m ∈ s.tree.toList, (s.node m).hash = hash → s'.node m = s.node m)
    (hlog : history hash s'.log = history hash s.log) : Kept hash s s' where
  lookup := by
    apply Option.ext
    intro m
    rw [h.lookup_iff, h'.lookup_iff]
    exact hmem m
  node n hn := by
    obtain ⟨hm, hh⟩ := (h.lookup_iff hash n).mp hn
    exact hnode n hm hh
  history := hlog

theorem kept_touch (hash : ℕ) (zone : Zone) (s : KvStore) (n : ℕ) :
    Kept hash s (queueTouch zone s n) where
  lookup := by simp only [rbtreeLookup, queueTouch_node, queueTouch_tree]
  node _ _ := by rw [queueTouch_node]
  history := by rw [queueTouch_log]

/-! ### Evictions -/

theorem history_expireAll (hash : ℕ) (rb : RbtreeOps) (s : KvStore) (vs : List ℕ) :
    history hash (expireAll rb s vs).log =
      history hash s.log ++
        (vs.filter fun v => (s.node v).hash == hash).map fun _ => .remove hash := by
  induction vs generalizing s with
  | nil => simp [expireAll]
  | cons v vs ih =>
    have hone : history hash (queueExpire rb s v).log =
        history hash s.log ++ if (s.node v).hash = hash then [.remove hash] else [] := by
      show history hash (s.log ++ [.treeDelete v, .free v] ++ [.remove (s.node v).hash]) = _
      by_cases he : (s.node v).hash = hash <;> simp [history, concerns, he]
    have hnode : (queueExpire rb s v).node = s.node := rfl
    show history hash (expireAll rb (queueExpire rb s v) vs).log = _
    rw [ih, hone, hnode]
    by_cases he : (s.node v).hash = hash <;> simp [he]

theorem eq_singleton {l : List ℕ} {v : ℕ} (hd : l.Nodup) (hv : v ∈ l) (h : ∀ w ∈ l, w = v) :
    l = [v] := by
  have hr : l = List.replicate l.length v := List.eq_replicate_of_mem h
  have hle : l.length ≤ 1 := List.nodup_replicate.mp (hr ▸ hd)
  have hpos := List.length_pos_of_mem hv
  rw [hr, show l.length = 1 by omega]
  rfl

section Evictions

variable {hash : ℕ} {rb : RbtreeOps} {zone : Zone} {s : KvStore} {vs : List ℕ}

theorem expireAll_kept (h : Sound zone 0 s) (hd : vs.Nodup) (hm : ∀ v ∈ vs, v ∈ s.tree.toList)
    (hkeep : ∀ n, rbtreeLookup s hash = some n → n ∉ vs) : Kept hash s (expireAll rb s vs) := by
  obtain ⟨hs, hmem⟩ := expireAll_sound rb vs s h hd hm
  refine ⟨?_, fun n _ => by rw [expireAll_node], ?_⟩
  · exact lookup_after_evictions h hs (expireAll_node rb s vs) hmem rfl hkeep
  · rw [history_expireAll, List.filter_eq_nil_iff.mpr]
    · simp
    · intro v hv hh
      exact hkeep v ((h.lookup_iff hash v).mpr ⟨hm v hv, by simpa using hh⟩) hv

theorem expireAll_removed (h : Sound zone 0 s) (hd : vs.Nodup) (hm : ∀ v ∈ vs, v ∈ s.tree.toList)
    {n : ℕ} (hl : rbtreeLookup s hash = some n) (hn : n ∈ vs) :
    Removed hash s (expireAll rb s vs) := by
  obtain ⟨hs, hmem⟩ := expireAll_sound rb vs s h hd hm
  refine ⟨⟨n, hl⟩, ?_, ?_⟩
  · apply (hs.lookup_none_iff hash).mpr
    intro m hmt hh
    obtain ⟨hmv, hmt⟩ := (hmem m).mp hmt
    rw [expireAll_node] at hh
    have hlm := (h.lookup_iff hash m).mpr ⟨hmt, hh⟩
    obtain rfl : n = m := Option.some.inj (hl.symm.trans hlm)
    exact hmv hn
  · rw [history_expireAll, eq_singleton (v := n) (hd.filter _)]
    · rfl
    · exact List.mem_filter.mpr ⟨hn, by simpa using ((h.lookup_iff hash n).mp hl).2⟩
    · intro w hw
      obtain ⟨hw, hh⟩ := List.mem_filter.mp hw
      have hlw := (h.lookup_iff hash w).mpr ⟨hm w hw, by simpa using hh⟩
      exact Option.some.inj (hlw.symm.trans hl)

end Evictions

theorem deleteNode_removed (rb : RbtreeOps) {zone : Zone} {s : KvStore} (h : Sound zone 0 s)
    {hash n : ℕ} (hl : rbtreeLookup s hash = some n) :
    Removed hash s (deleteNode rb zone s n).1 ∧
      ∀ hash' ≠ hash, Kept hash' s (deleteNode rb zone s n).1 := by
  obtain ⟨hn, hh⟩ := (h.lookup_iff _ _).mp hl
  have hone : (deleteNode rb zone s n).1 = expireAll rb s [n] := deleteNode_fst rb h n
  have hmem : ∀ v ∈ [n], v ∈ s.tree.toList := by simpa using hn
  have hd := List.nodup_singleton n
  rw [hone]
  refine ⟨expireAll_removed h hd hmem hl (List.mem_singleton_self n), fun hash' hne => ?_⟩
  apply expireAll_kept h hd hmem
  intro m hm hv
  obtain rfl : m = n := List.mem_singleton.mp hv
  exact hne (((h.lookup_iff _ _).mp hm).2.symm.trans hh)

/-! ### Commits -/

theorem history_commit_ne {hash : ℕ} {key value : Bytes} {cas : ℕ} (h : crc32 key ≠ hash)
    (log : List Event) : history hash (log ++ [.commit key value cas]) = history hash log := by
  simp [history, concerns, h]

theorem history_commit_eq (key value : Bytes) (cas : ℕ) (log : List Event) :
    history (crc32 key) (log ++ [.commit key value cas]) =
      history (crc32 key) log ++ [.commit key value cas] := by
  simp [history, concerns]

theorem history_retired (hash : ℕ) (old : Option ℕ) : history hash (retired old) = [] := by
  cases old <;> rfl

theorem linkNode_spec (rb : RbtreeOps) {zone : Zone} {s : KvStore} (h : Sound zone 0 s)
    (key value : Bytes) {old : Option ℕ} (ho : rbtreeLookup s (crc32 key) = old) :
    let s' := (linkNode rb zone s key value old).1
    let cas := (currentCas s (crc32 key) + 1) % 2 ^ 32
    (∀ m, m ∈ s'.tree.toList ↔ m = s.next ∨ m ∈ s.tree.toList ∧ old ≠ some m) ∧
      s'.node s.next = ⟨crc32 key, key, value, cas⟩ ∧
      (∀ m ≠ s.next, s'.node m = s.node m) ∧
      s'.log = s.log ++ retired old ++ [.commit key value cas] := by
  have hold : ∀ o, old = some o → o ∈ s.tree.toList := by
    rintro o rfl
    exact ((h.lookup_iff _ _).mp ho).1
  have hcas : casOf s old = currentCas s (crc32 key) := by rw [currentCas, ho]
  simp only [linkNode, hcas]
  generalize hx : Node.mk (crc32 key) key value _ = x
  obtain ⟨-, hmem, hnode, -, hlog⟩ := retireOld_spec rb (h.alloc x) old hold
  have hself : (retireOld rb zone (allocNode s x) old).node s.next = x := by
    rw [hnode]
    exact Function.update_self ..
  refine ⟨fun m => ?_, ?_, fun m hm => ?_, ?_⟩
  · simp only [commitNode, insertNode_tree]
    rw [(rb.insert_perm _ _ _).mem_iff, List.mem_cons, hmem]
    rfl
  · simp only [commitNode, insertNode_node, Function.update_self, hself]
    rw [← hx]
  · simp only [commitNode, insertNode_node]
    rw [Function.update_of_ne hm, hnode]
    exact Function.update_of_ne hm ..
  · simp only [commitNode, insertNode_log, insertNode_node, hself, hlog]
    rw [← hx]
    rfl

theorem linkNode_committed (rb : RbtreeOps) {zone : Zone} {s : KvStore} (h : Sound zone 0 s)
    (key value : Bytes) {old : Option ℕ} (ho : rbtreeLookup s (crc32 key) = old) :
    Committed key value s (linkNode rb zone s key value old).1 ∧
      ∀ hash ≠ crc32 key, Kept hash s (linkNode rb zone s key value old).1 := by
  have h' := linkNode_sound rb h key value ho
  obtain ⟨hmem, hself, hother, hlog⟩ := linkNode_spec rb h key value ho
  have hfresh : ∀ m ∈ s.tree.toList, m ≠ s.next := fun m hm => Nat.ne_of_lt (h.live m hm)
  refine ⟨⟨⟨s.next, ?_, by rw [hself], by rw [hself]⟩, ?_⟩, fun hash hk => ?_⟩
  · exact (h'.lookup_iff _ _).mpr ⟨(hmem _).mpr (.inl rfl), by rw [hself]⟩
  · rw [hlog, history_commit_eq, history_append, history_retired, List.append_nil]
  · refine kept_of_mem h h' (fun m => ?_) (fun m hm _ => hother m (hfresh m hm)) ?_
    · rw [hmem]
      constructor
      · rintro ⟨rfl | ⟨hm, -⟩, hh⟩
        · rw [hself] at hh
          exact absurd hh.symm hk
        · rw [hother m (hfresh m hm)] at hh
          exact ⟨hm, hh⟩
      · rintro ⟨hm, hh⟩
        refine ⟨.inr ⟨hm, ?_⟩, by rw [hother m (hfresh m hm)]; exact hh⟩
        -- the replaced node has another hash
        intro he
        rw [← ho, h.lookup_iff] at he
        exact hk (hh.symm.trans he.2)
    · rw [hlog, history_commit_ne hk.symm, history_append, history_retired, List.append_nil]

theorem setInPlace_committed {zone : Zone} {s : KvStore} (h : Sound zone 0 s)
    (key value : Bytes) {n : ℕ} (hl : rbtreeLookup s (crc32 key) = some n) :
    Committed key value s (setInPlace zone s n key value).1 ∧
      ∀ hash ≠ crc32 key, Kept hash s (setInPlace zone s n key value).1 := by
  obtain ⟨hn, hh⟩ := (h.lookup_iff _ _).mp hl
  have h' := setInPlace_sound h hn key value
  have hcur : currentCas s (crc32 key) = (s.node n).cas := by rw [currentCas, hl, casOf]
  have htree : (setInPlace zone s n key value).1.tree = s.tree := by
    simp only [setInPlace, commitNode, queueTouch_tree]
  have hself : (setInPlace zone s n key value).1.node n =
      { s.node n with value := value, cas := ((s.node n).cas + 1) % 2 ^ 32 } := by
    simp only [setInPlace, commitNode, queueTouch_node, Function.update_self]
  have hother : ∀ m ≠ n, (setInPlace zone s n key value).1.node m = s.node m := by
    intro m hm
    simp only [setInPlace, commitNode, queueTouch_node, Function.update_of_ne hm]
  have hlog : (setInPlace zone s n key value).1.log =
      s.log ++ [.commit key value (((s.node n).cas + 1) % 2 ^ 32)] := by
    simp only [setInPlace, commitNode, queueTouch_log, queueTouch_node, Function.update_self]
  refine ⟨⟨⟨n, ?_, by rw [hself], by rw [hself, hcur]⟩, ?_⟩, fun hash hk => ?_⟩
  · exact (h'.lookup_iff _ _).mpr ⟨htree ▸ hn, by rw [hself]; exact hh⟩
  · rw [hlog, history_commit_eq, hcur]
  · have hne : ∀ m ∈ s.tree.toList, (s.node m).hash = hash → m ≠ n := by
      rintro m hm hmh rfl
      exact hk (hmh.symm.trans hh)
    have hhash : ∀ m, ((setInPlace zone s n key value).1.node m).hash = (s.node m).hash := by
      intro m
      by_cases hm : m = n
      · subst hm
        rw [hself]
      · rw [hother m hm]
    refine kept_of_mem h h' (fun m => ?_) (fun m hm hmh => hother m (hne m hm hmh)) ?_
    · rw [htree, hhash]
    · rw [hlog, history_commit_ne hk.symm]

/-! ### Calls -/

theorem setAlloc_effect (hash : ℕ) (rb : RbtreeOps) {zone : Zone} {s : KvStore}
    (h : Sound zone 0 s) (key value : Bytes) (alloc : ℕ → Bool) (hb : NeedsBlock s key value)
    (hkeep : ∀ o, rbtreeLookup s (crc32 key) = some o → Obtains zone s key value alloc →
      Spared zone s (nodeSize + key.length + value.length) alloc o) :
    Effect zone hash (.set key (some value) (currentCas s (crc32 key)) alloc) s
      (setAlloc rb zone s key value (rbtreeLookup s (crc32 key)) alloc).1 := by
  obtain ⟨vs, hpre, hfst, hs, hmem, hok, hspared⟩ :=
    allocLoop_spec rb h (nodeSize + key.length + value.length) alloc
  have hd : vs.Nodup := (evictionOrder_nodup h _).sublist hpre.sublist
  have hm : ∀ v ∈ vs, v ∈ s.tree.toList := fun v hv => evictionOrder_linked h (hpre.subset hv)
  have hrm : ∀ n ∈ vs, rbtreeLookup s hash = some n → Removes zone hash s
      (.set key (some value) (currentCas s (crc32 key)) alloc) := fun n hn hl =>
    ⟨rfl, hb, n, hpre.subset hn, hl, fun hsp => hspared n hsp hn⟩
  simp only [setAlloc]
  split
  · rename_i s' hloop
    rw [hloop] at hfst
    rw [show s' = expireAll rb s vs from hfst]
    by_cases hex : ∃ n ∈ vs, rbtreeLookup s hash = some n
    · obtain ⟨n, hn, hl⟩ := hex
      exact .removed (hrm n hn hl) (expireAll_removed h hd hm hl hn)
    · exact .kept (expireAll_kept h hd hm fun n hl hn => hex ⟨n, hn, hl⟩)
  · rename_i s' hloop
    rw [hloop] at hfst hok
    rw [show s' = expireAll rb s vs from hfst]
    have hob : Obtains zone s key value alloc := hok rfl
    have hkey : Kept (crc32 key) s (expireAll rb s vs) :=
      expireAll_kept h hd hm fun o ho => hspared o (hkeep o ho hob)
    obtain ⟨hcom, hother⟩ := linkNode_committed rb hs key value hkey.lookup
    by_cases hk : hash = crc32 key
    · subst hk
      exact .committed key value _ alloc rfl rfl ⟨rfl, fun _ => hob⟩ (hkey.committed hcom)
    · have hlink := hother hash hk
      by_cases hex : ∃ n ∈ vs, rbtreeLookup s hash = some n
      · obtain ⟨n, hn, hl⟩ := hex
        exact .removed (hrm n hn hl) ((expireAll_removed h hd hm hl hn).kept hlink)
      · exact .kept ((expireAll_kept h hd hm fun n hl hn => hex ⟨n, hn, hl⟩).trans hlink)

theorem step_effect (hash : ℕ) (rb : RbtreeOps) {zone : Zone} {s : KvStore} (h : Sound zone 0 s)
    (op : Op) (hop : OldSurvives zone s op) :
    Effect zone hash op s (step rb zone s op).1 := by
  cases op with
  | get key =>
    simp only [step, kvGetLocked]
    split
    · exact .kept (.refl hash s)
    · exact .kept (kept_touch hash zone s _)
  | set key value cas alloc =>
    simp only [step]
    have hb := kvSetLocked_branch rb zone s key value cas alloc
    generalize kvSetLocked rb zone s key value cas alloc = r at hb ⊢
    cases hb with
    | refused _ => exact .kept (.refl hash s)
    | deleted n hcas hv hl =>
      subst hv
      obtain ⟨hrem, hother⟩ := deleteNode_removed rb h hl
      by_cases hk : hash = crc32 key
      · subst hk
        exact .removed ⟨rfl, by rw [hcas, currentCas, hl, casOf]⟩ hrem
      · exact .kept (hother hash hk)
    | allocated v hcas hv hlen =>
      subst hv hcas
      exact setAlloc_effect hash rb h key v alloc hlen
        fun o ho hob => hop ⟨rfl, fun _ => hob⟩ hlen o ho
    | inPlace v n hcas hv hl hle =>
      subst hv
      have hcur : cas = currentCas s (crc32 key) := by rw [hcas, currentCas, hl, casOf]
      obtain ⟨hcom, hother⟩ := setInPlace_committed h key v hl
      by_cases hk : hash = crc32 key
      · subst hk
        refine .committed key v cas alloc rfl rfl ⟨hcur, fun hb => ?_⟩ hcom
        exact absurd (hb n hl) (Nat.not_lt.mpr hle)
      · exact .kept (hother hash hk)

theorem history_grows {zone : Zone} {hash : ℕ} {op : Op} {s s' : KvStore}
    (h : Effect zone hash op s s') : history hash s.log <+: history hash s'.log := by
  cases h with
  | kept h => rw [h.history]
  | removed _ h => rw [h.history]; exact List.prefix_append _ _
  | committed key value cas alloc _ hk _ h =>
    subst hk
    rw [h.history]
    exact List.prefix_append _ _

end NgxWasm.Shm.KvEffect
