import NgxWasm.Wasm.Chain

/-!
# What the walk of ngx_wasm_chain_append leaves (ngx_wasm_util.c)

Three lists of links that share none: those in use, the free list and the free
links of the pool. Each step of the walk moves one link between them.
-/

namespace NgxWasm.Wasm.ChainTail
open NgxWasm.Lib Links
open NgxWasm.Wasm Chain

/-! ### Buffers -/

@[simp] theorem size_eq_zero {b : Buf} : b.size = 0 ↔ b.bytes = [] := List.length_eq_zero_iff

theorem keep_of_le {b : Buf} {n : ℕ} (h : b.data.length ≤ n) : b.keep n = b := by
  cases b
  simp only [Buf.keep, Buf.mk.injEq, true_and, and_true]
  exact List.take_of_length_le h

/-- Nor has a buffer without bytes a range of memory. -/
theorem data_empty {b : Buf} (h : b.bytes = []) : b.data = [] := by
  cases hm : b.inMemory with
  | true => simpa [Buf.bytes, hm] using h
  | false =>
    have hfile : b.file = [] := by simpa [Buf.bytes, hm] using h
    have hle := b.within hm
    rw [hfile] at hle
    exact List.eq_nil_of_length_eq_zero (Nat.le_zero.mp hle)

/-! ### Links in use, free and of the pool -/

structure Lists (m : Mem) (us fs ps : List ℕ) : Prop where
  free : Seg m.next m.free fs none
  pool : Seg m.next m.pool ps none
  nodup : (us ++ (fs ++ ps)).Nodup
  lt : ∀ x ∈ us ++ (fs ++ ps), x < m.fresh

variable {m m' : Mem} {us us' fs fs' ps ps' xs ys ks : List ℕ} {inp cl ll : Option ℕ} {x y l o : ℕ}

theorem Lists.notMem_free (h : Lists m us fs ps) (hx : x ∈ us) : x ∉ fs := fun hf =>
  List.disjoint_of_nodup_append h.nodup hx (List.mem_append_left _ hf)

theorem Lists.notMem_pool (h : Lists m us fs ps) (hx : x ∈ us) : x ∉ ps := fun hp =>
  List.disjoint_of_nodup_append h.nodup hx (List.mem_append_right _ hp)

theorem Lists.links_eq (h : Lists m us fs ps) (hs : Seg m.next inp xs none) (hx : xs ⊆ us) :
    m.links inp = xs := by
  refine walk_seg hs (length_le_of_nodup (seg_nodup hs) fun x hm => ?_)
  exact h.lt x (List.mem_append_left _ (hx hm))

theorem Lists.free_eq (h : Lists m us fs ps) : m.links m.free = fs := by
  have hlen : fs.length ≤ m.fresh := by
    refine length_le_of_nodup (seg_nodup h.free) fun x hm => ?_
    exact h.lt x (List.mem_append_right _ (List.mem_append_left _ hm))
  exact walk_seg h.free hlen

theorem Lists.congr (h : Lists m us fs ps) (hf : m'.free = m.free) (hp : m'.pool = m.pool)
    (hfresh : m'.fresh = m.fresh) (hn : ∀ z ∈ fs ++ ps, m'.next z = m.next z) :
    Lists m' us fs ps where
  free := hf ▸ seg_congr (fun z hz => hn z (List.mem_append_left _ hz)) h.free
  pool := hp ▸ seg_congr (fun z hz => hn z (List.mem_append_right _ hz)) h.pool
  nodup := h.nodup
  lt := by rw [hfresh]; exact h.lt

theorem Lists.perm (h : Lists m us fs ps) (hp : us'.Perm us) : Lists m us' fs ps where
  free := h.free
  pool := h.pool
  nodup := ((hp.append_right _).nodup_iff).mpr h.nodup
  lt := fun x hx => h.lt x (((hp.append_right _).mem_iff).mp hx)

/-- A link in use may be linked elsewhere. -/
theorem Lists.setNext (h : Lists m us fs ps) (hx : x ∈ us) (next : Option ℕ) :
    Lists (setNext m x next) us fs ps := by
  refine h.congr rfl rfl rfl fun z hz => Function.update_of_ne ?_ _ _
  rintro rfl
  exact List.disjoint_of_nodup_append h.nodup hx hz

theorem Lists.moved (h : Lists m (y :: us) fs ps) (hf : Seg m'.next m'.free fs' none)
    (hp : Seg m'.next m'.pool ps' none) (hfresh : m'.fresh = m.fresh)
    (hperm : (us' ++ (fs' ++ ps')).Perm (y :: us ++ (fs ++ ps))) : Lists m' us' fs' ps' where
  free := hf
  pool := hp
  nodup := hperm.nodup_iff.mpr h.nodup
  lt := fun x hx => hfresh ▸ h.lt x (hperm.mem_iff.mp hx)

theorem Lists.freeChain (h : Lists m (y :: us) fs ps) : Lists (freeChain m y) us fs (y :: ps) := by
  have hyf := h.notMem_free (List.mem_cons_self ..)
  have hyp := h.notMem_pool (List.mem_cons_self ..)
  have hne : ∀ z, z ≠ y → (Chain.freeChain m y).next z = m.next z :=
    fun z hz => Function.update_of_ne hz _ _
  refine h.moved (seg_congr (fun z hz => hne z fun he => hyf (he ▸ hz)) h.free) ⟨rfl, ?_⟩ rfl ?_
  · have hy : (Chain.freeChain m y).next y = m.pool := Function.update_self ..
    rw [hy]
    exact seg_congr (fun z hz => hne z fun he => hyp (he ▸ hz)) h.pool
  · rw [← List.append_assoc]
    exact (List.perm_middle).trans (by simp)

theorem keepFree_buf (hy : (m.buf y).bytes = []) : (keepFree m y).buf = m.buf := by
  show Function.update m.buf y ((m.buf y).keep 0) = m.buf
  rw [keep_of_le (data_empty hy ▸ Nat.le_refl 0)]
  exact Function.update_eq_self ..

theorem keepFree_next (m : Mem) {z : ℕ} (hz : z ≠ y) : (keepFree m y).next z = m.next z :=
  Function.update_of_ne hz _ _

@[simp] theorem keepFree_next_self (m : Mem) (y : ℕ) : (keepFree m y).next y = m.free :=
  Function.update_self ..

@[simp] theorem keepFree_free (m : Mem) (y : ℕ) :
    (keepFree m y).free = if m.free.isSome then some y else none := rfl

theorem Lists.keepFree_none (h : Lists m (y :: us) [] ps) :
    Lists (keepFree m y) (y :: us) [] ps := by
  have hfree : m.free = none := h.free
  have hy := h.notMem_pool (List.mem_cons_self ..)
  refine h.congr ?_ rfl rfl fun z hz => keepFree_next m fun he => hy (he ▸ by simpa using hz)
  simp [hfree]

theorem Lists.keepFree_some (h : Lists m (y :: us) (o :: fs) ps) :
    Lists (keepFree m y) us (y :: o :: fs) ps := by
  have hyf := h.notMem_free (List.mem_cons_self ..)
  have hyp := h.notMem_pool (List.mem_cons_self ..)
  have hfree : m.free = some o := h.free.1
  refine h.moved ⟨?_, ?_⟩ ?_ rfl ?_
  · simp [hfree]
  · rw [keepFree_next_self]
    exact seg_congr (fun z hz => keepFree_next m fun he => hyf (he ▸ hz)) h.free
  · exact seg_congr (fun z hz => keepFree_next m fun he => hyp (he ▸ hz)) h.pool
  · exact List.perm_middle

/-! ### A link for new data -/

/-- What `getFreeBuf` changes, with the link `nl` it gives for `len` bytes. -/
structure Given (m m' : Mem) (len nl : ℕ) : Prop where
  next : ∀ z, z ≠ nl → m'.next z = m.next z
  buf : ∀ z, z ≠ nl → m'.buf z = m.buf z
  last : m'.next nl = none
  data : (m'.buf nl).data = []
  file : (m'.buf nl).file = []
  inMemory : (m'.buf nl).inMemory = decide (len ≠ 0)
  flush : (m'.buf nl).flush = false
  flagged : (m'.buf nl).flagged = false

theorem given_setLink {len nl t : ℕ} {start : Option ℕ} {inMemory : Bool}
    (hm : inMemory = decide (len ≠ 0)) (hn : ∀ z, z ≠ nl → m'.next z = m.next z)
    (hb : ∀ z, z ≠ nl → m'.buf z = m.buf z) :
    Given m (setLink m' nl (emptyBuf start t inMemory) none) len nl where
  next := fun z hz => (Function.update_of_ne hz _ _).trans (hn z hz)
  buf := fun z hz => (Function.update_of_ne hz _ _).trans (hb z hz)
  last := Function.update_self ..
  data := by simp [setLink, emptyBuf]
  file := by simp [setLink, emptyBuf]
  inMemory := by simp [setLink, emptyBuf, hm]
  flush := by simp [setLink, emptyBuf]
  flagged := by simp [setLink, emptyBuf, Buf.flagged]

theorem Lists.setLink {nl : ℕ} {b : Buf} {next : Option ℕ} (h : Lists m (nl :: us) fs ps) :
    Lists (setLink m nl b next) (nl :: us) fs ps := by
  refine h.congr rfl rfl rfl fun z hz => Function.update_of_ne ?_ _ _
  rintro rfl
  exact List.disjoint_of_nodup_append h.nodup (List.mem_cons_self ..) hz

theorem allocLink_given {nl : ℕ} {ok : Bool} (h : Lists m us fs ps)
    (hr : allocLink m ok = (m', some nl)) :
    m'.next = m.next ∧ m'.buf = m.buf ∧ ∃ ps', Lists m' (nl :: us) fs ps' := by
  cases hp : ps with
  | nil =>
    have hpool := h.pool
    rw [hp] at hpool
    have hpool : m.pool = none := hpool
    cases hl : ok with
    | false => simp [allocLink, hpool, hl] at hr
    | true =>
      simp only [allocLink, hpool, hl, if_true, Prod.mk.injEq, Option.some.injEq] at hr
      obtain ⟨rfl, rfl⟩ := hr
      refine ⟨rfl, rfl, [], h.free, rfl, ?_, ?_⟩
      · rw [List.cons_append]
        refine List.nodup_cons.mpr ⟨fun hm => ?_, hp ▸ h.nodup⟩
        exact Nat.lt_irrefl _ (h.lt _ (hp ▸ hm))
      · intro x hx
        rcases List.mem_cons.mp hx with rfl | hx
        · exact Nat.lt_succ_self _
        · exact Nat.lt_succ_of_lt (h.lt x (hp ▸ hx))
  | cons p rest =>
    have hpool := hp ▸ h.pool
    simp only [allocLink, hpool.1, Prod.mk.injEq, Option.some.injEq] at hr
    obtain ⟨rfl, rfl⟩ := hr
    have hperm : (p :: us ++ (fs ++ rest)).Perm (us ++ (fs ++ ps)) := by
      rw [hp, ← List.append_assoc, ← List.append_assoc]
      exact List.perm_middle.symm
    exact ⟨rfl, rfl, rest, h.free, hpool.2, hperm.nodup_iff.mpr h.nodup,
      fun x hx => h.lt x (hperm.mem_iff.mp hx)⟩

theorem newLink_given {len tag nl : ℕ} {a : Alloc} (h : Lists m us fs ps)
    (hr : newLink m len tag a = (m', some nl)) :
    Given m m' len nl ∧ ∃ ps', Lists m' (nl :: us) fs ps' := by
  cases he : allocLink m a.link with
  | mk m₁ r =>
    cases r with
    | none => simp [newLink, he] at hr
    | some cl =>
      cases hb : a.buf with
      | false => simp [newLink, he, hb] at hr
      | true =>
        simp only [newLink, he, hb, if_true, Prod.mk.injEq, Option.some.injEq] at hr
        obtain ⟨rfl, rfl⟩ := hr
        obtain ⟨hn, hbuf, ps', hl⟩ := allocLink_given h he
        exact ⟨given_setLink rfl (fun z _ => congrFun hn z) fun z _ => congrFun hbuf z, ps', hl.setLink⟩

theorem Lists.popFree (h : Lists m us (o :: fs) ps) :
    Lists { m with free := m.next o } (o :: us) fs ps :=
  have hperm : (o :: us ++ (fs ++ ps)).Perm (us ++ (o :: fs ++ ps)) := List.perm_middle.symm
  ⟨h.free.2, h.pool, hperm.nodup_iff.mpr h.nodup, fun x hx => h.lt x (hperm.mem_iff.mp hx)⟩

theorem reuseLink_given {len tag nl : ℕ} {a : Alloc} (h : Lists m us (o :: fs) ps)
    (hr : reuseLink m o len tag a = (m', some nl)) :
    nl = o ∧ Given m m' len nl ∧ Lists m' (nl :: us) fs ps := by
  have hlists := h.popFree
  unfold reuseLink at hr
  dsimp only at hr
  split at hr
  · simp only [Prod.mk.injEq, Option.some.injEq] at hr
    obtain ⟨rfl, rfl⟩ := hr
    exact ⟨rfl, given_setLink rfl (fun _ _ => rfl) fun _ _ => rfl, hlists.setLink⟩
  · split at hr
    · next hlen =>
      simp only [Prod.mk.injEq, Option.some.injEq] at hr
      obtain ⟨rfl, rfl⟩ := hr
      refine ⟨rfl, given_setLink ?_ (fun _ _ => rfl) fun _ _ => rfl, hlists.setLink⟩
      simp [hlen]
    · split at hr
      · next hlen _ =>
        simp only [Prod.mk.injEq, Option.some.injEq] at hr
        obtain ⟨rfl, rfl⟩ := hr
        refine ⟨rfl, given_setLink ?_ ?_ ?_, hlists.setLink.setLink⟩
        · simp [hlen]
        · exact fun z hz => Function.update_of_ne hz _ _
        · exact fun z hz => Function.update_of_ne hz _ _
      · simp at hr

/-- The link comes from the free list if there is one, else it is new to the caller. -/
theorem getFreeBuf_given {len tag nl : ℕ} {a : Alloc} (h : Lists m us fs ps)
    (hr : getFreeBuf m len tag true a = (m', some nl)) :
    Given m m' len nl ∧
      ∃ fs' ps', Lists m' (nl :: us) fs' ps' ∧ (fs = [] ∧ fs' = [] ∨ fs = nl :: fs') := by
  cases fs with
  | nil =>
    have hfree : m.free = none := h.free
    simp only [getFreeBuf, hfree] at hr
    obtain ⟨hg, ps', hl⟩ := newLink_given h hr
    exact ⟨hg, [], ps', hl, .inl ⟨rfl, rfl⟩⟩
  | cons o fs =>
    have hfree : m.free = some o := h.free.1
    simp only [getFreeBuf, hfree] at hr
    obtain ⟨rfl, hg, hl⟩ := reuseLink_given h hr
    exact ⟨hg, fs, ps, hl, .inr rfl⟩

theorem Lists.tail (h : Lists m (x :: us) fs ps) : Lists m us fs ps where
  free := h.free
  pool := h.pool
  nodup := (List.nodup_cons.mp h.nodup).2
  lt := fun z hz => h.lt z (List.mem_cons_of_mem _ hz)

/-- A refused buffer leaves the links in use as they are. -/
structure Refused (m m' : Mem) (us : List ℕ) : Prop where
  next : ∀ z ∈ us, m'.next z = m.next z
  buf : ∀ z ∈ us, m'.buf z = m.buf z
  lists : ∃ fs ps, Lists m' us fs ps

theorem newLink_refused {len tag : ℕ} {a : Alloc} (h : Lists m us fs ps)
    (hr : newLink m len tag a = (m', none)) : Refused m m' us := by
  cases he : allocLink m a.link with
  | mk m₁ r =>
    cases r with
    | none =>
      simp only [newLink, he, Prod.mk.injEq, and_true] at hr
      have hm : m₁ = m := by
        unfold allocLink at he
        split at he
        · cases he
        · split at he
          · cases he
          · exact (Prod.mk.inj he).1.symm
      rw [← hr, hm]
      exact ⟨fun _ _ => rfl, fun _ _ => rfl, fs, ps, h⟩
    | some cl =>
      cases hb : a.buf with
      | true => simp [newLink, he, hb] at hr
      | false =>
        simp only [newLink, he, hb, Bool.false_eq_true, if_false, Prod.mk.injEq, and_true] at hr
        obtain ⟨hn, hbuf, ps', hl⟩ := allocLink_given h he
        rw [← hr]
        exact ⟨fun z _ => congrFun hn z, fun z _ => congrFun hbuf z, fs, ps', hl.tail⟩

theorem reuseLink_refused {len tag : ℕ} {a : Alloc} (h : Lists m us (o :: fs) ps)
    (hr : reuseLink m o len tag a = (m', none)) : Refused m m' us := by
  have hlists := h.popFree
  have hne : ∀ z ∈ us, z ≠ o := fun z hz he => h.notMem_free hz (he ▸ List.mem_cons_self ..)
  unfold reuseLink at hr
  dsimp only at hr
  split at hr
  · simp at hr
  · split at hr
    · simp at hr
    · split at hr
      · simp at hr
      · simp only [Prod.mk.injEq, and_true] at hr
        rw [← hr]
        exact ⟨fun z hz => Function.update_of_ne (hne z hz) _ _,
          fun z hz => Function.update_of_ne (hne z hz) _ _, fs, ps, hlists.setLink.tail⟩

theorem getFreeBuf_refused {len tag : ℕ} {a : Alloc} (h : Lists m us fs ps)
    (hr : getFreeBuf m len tag true a = (m', none)) : Refused m m' us := by
  cases fs with
  | nil =>
    have hfree : m.free = none := h.free
    simp only [getFreeBuf, hfree] at hr
    exact newLink_refused h hr
  | cons o fs =>
    have hfree : m.free = some o := h.free.1
    simp only [getFreeBuf, hfree] at hr
    exact reuseLink_refused h hr

theorem getFreeBuf_granted (m : Mem) (len tag : ℕ) :
    (getFreeBuf m len tag true ⟨true, true⟩).2.isSome = true := by
  unfold getFreeBuf
  split
  · unfold reuseLink
    dsimp only
    split
    · rfl
    · split
      · rfl
      · rfl
  · unfold newLink allocLink
    cases m.pool with
    | none => rfl
    | some cl => rfl

/-! ### The steps of the walk -/

variable {tag k : ℕ}

theorem getTail_keep (hy : (m.buf y).bytes ≠ []) :
    getTail tag (k + 1) m ll (some y) = getTail tag k m (some y) (m.next y) := by
  simp [getTail, hy]

theorem getTail_foreign (hy : (m.buf y).bytes = []) (ht : (m.buf y).tag ≠ tag) :
    getTail tag (k + 1) m ll (some y) = getTail tag k (freeChain (unlink m ll y) y) ll
      (ll.bind (freeChain (unlink m ll y) y).next) := by
  simp [getTail, hy, ht]

theorem getTail_own (hy : (m.buf y).bytes = []) (ht : (m.buf y).tag = tag) :
    getTail tag (k + 1) m ll (some y) = getTail tag k (keepFree m y) ll (m.next y) := by
  simp [getTail, hy, ht]

theorem getTail_end : getTail tag k m ll none = (m, ll) := by
  cases k <;> rfl

/-- An empty link that the walk put aside: it is free, or nobody has it. -/
def Lost (m : Mem) (us fs : List ℕ) (o : ℕ) : Prop :=
  (m.buf o).bytes = [] ∧ (o ∈ fs ∨ fs = [] ∧ o ∈ us ∧ m.next o = none)

theorem Lists.keep (h : Lists m (y :: ys ++ us) fs ps) : Lists m (ys ++ y :: us) fs ps :=
  h.perm List.perm_middle

theorem Lists.foreign (h : Lists m (y :: ys ++ us) fs ps) (hl : l ∈ us) :
    Lists (Chain.freeChain (unlink m (some l) y) y) (ys ++ us) fs (y :: ps) := by
  have hm : l ∈ y :: (ys ++ us) := List.mem_cons_of_mem _ (List.mem_append_right _ hl)
  exact Lists.freeChain (h.setNext hm (m.next y))

theorem foreign_next (m : Mem) {z : ℕ} (hl : z ≠ l) (hy : z ≠ y) :
    (Chain.freeChain (unlink m (some l) y) y).next z = m.next z :=
  (Function.update_of_ne hy _ _).trans (Function.update_of_ne hl _ _)

theorem foreign_next_last (m : Mem) (hl : l ≠ y) :
    (Chain.freeChain (unlink m (some l) y) y).next l = m.next y :=
  (Function.update_of_ne hl _ _).trans (Function.update_self ..)

theorem Lists.own (h : Lists m (y :: ys ++ us) fs ps) (hy : (m.buf y).bytes = []) :
    ∃ us' fs', Lists (keepFree m y) (ys ++ us') fs' ps ∧ us ⊆ us' ∧ Lost (keepFree m y) us' fs' y ∧
      ∀ o, o ≠ y → Lost m us fs o → Lost (keepFree m y) us' fs' o := by
  have hbuf := keepFree_buf hy
  cases fs with
  | nil =>
    have hfree : m.free = none := h.free
    refine ⟨y :: us, [], (h.keepFree_none).perm List.perm_middle, List.subset_cons_self .., ?_, ?_⟩
    · refine ⟨by rw [hbuf, hy], .inr ⟨rfl, List.mem_cons_self .., ?_⟩⟩
      rw [keepFree_next_self, hfree]
    · intro o ho hlost
      obtain ⟨hdata, hm | ⟨-, hm, hnone⟩⟩ := hlost
      · simp at hm
      · refine ⟨by rw [hbuf, hdata], .inr ⟨rfl, List.mem_cons_of_mem _ hm, ?_⟩⟩
        rw [keepFree_next m ho, hnone]
  | cons f fs =>
    refine ⟨us, y :: f :: fs, h.keepFree_some, fun x hx => hx, ?_, ?_⟩
    · exact ⟨by rw [hbuf, hy], .inl (List.mem_cons_self ..)⟩
    · intro o ho hlost
      obtain ⟨hdata, hm | ⟨hm, -, -⟩⟩ := hlost
      · exact ⟨by rw [hbuf, hdata], .inl (List.mem_cons_of_mem _ hm)⟩
      · simp at hm

theorem Lost.keep (h : Lost m us fs o) : Lost m (y :: us) fs o := by
  obtain ⟨hdata, hm | ⟨hf, hm, hn⟩⟩ := h
  · exact ⟨hdata, .inl hm⟩
  · exact ⟨hdata, .inr ⟨hf, List.mem_cons_of_mem _ hm, hn⟩⟩

theorem Lost.foreign (h : Lost m us fs o) (hl : o ≠ l) (hy : o ≠ y) :
    Lost (Chain.freeChain (unlink m (some l) y) y) us fs o := by
  obtain ⟨hdata, hm | ⟨hf, hm, hn⟩⟩ := h
  · exact ⟨hdata, .inl hm⟩
  · exact ⟨hdata, .inr ⟨hf, hm, (foreign_next m hl hy).trans hn⟩⟩

theorem Lost.mem (h : Lost m us fs o) : o ∈ us ++ (fs ++ ps) := by
  obtain ⟨-, hm | ⟨-, hm, -⟩⟩ := h
  · exact List.mem_append_right _ (List.mem_append_left _ hm)
  · exact List.mem_append_left _ hm

theorem Lists.lost_ne (h : Lists m (y :: ys ++ us) fs ps) (ho : Lost m us fs o) : o ≠ y := by
  rintro rfl
  have hm : o ∈ ys ++ us ++ (fs ++ ps) := by
    rw [List.append_assoc]
    exact List.mem_append_right _ ho.mem
  exact (List.nodup_cons.mp h.nodup).1 hm

theorem Lists.used_ne (h : Lists m (y :: ys ++ us) fs ps) (hx : x ∈ us) : x ≠ y := by
  rintro rfl
  refine (List.nodup_cons.mp h.nodup).1 ?_
  exact List.mem_append_left _ (List.mem_append_right _ hx)

theorem Lists.ahead_ne (h : Lists m (y :: ys ++ us) fs ps) : ∀ z ∈ ys, z ≠ y := by
  rintro z hz rfl
  exact (List.nodup_cons.mp h.nodup).1 (List.mem_append_left _ (List.mem_append_left _ hz))

theorem Lists.keepFree_seg (h : Lists m (y :: ys ++ us) fs ps) (hs : Seg m.next cl ys none) :
    Seg (keepFree m y).next cl ys none :=
  seg_congr (fun z hz => keepFree_next m (h.ahead_ne z hz)) hs

theorem Lists.foreign_seg (h : Lists m (y :: ys ++ us) fs ps) (hl : l ∈ us)
    (hs : Seg m.next cl ys none) :
    Seg (Chain.freeChain (unlink m (some l) y) y).next cl ys none := by
  refine seg_congr (fun z hz => foreign_next m ?_ (h.ahead_ne z hz)) hs
  rintro rfl
  have hnd := (List.nodup_append'.mp (List.nodup_append'.mp h.nodup).1).2.2
  exact hnd (List.mem_cons_of_mem _ hz) hl

/-! ### A walk that lost links -/

/-- The chain from `inp` goes over `ts` to the lost link `o`, away from `l`. -/
structure Stuck (m : Mem) (inp : Option ℕ) (us fs ts : List ℕ) (o l : ℕ) : Prop where
  seg : Seg m.next inp ts (some o)
  lost : Lost m us fs o
  used : ts ⊆ us
  nodup : ts.Nodup
  last : l ∈ us
  notMem : l ∉ ts
  ne : o ≠ l

theorem getTail_stuck {ts : List ℕ} (hs : Seg m.next cl ys none) (hk : ys.length ≤ k)
    (h : Lists m (ys ++ us) fs ps) (hst : Stuck m inp us fs ts o l) :
    ∃ us' fs' ps' l', Lists (getTail tag k m (some l) cl).1 us' fs' ps' ∧
      Stuck (getTail tag k m (some l) cl).1 inp us' fs' ts o l' ∧
      (getTail tag k m (some l) cl).2 = some l' ∧ (getTail tag k m (some l) cl).1.buf = m.buf := by
  induction ys generalizing m cl us fs ps l k with
  | nil =>
    have hcl : cl = none := hs
    rw [hcl, getTail_end]
    exact ⟨us, fs, ps, l, h, hst, rfl, rfl⟩
  | cons y ys ih =>
    obtain ⟨rfl, hs⟩ := hs
    cases k with
    | zero => simp at hk
    | succ k =>
      have hk : ys.length ≤ k := Nat.le_of_succ_le_succ hk
      have hoy := h.lost_ne hst.lost
      have hly := h.used_ne hst.last
      have hty : ∀ t ∈ ts, t ≠ y := fun t ht => h.used_ne (hst.used ht)
      have htl : ∀ t ∈ ts, t ≠ l := fun t ht he => hst.notMem (he ▸ ht)
      by_cases hd : (m.buf y).bytes = []
      · by_cases ht : (m.buf y).tag = tag
        · rw [getTail_own hd ht, ← keepFree_buf hd]
          obtain ⟨us', fs', hl', hsub, -, hlost⟩ := h.own hd
          refine ih (h.keepFree_seg hs) hk hl'
            ⟨?_, ?_, ?_, hst.nodup, ?_, ?_, ?_⟩
          · exact seg_congr (fun t hm => keepFree_next m (hty t hm)) hst.seg
          · exact hlost o hoy hst.lost
          · exact fun t hm => hsub (hst.used hm)
          · exact hsub hst.last
          · exact hst.notMem
          · exact hst.ne
        · rw [getTail_foreign hd ht, Option.bind_some, foreign_next_last m hly]
          refine ih (h.foreign_seg hst.last hs) hk (h.foreign hst.last)
            ⟨?_, ?_, hst.used, hst.nodup, hst.last, hst.notMem, hst.ne⟩
          · exact seg_congr (fun t hm => foreign_next m (htl t hm) (hty t hm)) hst.seg
          · exact hst.lost.foreign hst.ne hoy
      · rw [getTail_keep hd]
        refine ih hs hk h.keep ⟨hst.seg, hst.lost.keep, ?_, hst.nodup, List.mem_cons_self .., ?_, hoy⟩
        · exact fun t hm => List.mem_cons_of_mem _ (hst.used hm)
        · exact fun hm => hty y hm rfl

/-! ### The whole walk -/

/-- An empty link with the module's tag has no link with bytes behind it. -/
def Relinked (tag : ℕ) (a b : Buf) : Prop := a.bytes = [] → a.tag = tag → b.bytes = []

instance (tag : ℕ) : DecidableRel (Relinked tag) := fun a b =>
  inferInstanceAs (Decidable (a.bytes = [] → a.tag = tag → b.bytes = []))

def kept (m : Mem) (ys : List ℕ) : List ℕ := ys.filter fun y => (m.buf y).bytes ≠ []

def bytes (m : Mem) (ys : List ℕ) : Bytes := content (ys.map m.buf)

theorem kept_keep (hy : (m.buf y).bytes ≠ []) : kept m (y :: ys) = y :: kept m ys := by
  simp [kept, hy]

theorem kept_empty (hy : (m.buf y).bytes = []) : kept m (y :: ys) = kept m ys := by
  simp [kept, hy]

theorem kept_congr (hb : m'.buf = m.buf) : kept m' ys = kept m ys := by
  rw [kept, hb, kept]

theorem bytes_congr (hb : m'.buf = m.buf) : bytes m' ys = bytes m ys := by
  rw [bytes, hb, bytes]

theorem bytes_append (m : Mem) (xs ys : List ℕ) : bytes m (xs ++ ys) = bytes m xs ++ bytes m ys := by
  simp [bytes, content]

theorem bytes_cons (m : Mem) (y : ℕ) (ys : List ℕ) :
    bytes m (y :: ys) = (m.buf y).bytes ++ bytes m ys := by
  simp [bytes, content]

theorem bytes_kept (m : Mem) (ys : List ℕ) : bytes m (kept m ys) = bytes m ys := by
  induction ys with
  | nil => rfl
  | cons y ys ih =>
    by_cases hy : (m.buf y).bytes = []
    · rw [kept_empty hy, bytes_cons, hy, ih, List.nil_append]
    · rw [kept_keep hy, bytes_cons, bytes_cons, ih]

/-- The chain goes over the links with bytes `ts`, and `l` is the last of them. -/
structure Tail (m : Mem) (inp : Option ℕ) (us ts : List ℕ) (l : ℕ) : Prop where
  seg : Seg m.next inp ts (some l)
  used : ts ⊆ us
  nodup : ts.Nodup
  last : l ∈ us
  notMem : l ∉ ts

theorem Tail.nodup_snoc {ts : List ℕ} (ht : Tail m inp us ts l) : (ts ++ [l]).Nodup :=
  List.nodup_append'.mpr ⟨ht.nodup, List.nodup_singleton l, by
    intro _ hx hl
    exact ht.notMem (List.mem_singleton.mp hl ▸ hx)⟩

theorem Tail.used_snoc {ts : List ℕ} (ht : Tail m inp us ts l) : ts ++ [l] ⊆ us := by
  intro _ hx
  rcases List.mem_append.mp hx with hx | hx
  · exact ht.used hx
  · exact List.mem_singleton.mp hx ▸ ht.last

/-- What the link `l` is linked to, when the walk came over `p` to `cl`. -/
def Ahead (m : Mem) (tag : ℕ) (us fs : List ℕ) (p : Buf) (l : ℕ) (cl : Option ℕ) : Prop :=
  (p.bytes = [] → p.tag ≠ tag) ∧ m.next l = cl ∨
    p.bytes = [] ∧ p.tag = tag ∧ ∃ o, m.next l = some o ∧ Lost m us fs o

theorem Tail.keep (ht : Tail m inp us ks l) (hn : m.next l = some y) (hy : y ∉ us) :
    Tail m inp (y :: us) (ks ++ [l]) y where
  seg := seg_snoc.mpr ⟨ht.seg, hn⟩
  used := fun _ hx => List.mem_cons_of_mem _ (ht.used_snoc hx)
  nodup := ht.nodup_snoc
  last := List.mem_cons_self ..
  notMem := fun hm => hy (ht.used_snoc hm)

theorem Tail.stuck (ht : Tail m inp us ks l) (hn : m.next l = some o) (ho : Lost m us fs o)
    (hy : y ∉ us) (hoy : o ≠ y) : Stuck m inp (y :: us) fs (ks ++ [l]) o y where
  seg := seg_snoc.mpr ⟨ht.seg, hn⟩
  lost := ho.keep
  used := fun _ hx => List.mem_cons_of_mem _ (ht.used_snoc hx)
  nodup := ht.nodup_snoc
  last := List.mem_cons_self ..
  notMem := fun hm => hy (ht.used_snoc hm)
  ne := hoy

/-- Once there is a link with bytes: the walk keeps all of them, or the chain
ends in a lost link before the last of them. -/
theorem getTail_some {p : Buf} (hs : Seg m.next cl ys none) (hk : ys.length ≤ k)
    (h : Lists m (ys ++ us) fs ps) (ht : Tail m inp us ks l) (hp : Ahead m tag us fs p l cl) :
    ∃ us' fs' ps' l', Lists (getTail tag k m (some l) cl).1 us' fs' ps' ∧
      (getTail tag k m (some l) cl).2 = some l' ∧ (getTail tag k m (some l) cl).1.buf = m.buf ∧
      ((p :: ys.map m.buf).IsChain (Relinked tag) ∧
        (∃ ts, ks ++ l :: kept m ys = ts ++ [l'] ∧
          Tail (getTail tag k m (some l) cl).1 inp us' ts l') ∨
      ¬ (p :: ys.map m.buf).IsChain (Relinked tag) ∧
        ∃ ts o, Stuck (getTail tag k m (some l) cl).1 inp us' fs' ts o l' ∧
          (bytes m ts).length < (bytes m (ks ++ l :: kept m ys)).length) := by
  induction ys generalizing m cl us fs ps ks l p k with
  | nil =>
    have hcl : cl = none := hs
    rw [hcl, getTail_end]
    refine ⟨us, fs, ps, l, h, rfl, rfl, .inl ⟨?_, ks, rfl, ht⟩⟩
    exact List.isChain_singleton _
  | cons y ys ih =>
    obtain ⟨rfl, hs⟩ := hs
    cases k with
    | zero => simp at hk
    | succ k =>
      have hk : ys.length ≤ k := Nat.le_of_succ_le_succ hk
      have hly := h.used_ne ht.last
      have hyu : y ∉ us := fun hm => h.used_ne hm rfl
      have hty : ∀ t ∈ ks, t ≠ y := fun t hm => h.used_ne (ht.used hm)
      rw [List.map_cons, List.isChain_cons_cons]
      by_cases hd : (m.buf y).bytes = []
      · have hrel : Relinked tag p (m.buf y) := fun _ _ => hd
        rw [kept_empty hd]
        by_cases htag : (m.buf y).tag = tag
        · obtain ⟨us', fs', hl', hsub, hnew, hlost⟩ := h.own hd
          rw [getTail_own hd htag]
          have hbuf := keepFree_buf hd
          have hs' := h.keepFree_seg hs
          have ht' : Tail (keepFree m y) inp us' ks l :=
            ⟨seg_congr (fun t hm => keepFree_next m (hty t hm)) ht.seg,
              fun t hm => hsub (ht.used hm), ht.nodup, hsub ht.last, ht.notMem⟩
          have hnext : (keepFree m y).next l = m.next l := keepFree_next m hly
          have hp' : Ahead (keepFree m y) tag us' fs' (m.buf y) l (m.next y) := by
            refine .inr ⟨hd, htag, ?_⟩
            rw [hnext]
            rcases hp with ⟨-, hn⟩ | ⟨-, -, o, hn, ho⟩
            · exact ⟨y, hn, hnew⟩
            · exact ⟨o, hn, hlost o (h.lost_ne ho) ho⟩
          have hih := ih hs' hk hl' ht' hp'
          simp only [kept_congr hbuf, bytes_congr hbuf, hbuf] at hih
          simpa only [hrel, true_and] using hih
        · rw [getTail_foreign hd htag, Option.bind_some, foreign_next_last m hly]
          have htl : ∀ t ∈ ks, t ≠ l := fun t hm he => ht.notMem (he ▸ hm)
          have hs' := h.foreign_seg ht.last hs
          have ht' : Tail (Chain.freeChain (unlink m (some l) y) y) inp us ks l :=
            ⟨seg_congr (fun t hm => foreign_next m (htl t hm) (hty t hm)) ht.seg, ht.used, ht.nodup,
              ht.last, ht.notMem⟩
          have hp' : Ahead (Chain.freeChain (unlink m (some l) y) y) tag us fs (m.buf y) l
              (m.next y) := .inl ⟨fun _ => htag, foreign_next_last m hly⟩
          have hih := ih hs' hk (h.foreign ht.last) ht' hp'
          have hbuf : (Chain.freeChain (unlink m (some l) y) y).buf = m.buf := rfl
          simp only [kept_congr hbuf, bytes_congr hbuf, hbuf] at hih
          simpa only [hrel, true_and] using hih
      · rw [getTail_keep hd, kept_keep hd]
        rcases hp with ⟨hpt, hn⟩ | ⟨hpd, hpt, o, hn, ho⟩
        · have hrel : Relinked tag p (m.buf y) := fun he hte => absurd hte (hpt he)
          have hih := ih hs hk h.keep (ht.keep hn hyu)
            (.inl ⟨fun he => absurd he hd, rfl⟩ : Ahead m tag (y :: us) fs (m.buf y) y (m.next y))
          simpa only [hrel, true_and, List.append_assoc, List.singleton_append] using hih
        · have hrel : ¬ Relinked tag p (m.buf y) := fun hr => hd (hr hpd hpt)
          obtain ⟨us', fs', ps', l', hl', hst, hr, hbuf⟩ :=
            getTail_stuck hs hk h.keep (ht.stuck hn ho hyu (h.lost_ne ho))
          refine ⟨us', fs', ps', l', hl', hr, hbuf, .inr ⟨fun hc => hrel hc.1, _, o, hst, ?_⟩⟩
          have hpos := List.length_pos_iff.mpr hd
          simp only [bytes_append, bytes_cons, List.length_append]
          simp only [bytes, content, List.map_nil, List.flatMap_nil, List.length_nil]
          omega

/-- The walk ends before it comes to a link with bytes. -/
def stops (tag : ℕ) : List Buf → Bool
  | [] => true
  | b :: bs => if b.bytes ≠ [] then false else if b.tag ≠ tag then true else stops tag bs

theorem stops_empty {bs : List Buf} (h : ∀ b ∈ bs, b.bytes = []) : stops tag bs = true := by
  induction bs with
  | nil => rfl
  | cons b bs ih =>
    have hb := h b (List.mem_cons_self ..)
    have hbs := ih fun c hc => h c (List.mem_cons_of_mem _ hc)
    simp [stops, hb, hbs]

/-- While the first link is lost and no link with bytes is found. -/
theorem getTail_lost (hs : Seg m.next cl ys none) (hk : ys.length ≤ k)
    (h : Lists m (ys ++ us) fs ps) (ho : Lost m us fs o) :
    ∃ us' fs' ps', Lists (getTail tag k m none cl).1 us' fs' ps' ∧
      (getTail tag k m none cl).1.buf = m.buf ∧
      (stops tag (ys.map m.buf) = true ∧ (getTail tag k m none cl).2 = none ∨
        stops tag (ys.map m.buf) = false ∧ ∃ l, (getTail tag k m none cl).2 = some l ∧
          Stuck (getTail tag k m none cl).1 (some o) us' fs' [] o l) := by
  induction ys generalizing m cl us fs ps k with
  | nil =>
    have hcl : cl = none := hs
    rw [hcl, getTail_end]
    exact ⟨us, fs, ps, h, rfl, .inl ⟨rfl, rfl⟩⟩
  | cons y ys ih =>
    obtain ⟨rfl, hs⟩ := hs
    cases k with
    | zero => simp at hk
    | succ k =>
      have hk : ys.length ≤ k := Nat.le_of_succ_le_succ hk
      have hoy := h.lost_ne ho
      by_cases hd : (m.buf y).bytes = []
      · by_cases htag : (m.buf y).tag = tag
        · obtain ⟨us', fs', hl', -, -, hlost⟩ := h.own hd
          rw [getTail_own hd htag]
          have hih := ih (h.keepFree_seg hs) hk hl' (hlost o hoy ho)
          rw [keepFree_buf hd] at hih
          simpa [stops, hd, htag] using hih
        · rw [getTail_foreign hd htag, Option.bind_none, getTail_end]
          exact ⟨ys ++ us, fs, y :: ps, Lists.freeChain h, rfl, .inl ⟨by simp [stops, hd, htag], rfl⟩⟩
      · rw [getTail_keep hd]
        have hst : Stuck m (some o) (y :: us) fs [] o y :=
          ⟨rfl, ho.keep, List.nil_subset _, List.nodup_nil, List.mem_cons_self .., by simp, hoy⟩
        obtain ⟨us', fs', ps', l, hl, hst, hr, hbuf⟩ := getTail_stuck hs hk h.keep hst
        exact ⟨us', fs', ps', hl, hbuf, .inr ⟨by simp [stops, hd], l, hr, hst⟩⟩

/-- The first link has bytes and every link with bytes can be reached from it. -/
def linked (tag : ℕ) (bs : List Buf) : Prop :=
  (∀ b ∈ bs.head?, b.bytes ≠ []) ∧ bs.IsChain (Relinked tag)

/-- The walk from the first link on. -/
theorem getTail_first (hs : Seg m.next inp ys none) (hk : ys.length ≤ k) (h : Lists m ys fs ps) :
    ∃ us' fs' ps', Lists (getTail tag k m none inp).1 us' fs' ps' ∧
      (getTail tag k m none inp).1.buf = m.buf ∧
      (stops tag (ys.map m.buf) = true ∧ (getTail tag k m none inp).2 = none ∨
        stops tag (ys.map m.buf) = false ∧ ∃ l, (getTail tag k m none inp).2 = some l ∧
          (linked tag (ys.map m.buf) ∧
              (∃ ts, kept m ys = ts ++ [l] ∧ Tail (getTail tag k m none inp).1 inp us' ts l) ∨
            ¬ linked tag (ys.map m.buf) ∧
              ∃ ts o, Stuck (getTail tag k m none inp).1 inp us' fs' ts o l ∧
                (bytes m ts).length < (bytes m ys).length)) := by
  cases ys with
  | nil =>
    have hcl : inp = none := hs
    rw [hcl, getTail_end]
    exact ⟨[], fs, ps, h, rfl, .inl ⟨rfl, rfl⟩⟩
  | cons y ys =>
    obtain ⟨rfl, hs⟩ := hs
    cases k with
    | zero => simp at hk
    | succ k =>
      have hk : ys.length ≤ k := Nat.le_of_succ_le_succ hk
      have h' : Lists m (y :: ys ++ []) fs ps := by rwa [List.append_nil]
      by_cases hd : (m.buf y).bytes = []
      · by_cases htag : (m.buf y).tag = tag
        · obtain ⟨us', fs', hl', -, hnew, -⟩ := h'.own hd
          rw [getTail_own hd htag]
          obtain ⟨us', fs', ps', hl, hbuf, hcases⟩ :=
            @getTail_lost _ _ _ _ _ _ _ tag _ (h'.keepFree_seg hs) hk hl' hnew
          rw [keepFree_buf hd] at hbuf hcases
          refine ⟨us', fs', ps', hl, hbuf, ?_⟩
          rcases hcases with ⟨hstop, hr⟩ | ⟨hstop, l, hr, hst⟩
          · exact .inl ⟨by simpa [stops, hd, htag] using hstop, hr⟩
          · refine .inr ⟨by simpa [stops, hd, htag] using hstop, l, hr, .inr ⟨?_, [], y, hst, ?_⟩⟩
            · exact fun hc => hc.1 _ rfl hd
            · refine List.length_pos_iff.mpr fun he => ?_
              have hnil : ∀ b ∈ (ys.map m.buf), b.bytes = [] := by
                intro b hb
                obtain ⟨x, hx, rfl⟩ := List.mem_map.mp hb
                exact List.flatMap_eq_nil_iff.mp he _ (List.mem_map_of_mem (List.mem_cons_of_mem _ hx))
              rw [stops_empty hnil] at hstop
              cases hstop
        · rw [getTail_foreign hd htag, Option.bind_none, getTail_end]
          exact ⟨ys, fs, y :: ps, Lists.freeChain h, rfl, .inl ⟨by simp [stops, hd, htag], rfl⟩⟩
      · rw [getTail_keep hd]
        have ht : Tail m (some y) [y] [] y :=
          ⟨rfl, List.nil_subset _, List.nodup_nil, List.mem_singleton_self y, by simp⟩
        have hp : Ahead m tag [y] fs (m.buf y) y (m.next y) := .inl ⟨fun he => absurd he hd, rfl⟩
        obtain ⟨us', fs', ps', l, hl, hr, hbuf, hcases⟩ := getTail_some hs hk h'.keep ht hp
        refine ⟨us', fs', ps', hl, hbuf, .inr ⟨by simp [stops, hd], l, hr, ?_⟩⟩
        rw [List.nil_append, ← kept_keep hd, bytes_kept] at hcases
        rcases hcases with ⟨hc, ts, hts, htail⟩ | ⟨hc, hst⟩
        · refine .inl ⟨⟨fun b hb => ?_, hc⟩, ts, hts, htail⟩
          obtain rfl : m.buf y = b := by simpa using hb
          exact hd
        · exact .inr ⟨fun hl => hc hl.2, hst⟩

end NgxWasm.Wasm.ChainTail
