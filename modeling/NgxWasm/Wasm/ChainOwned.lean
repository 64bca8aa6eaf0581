import NgxWasm.Wasm.ChainAppend

/-!
# Links that an edit of a chain leaves alone (ngx_wasm_util.c)

Links `qs` that are neither in the chain, nor free, nor in the pool of the call
stay linked as they are and are not taken for new data. What
`ngx_wasm_chain_len` counts is the content before the first flagged link.
-/

namespace NgxWasm.Wasm.ChainOwned
open NgxWasm.Lib Links
open NgxWasm.Wasm Chain ChainTail ChainAppend

variable {m m' : Mem} {us vs ws fs fs' ps ps' xs ys qs : List ℕ} {inp inp' cl ll : Option ℕ}
  {tag offset k nl : ℕ} {str : Bytes} {a : Alloc}

/-! ### The counted length -/

/-- The bytes behind the first flagged link. -/
def behind : List Buf → Bytes
  | [] => []
  | b :: bs => if b.flagged then content bs else behind bs

theorem chainLen_behind (bs : List Buf) :
    (chainLen bs).1 + (behind bs).length = (content bs).length := by
  induction bs with
  | nil => rfl
  | cons b bs ih =>
    rw [content_cons, List.length_append]
    by_cases hb : b.flagged = true
    · simp only [chainLen, behind, hb, if_true, Buf.size]
    · simp only [chainLen, behind, hb, Buf.size]
      simp only [Bool.false_eq_true, if_false]
      omega

/-! ### Lists of links -/

/-- Some of the links in use, as they are found in two views of one memory. -/
theorem Lists.part (hu : Lists m us fs ps) (hw : Lists m ws fs' ps')
    (hv : ∀ x ∈ vs, x ∈ us ∨ x ∈ ws) (hn : vs.Nodup) : Lists m vs fs ps := by
  have hfs : fs' = fs := seg_unique hw.free hu.free
  have hps : ps' = ps := seg_unique hw.pool hu.pool
  rw [hfs, hps] at hw
  refine ⟨hu.free, hu.pool, ?_, ?_⟩
  · refine List.nodup_append'.mpr ⟨hn, (List.nodup_append'.mp hu.nodup).2.1, ?_⟩
    intro x hx hf
    rcases hv x hx with hm | hm
    · exact (List.nodup_append'.mp hu.nodup).2.2 hm hf
    · exact (List.nodup_append'.mp hw.nodup).2.2 hm hf
  · intro x hx
    rcases List.mem_append.mp hx with hx | hx
    · rcases hv x hx with hm | hm
      · exact hu.lt x (List.mem_append_left _ hm)
      · exact hw.lt x (List.mem_append_left _ hm)
    · exact hu.lt x (List.mem_append_right _ hx)

theorem Lists.sub (hu : Lists m us fs ps) (hv : vs ⊆ us) (hn : vs.Nodup) : Lists m vs fs ps :=
  Lists.part hu hu (fun _ hx => Or.inl (hv hx)) hn

/-- The walk leaves the links alone that it does not come over. -/
theorem getTail_frame (hs : Seg m.next cl ys none) (hk : ys.length ≤ k)
    (h : Lists m (ys ++ us) fs ps) (hq : qs ⊆ us) (hl : ∀ l ∈ ll, l ∈ us ∧ l ∉ qs) :
    ∃ us' fs' ps', Lists (getTail tag k m ll cl).1 us' fs' ps' ∧ qs ⊆ us' ∧
      ∀ q ∈ qs, (getTail tag k m ll cl).1.next q = m.next q := by
  induction ys generalizing m cl us fs ps ll k with
  | nil =>
    have hcl : cl = none := hs
    rw [hcl, getTail_end]
    exact ⟨us, fs, ps, h, hq, fun _ _ => rfl⟩
  | cons y ys ih =>
    obtain ⟨rfl, hs⟩ := hs
    cases k with
    | zero => simp at hk
    | succ k =>
      have hk : ys.length ≤ k := Nat.le_of_succ_le_succ hk
      have hqy : ∀ q ∈ qs, q ≠ y := fun q hm => h.used_ne (hq hm)
      by_cases hd : (m.buf y).bytes = []
      · by_cases ht : (m.buf y).tag = tag
        · obtain ⟨us', fs', hl', hsub, -, -⟩ := h.own hd
          obtain ⟨ua, fa, pa, ha, hqa, hna⟩ := ih (h.keepFree_seg hs) hk hl'
            (fun q hm => hsub (hq hm)) fun l hm => ⟨hsub (hl l hm).1, (hl l hm).2⟩
          rw [getTail_own hd ht]
          refine ⟨ua, fa, pa, ha, hqa, ?_⟩
          intro q hm
          rw [hna q hm, keepFree_next m (hqy q hm)]
        · rw [getTail_foreign hd ht]
          cases ll with
          | none =>
            rw [Option.bind_none, getTail_end]
            refine ⟨ys ++ us, fs, y :: ps, Lists.freeChain h, ?_, ?_⟩
            · exact fun q hm => List.mem_append_right _ (hq hm)
            · exact fun q hm => Function.update_of_ne (hqy q hm) _ _
          | some l =>
            obtain ⟨hlu, hlq⟩ := hl l rfl
            have hly := h.used_ne hlu
            obtain ⟨ua, fa, pa, ha, hqa, hna⟩ := ih (h.foreign_seg hlu hs) hk (h.foreign hlu) hq hl
            rw [Option.bind_some, foreign_next_last m hly]
            refine ⟨ua, fa, pa, ha, hqa, ?_⟩
            intro q hm
            rw [hna q hm]
            exact foreign_next m (fun he => hlq (he ▸ hm)) (hqy q hm)
      · rw [getTail_keep hd]
        refine ih hs hk h.keep (fun q hm => List.mem_cons_of_mem _ (hq hm)) ?_
        intro l hm
        obtain rfl : y = l := Option.some.inj hm
        exact ⟨List.mem_cons_self .., fun hq' => hqy y hq' rfl⟩

/-! ### Edits -/

/-- The chain after an edit, with `qs` as they were. -/
structure Owned (m m' : Mem) (inp' : Option ℕ) (qs : List ℕ) : Prop where
  lists : ∃ xs fs ps, Lists m' (xs ++ qs) fs ps ∧ Seg m'.next inp' xs none
  next : ∀ q ∈ qs, m'.next q = m.next q

theorem append_owned (h : Lists m (xs ++ qs) fs ps) (hs : Seg m.next inp xs none)
    (hr : chainAppend m inp offset str tag a = (m', inp', .ok))
    (hw : Walkable tag offset (m.bufs inp)) : Owned m m' inp' qs := by
  have hxs : xs.Nodup := seg_nodup hs
  have hqs : qs.Nodup := (List.nodup_append'.mp (List.nodup_append'.mp h.nodup).1).2.1
  have hxq : ∀ x ∈ xs, x ∉ qs := fun x hx hq =>
    (List.nodup_append'.mp (List.nodup_append'.mp h.nodup).1).2.2 hx hq
  have hlen : xs.length ≤ m.fresh := length_le_of_nodup hxs fun x hx =>
    h.lt x (List.mem_append_left _ (List.mem_append_left _ hx))
  have hbs : m.bufs inp = xs.map m.buf :=
    congrArg (List.map m.buf) (h.links_eq hs (List.subset_append_left xs qs))
  have hc := chainClear_cut (c := ⟨m.buf, 0, false, false⟩) hs hlen (Nat.zero_le offset)
  rw [chainAppend] at hr
  dsimp only at hr
  generalize chainClear m.next offset m.fresh ⟨m.buf, 0, false, false⟩ inp = c at hc hr
  have hcs : xs.map c.buf = cuts offset (m.bufs inp) := by rw [hc.cut, Nat.sub_zero, ← hbs]
  have hl₁ : Lists { m with buf := c.buf } (xs ++ qs) fs ps := lists_new h rfl rfl rfl rfl
  have hl₂ : Lists { m with buf := c.buf } xs fs ps :=
    Lists.sub hl₁ (List.subset_append_left xs qs) hxs
  obtain ⟨ua, fa, pa, ha, hqa, hna⟩ := @getTail_frame { m with buf := c.buf } qs fs ps xs qs inp none
    tag m.fresh hs hlen hl₁ (fun _ hq => hq) (by intro l hl; cases hl)
  obtain ⟨us', fs', ps', hl', -, hcases⟩ :=
    @getTail_first { m with buf := c.buf } fs ps xs inp tag m.fresh hs hlen hl₂
  dsimp only at hcases hna
  generalize getTail tag m.fresh { m with buf := c.buf } none inp = g at ha hna hl' hcases hr
  obtain ⟨m₁, ll⟩ := g
  dsimp only at ha hna hl' hcases hr
  rw [hcs] at hcases
  cases hget : getFreeBuf m₁ str.length tag true a with
  | mk m₂ r =>
    rw [hget] at hr
    cases r with
    | none => simp at hr
    | some nl =>
      rcases hcases with ⟨-, hnone⟩ | ⟨hstop, l, hsome, hcases⟩
      · rw [hnone] at hr
        simp only [Prod.mk.injEq, and_true] at hr
        obtain ⟨rfl, rfl⟩ := hr
        obtain ⟨hg, fs₂, ps₂, hl₂, -⟩ := getFreeBuf_given (Lists.sub ha hqa hqs) hget
        have hnl : nl ∉ qs := (List.nodup_cons.mp (List.nodup_append'.mp hl₂.nodup).1).1
        refine ⟨⟨[nl], fs₂, ps₂, lists_new hl₂ rfl rfl rfl rfl, rfl, hg.last⟩, ?_⟩
        intro q hq
        exact (hg.next q fun he => hnl (he ▸ hq)).trans (hna q hq)
      · rw [hsome] at hr
        simp only [Prod.mk.injEq, and_true] at hr
        obtain ⟨rfl, rfl⟩ := hr
        rcases hcases with ⟨-, ts, hts, htail⟩ | ⟨hlink, -⟩
        · have hsub : ts ++ [l] ⊆ xs := by
            rw [← hts]
            exact List.filter_subset_self _
          have hpart : Lists m₁ (ts ++ [l] ++ qs) fs' ps' := by
            refine Lists.part hl' ha ?_ ?_
            · intro x hx
              rcases List.mem_append.mp hx with hx | hx
              · exact Or.inl (htail.used_snoc hx)
              · exact Or.inr (hqa hx)
            · exact List.nodup_append'.mpr ⟨htail.nodup_snoc, hqs, fun x hx hq => hxq x (hsub hx) hq⟩
          obtain ⟨hg, fs₂, ps₂, hl₂, -⟩ := getFreeBuf_given hpart hget
          have hnl : nl ∉ ts ++ [l] ++ qs := (List.nodup_cons.mp (List.nodup_append'.mp hl₂.nodup).1).1
          have hne : ∀ z ∈ ts ++ [l], z ≠ nl := fun z hz he =>
            hnl (he ▸ List.mem_append_left _ hz)
          have hl₃ := (lists_new hl₂ rfl rfl rfl rfl : Lists (writeBuf m₂ nl str c.flush c.eof) _ _ _).setNext
            (List.mem_cons_of_mem _ (List.mem_append_left _ (List.mem_append_right _
              (List.mem_singleton_self l)))) (some nl)
          refine ⟨⟨ts ++ [l] ++ [nl], fs₂, ps₂, Lists.perm hl₃ ?_, ?_⟩, ?_⟩
          · rw [List.append_assoc (ts ++ [l]), List.singleton_append]
            exact List.perm_middle
          · refine seg_snoc.mpr ⟨seg_snoc.mpr ⟨?_, Function.update_self ..⟩, ?_⟩
            · refine seg_congr ?_ htail.seg
              intro z hz
              have hzl : z ≠ l := fun he => htail.notMem (he ▸ hz)
              exact (Function.update_of_ne hzl _ _).trans
                (hg.next z (hne z (List.mem_append_left _ hz)))
            · have hlnl := hne l (List.mem_append_right _ (List.mem_singleton_self l))
              exact (Function.update_of_ne hlnl.symm _ _).trans hg.last
          · intro q hq
            have hql : q ≠ l := fun he =>
              hxq l (hsub (List.mem_append_right _ (List.mem_singleton_self l))) (he ▸ hq)
            have hqnl : q ≠ nl := fun he => hnl (he ▸ List.mem_append_right _ hq)
            exact (Function.update_of_ne hql _ _).trans ((hg.next q hqnl).trans (hna q hq))
        · rcases hw with hempty | hw
          · rw [stops_empty hempty] at hstop
            cases hstop
          · exact absurd hw hlink

theorem behind_snoc {bs : List Buf} (b : Buf) (h : ∀ c ∈ bs, c.flagged = false) :
    behind (bs ++ [b]) = [] := by
  induction bs with
  | nil => simp [behind, content]
  | cons c bs ih =>
    have hc := h c (List.mem_cons_self ..)
    rw [List.cons_append, behind, hc]
    exact ih fun d hd => h d (List.mem_cons_of_mem _ hd)

theorem append_content (h : Wf m inp)
    (hr : chainAppend m inp offset str tag a = (m', inp', .ok))
    (hc : Cuttable offset (m.bufs inp)) (hw : Walkable tag offset (m.bufs inp)) :
    content (m'.bufs inp') = (content (m.bufs inp)).take offset ++ str ∧
      behind (m'.bufs inp') = [] := by
  have happ := ((append_iff h hr).2 hc).mpr hw
  obtain ⟨bs, -, hbs, hnew⟩ := append_walked h hr hw
  obtain ⟨b, hb, -⟩ := hnew.bufs
  refine ⟨happ.1, ?_⟩
  rw [hb]
  exact behind_snoc b hbs

theorem prepend_owned (h : Lists m (xs ++ qs) fs ps) (hs : Seg m.next inp xs none)
    (hr : chainPrepend m inp str tag a = (m', inp', .ok)) :
    Owned m m' inp' qs ∧
      ∃ b, m'.bufs inp' = b :: m.bufs inp ∧ b.bytes = str ∧ b.flagged = false := by
  rw [chainPrepend] at hr
  cases hget : getFreeBuf m str.length tag true a with
  | mk m₁ o =>
    rw [hget] at hr
    cases o with
    | none => simp at hr
    | some nl =>
      obtain ⟨hg, fs', ps', hl', -⟩ := getFreeBuf_given h hget
      simp only [Prod.mk.injEq, and_true] at hr
      obtain ⟨rfl, rfl⟩ := hr
      have hnl : nl ∉ xs ++ qs := (List.nodup_cons.mp (List.nodup_append'.mp hl'.nodup).1).1
      have hne : ∀ z ∈ xs, z ≠ nl := fun z hz he => hnl (he ▸ List.mem_append_left _ hz)
      have hl'' := (lists_new hl' rfl rfl rfl rfl : Lists (writeBuf m₁ nl str false false) _ _ _).setNext
        (List.mem_cons_self ..) inp
      have hs' : Seg (setNext (writeBuf m₁ nl str false false) nl inp).next (some nl) (nl :: xs)
          none := by
        refine ⟨rfl, ?_⟩
        rw [show (setNext (writeBuf m₁ nl str false false) nl inp).next nl = inp from
          Function.update_self ..]
        refine seg_congr ?_ hs
        intro z hz
        exact (Function.update_of_ne (hne z hz) _ _).trans (hg.next z (hne z hz))
      refine ⟨⟨⟨nl :: xs, fs', ps', hl'', hs'⟩, ?_⟩,
        (setNext (writeBuf m₁ nl str false false) nl inp).buf nl, ?_, ?_, ?_⟩
      · intro q hq
        have hqnl : q ≠ nl := fun he => hnl (he ▸ List.mem_append_right _ hq)
        exact (Function.update_of_ne hqnl _ _).trans (hg.next q hqnl)
      · have hsub : nl :: xs ⊆ nl :: (xs ++ qs) := List.cons_subset_cons _ (List.subset_append_left xs qs)
        rw [Mem.bufs, Mem.bufs, hl''.links_eq hs' hsub,
          h.links_eq hs (List.subset_append_left xs qs), List.map_cons]
        congr 1
        exact List.map_congr_left fun z hz => written_other hg false false (hne z hz)
      · exact (written hg false false).1
      · obtain ⟨-, -, hlast, hchain⟩ := written hg false false
        exact Bool.or_eq_false_iff.mpr ⟨hlast, hchain⟩

end NgxWasm.Wasm.ChainOwned
