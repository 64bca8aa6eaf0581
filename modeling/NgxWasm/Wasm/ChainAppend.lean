import NgxWasm.Wasm.ChainTail

/-!
# The chain that ngx_wasm_chain_append leaves (ngx_wasm_util.c)

The chain is cut to the first `offset` bytes of its buffers in memory, the walk
unlinks what is empty, and one link with the new data is put at the end.
-/

namespace NgxWasm.Wasm.ChainAppend
open NgxWasm.Lib Links
open NgxWasm.Wasm Chain ChainTail

/-! ### The cut -/

def cut (r : ℕ) (b : Buf) : Buf := b.unflag.keep r

/-- The buffers of a chain without flags, cut to the first `r` bytes from `pos` to
`last`. What is only in a file stays. -/
def cuts : ℕ → List Buf → List Buf
  | _, [] => []
  | r, b :: bs => cut r b :: cuts (r - b.data.length) bs

/-- What is only in a file ends within the first `r` bytes, and has a range of
memory of its size. -/
def InFront : ℕ → List Buf → Prop
  | _, [] => True
  | r, b :: bs =>
    (b.inMemory = false → b.file ≠ [] → b.data.length = b.file.length ∧ b.file.length ≤ r) ∧
      InFront (r - b.size) bs

/-- The cut leaves the first `r` bytes of the content. -/
def Cuttable (r : ℕ) (bs : List Buf) : Prop := (content bs).length ≤ r ∨ InFront r bs

instance : ∀ (r : ℕ) (bs : List Buf), Decidable (InFront r bs)
  | _, [] => isTrue trivial
  | r, b :: bs =>
    have := instDecidableInFront (r - b.size) bs
    inferInstanceAs (Decidable (_ ∧ _))

instance (r : ℕ) (bs : List Buf) : Decidable (Cuttable r bs) :=
  inferInstanceAs (Decidable (_ ∨ _))

theorem content_cons (b : Buf) (bs : List Buf) : content (b :: bs) = b.bytes ++ content bs := rfl

theorem data_le_size (b : Buf) : b.data.length ≤ b.size := by
  cases hm : b.inMemory with
  | true => simp [Buf.size, Buf.bytes, hm]
  | false => simpa [Buf.size, Buf.bytes, hm] using b.within hm

theorem bytes_of_memory {b : Buf} (h : b.inMemory = true) : b.bytes = b.data := if_pos h

theorem bytes_of_file {b : Buf} (h : b.inMemory = false) : b.bytes = b.file := by
  simp [Buf.bytes, h]

theorem cut_of_memory {r : ℕ} {b : Buf} (h : b.inMemory = true) : (cut r b).bytes = b.data.take r :=
  if_pos h

theorem cut_of_file {r : ℕ} {b : Buf} (h : b.inMemory = false) : (cut r b).bytes = b.file := by
  simp [cut, Buf.keep, Buf.unflag, Buf.bytes, h]

theorem cut_empty {r : ℕ} {b : Buf} (h : b.bytes = []) : (cut r b).bytes = [] := by
  cases hm : b.inMemory with
  | true => rw [cut_of_memory hm, data_empty h, List.take_nil]
  | false => rw [cut_of_file hm, ← bytes_of_file hm, h]

theorem cuts_whole {r : ℕ} {bs : List Buf} (h : (content bs).length ≤ r) :
    content (cuts r bs) = content bs := by
  induction bs generalizing r with
  | nil => rfl
  | cons b bs ih =>
    have hd := data_le_size b
    rw [content_cons, List.length_append, ← Buf.size] at h
    have hrest : (content bs).length ≤ r - b.data.length := by omega
    rw [cuts, content_cons, content_cons, ih hrest]
    cases hm : b.inMemory with
    | true =>
      rw [cut_of_memory hm, bytes_of_memory hm, List.take_of_length_le (by omega)]
    | false => rw [cut_of_file hm, bytes_of_file hm]

theorem cuts_inFront {r : ℕ} {bs : List Buf} (h : InFront r bs) :
    content (cuts r bs) = (content bs).take r := by
  induction bs generalizing r with
  | nil => simp [cuts, content]
  | cons b bs ih =>
    obtain ⟨hb, hbs⟩ := h
    rw [cuts, content_cons, content_cons, List.take_append]
    cases hm : b.inMemory with
    | true =>
      rw [Buf.size, bytes_of_memory hm] at hbs
      rw [cut_of_memory hm, bytes_of_memory hm, ih hbs]
    | false =>
      have hsize : b.data.length = b.file.length ∧ b.file.length ≤ r := by
        by_cases hf : b.file = []
        · have hle := b.within hm
          rw [hf] at hle ⊢
          exact ⟨Nat.le_zero.mp hle, Nat.zero_le r⟩
        · exact hb hm hf
      rw [Buf.size, bytes_of_file hm, ← hsize.1] at hbs
      rw [cut_of_file hm, bytes_of_file hm, List.take_of_length_le hsize.2, ih hbs, hsize.1]

theorem inFront_of_empty {r : ℕ} {bs : List Buf} (h : content bs = []) : InFront r bs := by
  induction bs generalizing r with
  | nil => trivial
  | cons b bs ih =>
    obtain ⟨hb, hbs⟩ := List.append_eq_nil_iff.mp h
    exact ⟨fun hm hf => absurd (bytes_of_file hm ▸ hb) hf, ih hbs⟩

theorem Cuttable.content {r : ℕ} {bs : List Buf} (h : Cuttable r bs) :
    content (cuts r bs) = (Chain.content bs).take r := by
  rcases h with hle | hfront
  · rw [cuts_whole hle, List.take_of_length_le hle]
  · exact cuts_inFront hfront

/-- Else the cut leaves too much. -/
theorem cuts_longer {r : ℕ} {bs : List Buf} (h : ¬ Cuttable r bs) :
    r < (content (cuts r bs)).length := by
  induction bs generalizing r with
  | nil => exact absurd (Or.inr trivial) h
  | cons b bs ih =>
    rw [Cuttable, not_or, not_le, content_cons, List.length_append] at h
    obtain ⟨hlen, hfront⟩ := h
    rw [cuts, content_cons, List.length_append]
    have hrest : ∀ n, ¬ InFront n bs → n < (content bs).length ∨ n = 0 →
        n < (content (cuts n bs)).length := by
      intro n hn hl
      refine ih (not_or.mpr ⟨fun hle => ?_, hn⟩)
      rcases hl with hl | rfl
      · omega
      · exact hn (inFront_of_empty (List.eq_nil_of_length_eq_zero (Nat.le_zero.mp hle)))
    cases hm : b.inMemory with
    | true =>
      have hbs : ¬ InFront (r - b.data.length) bs := by
        intro hbs
        refine hfront ⟨fun hf => ?_, by rwa [Buf.size, bytes_of_memory hm]⟩
        rw [hm] at hf
        cases hf
      have hcut := hrest _ hbs (by rw [bytes_of_memory hm] at hlen; omega)
      rw [cut_of_memory hm, List.length_take]
      omega
    | false =>
      have hle := b.within hm
      rw [bytes_of_file hm] at hlen
      rw [cut_of_file hm]
      by_cases hd : b.data.length = b.file.length ∧ b.file.length ≤ r
      · have hbs : ¬ InFront (r - b.data.length) bs := fun hbs =>
          hfront ⟨fun _ _ => hd, by rwa [Buf.size, bytes_of_file hm, ← hd.1]⟩
        have hcut := hrest _ hbs (by omega)
        omega
      · -- the links behind keep at least the bytes that are in front of the cut
        have hmin : min (r - b.data.length) (content bs).length ≤
            (content (cuts (r - b.data.length) bs)).length := by
          by_cases hc : Cuttable (r - b.data.length) bs
          · rw [hc.content, List.length_take]
          · have hcut := ih hc
            omega
        by_cases hf : b.file = []
        · rw [hf, List.length_nil] at hle hd
          omega
        · omega

theorem cuts_content_iff {r : ℕ} {bs : List Buf} :
    content (cuts r bs) = (content bs).take r ↔ Cuttable r bs := by
  refine ⟨fun h => ?_, Cuttable.content⟩
  by_contra hn
  have hlong := cuts_longer hn
  rw [h, List.length_take] at hlong
  omega

theorem cuts_unflagged {r : ℕ} {bs : List Buf} : ∀ b ∈ cuts r bs, b.flagged = false := by
  induction bs generalizing r with
  | nil => simp [cuts]
  | cons c bs ih =>
    intro b hb
    rcases List.mem_cons.mp hb with rfl | hb
    · rfl
    · exact ih b hb

theorem clearBuf_eq {offset pos : ℕ} (b : Buf) (h : pos ≤ offset) :
    clearBuf offset pos b =
      (cut (offset - pos) b, offset - (offset - pos - b.data.length)) := by
  unfold clearBuf cut
  dsimp only
  split
  · next hc =>
    have hn : b.data.length - (pos + b.data.length - offset) = offset - pos := by omega
    rw [hn]
    simp only [Prod.mk.injEq, true_and]
    omega
  · next hc =>
    split
    · next hp =>
      subst hp
      simp
    · next hp =>
      have hlen : b.data.length ≤ offset - pos := by omega
      have hkeep : b.unflag.keep (offset - pos) = b.unflag := keep_of_le hlen
      rw [hkeep]
      simp only [Prod.mk.injEq, true_and]
      omega

variable {next : ℕ → Option ℕ} {offset k : ℕ} {c : Cleared} {xs : List ℕ} {cl : Option ℕ}

structure Cut (r : ℕ) (xs : List ℕ) (c d : Cleared) : Prop where
  cut : xs.map d.buf = cuts r (xs.map c.buf)
  other : ∀ z, z ∉ xs → d.buf z = c.buf z
  eof : d.eof = (c.eof || (xs.map c.buf).any Buf.flagged)
  flush : d.flush = (c.flush || (xs.map c.buf).any Buf.flush)

theorem chainClear_cut (hs : Seg next cl xs none) (hk : xs.length ≤ k) (hp : c.pos ≤ offset) :
    Cut (offset - c.pos) xs c (chainClear next offset k c cl) := by
  induction xs generalizing c cl k with
  | nil =>
    have hcl : cl = none := hs
    rw [hcl]
    cases k <;> exact ⟨rfl, fun _ _ => rfl, (Bool.or_false _).symm, (Bool.or_false _).symm⟩
  | cons x xs ih =>
    have hx : x ∉ xs := (List.nodup_cons.mp (seg_nodup hs)).1
    obtain ⟨rfl, hs⟩ := hs
    cases k with
    | zero => simp at hk
    | succ k =>
      rw [chainClear, clearBuf_eq (c.buf x) hp]
      dsimp only
      have hmap : xs.map (Function.update c.buf x (cut (offset - c.pos) (c.buf x)))
          = xs.map c.buf := by
        refine List.map_congr_left fun z hz => Function.update_of_ne ?_ _ _
        rintro rfl
        exact hx hz
      have hpos : offset - (offset - c.pos - (c.buf x).data.length) ≤ offset := Nat.sub_le ..
      obtain ⟨hcut, hother, heof, hflush⟩ :=
        ih (c := ⟨Function.update c.buf x (cut (offset - c.pos) (c.buf x)), _,
          c.eof || (c.buf x).flagged, c.flush || (c.buf x).flush⟩) hs (Nat.le_of_succ_le_succ hk) hpos
      dsimp only at hcut hother heof hflush
      have hrest : offset - (offset - (offset - c.pos - (c.buf x).data.length))
          = offset - c.pos - (c.buf x).data.length := by omega
      rw [hmap, hrest] at hcut
      rw [hmap] at heof hflush
      refine ⟨?_, fun z hz => ?_, ?_, ?_⟩
      · rw [List.map_cons, List.map_cons, cuts, hcut, hother x hx, Function.update_self]
      · rw [List.mem_cons, not_or] at hz
        rw [hother z hz.2, Function.update_of_ne hz.1]
      · rw [heof, List.map_cons, List.any_cons, Bool.or_assoc]
      · rw [hflush, List.map_cons, List.any_cons, Bool.or_assoc]

/-! ### The new link -/

variable {m m' m₁ : Mem} {us fs ps ts : List ℕ} {inp inp' : Option ℕ} {nl l o tag : ℕ} {str : Bytes}
  {a : Alloc} {r : Ret}

/-- A chain, the free list and the free links of the pool share no link. -/
def Wf (m : Mem) (inp : Option ℕ) : Prop :=
  ∃ xs us fs ps, Lists m us fs ps ∧ Seg m.next inp xs none ∧ xs ⊆ us

/-- The buffers `bs` and behind them a new one with `str`. -/
structure NewLast (m : Mem) (inp : Option ℕ) (bs : List Buf) (str : Bytes) (flush eof : Bool) :
    Prop where
  wf : Wf m inp
  disjoint : ∀ x ∈ m.links inp, x ∉ m.links m.free
  bufs : ∃ b, m.bufs inp = bs ++ [b] ∧ b.bytes = str ∧ b.flush = flush ∧ b.lastBuf = eof ∧
    b.lastInChain = eof

theorem Wf.eq (h : Wf m inp) : ∃ xs fs ps, Lists m xs fs ps ∧ Seg m.next inp xs none ∧
    m.links inp = xs ∧ m.links m.free = fs := by
  obtain ⟨xs, us, fs, ps, hl, hs, hsub⟩ := h
  refine ⟨xs, fs, ps, ⟨hl.free, hl.pool, ?_, ?_⟩, hs, hl.links_eq hs hsub, hl.free_eq⟩
  · refine List.nodup_append'.mpr ⟨seg_nodup hs, (List.nodup_append'.mp hl.nodup).2.1, ?_⟩
    exact fun x hx hf => (List.nodup_append'.mp hl.nodup).2.2 (hsub hx) hf
  · intro x hx
    rcases List.mem_append.mp hx with hx | hx
    · exact hl.lt x (List.mem_append_left _ (hsub hx))
    · exact hl.lt x (List.mem_append_right _ hx)

theorem lists_new (h : Lists m us fs ps) (hr : m'.next = m.next) (hf : m'.free = m.free)
    (hp : m'.pool = m.pool) (hn : m'.fresh = m.fresh) : Lists m' us fs ps :=
  h.congr hf hp hn fun z _ => by rw [hr]

theorem newLast {flush eof : Bool} (hl : Lists m us fs ps) (hs : Seg m.next inp ts (some nl))
    (hn : m.next nl = none) (hsub : ts ⊆ us) (hnl : nl ∈ us) (hd : (m.buf nl).bytes = str)
    (hflush : (m.buf nl).flush = flush) (heof : (m.buf nl).lastBuf = eof)
    (hchain : (m.buf nl).lastInChain = eof) :
    NewLast m inp (ts.map m.buf) str flush eof := by
  have hseg : Seg m.next inp (ts ++ [nl]) none := seg_snoc.mpr ⟨hs, hn⟩
  have hused : ts ++ [nl] ⊆ us := by
    intro x hx
    rcases List.mem_append.mp hx with hx | hx
    · exact hsub hx
    · exact List.mem_singleton.mp hx ▸ hnl
  have hlinks := hl.links_eq hseg hused
  refine ⟨⟨_, us, fs, ps, hl, hseg, hused⟩, ?_, m.buf nl, ?_, hd, hflush, heof, hchain⟩
  · rw [hlinks, hl.free_eq]
    exact fun x hx => hl.notMem_free (hused hx)
  · rw [Mem.bufs, hlinks, List.map_append, List.map_singleton]

/-- The new link is written: its buffer is the data and the flags. -/
theorem written (hg : Given m m' str.length nl) (flush eof : Bool) :
    ((writeBuf m' nl str flush eof).buf nl).bytes = str ∧
      ((writeBuf m' nl str flush eof).buf nl).flush = flush ∧
      ((writeBuf m' nl str flush eof).buf nl).lastBuf = eof ∧
      ((writeBuf m' nl str flush eof).buf nl).lastInChain = eof := by
  have hflag := hg.flagged
  rw [Buf.flagged, Bool.or_eq_false_iff] at hflag
  refine ⟨?_, ?_⟩
  · have hm := hg.inMemory
    by_cases hs : str = []
    · have hm : (m'.buf nl).inMemory = false := by simpa [hs] using hm
      simp [writeBuf, Buf.write, Buf.bytes, hg.file, hm, hs]
    · simp [writeBuf, Buf.write, Buf.bytes, hg.data, hm, hs]
  · simp [writeBuf, Buf.write, hg.flush, hflag.1, hflag.2]

theorem written_other {len : ℕ} (hg : Given m m' len nl) (flush eof : Bool) {z : ℕ} (hz : z ≠ nl) :
    (writeBuf m' nl str flush eof).buf z = m.buf z :=
  (Function.update_of_ne hz _ _).trans (hg.buf z hz)

theorem append_none {flush eof : Bool} {m₂ : Mem} (hl : Lists m us fs ps)
    (hr : getFreeBuf m str.length tag true a = (m₂, some nl)) :
    NewLast (writeBuf m₂ nl str flush eof) (some nl) [] str flush eof := by
  obtain ⟨hg, fs', ps', hl', -⟩ := getFreeBuf_given hl hr
  have hl' : Lists (writeBuf m₂ nl str flush eof) (nl :: us) fs' ps' := lists_new hl' rfl rfl rfl rfl
  obtain ⟨hd, hflush, heof, hchain⟩ := written hg flush eof
  have hseg : Seg (writeBuf m₂ nl str flush eof).next (some nl) [] (some nl) := rfl
  exact newLast hl' hseg hg.last (List.nil_subset _) (List.mem_cons_self ..) hd hflush heof hchain

theorem append_tail {flush eof : Bool} {m₂ : Mem} (hl : Lists m us fs ps)
    (ht : Tail m inp us ts l) (hr : getFreeBuf m str.length tag true a = (m₂, some nl)) :
    NewLast (setNext (writeBuf m₂ nl str flush eof) l (some nl)) inp ((ts ++ [l]).map m.buf) str
      flush eof := by
  obtain ⟨hg, fs', ps', hl', -⟩ := getFreeBuf_given hl hr
  have hl' : Lists (writeBuf m₂ nl str flush eof) (nl :: us) fs' ps' := lists_new hl' rfl rfl rfl rfl
  have hl'' := hl'.setNext (List.mem_cons_of_mem _ ht.last) (some nl)
  have hnl : nl ∉ us := (List.nodup_cons.mp (List.nodup_append'.mp hl'.nodup).1).1
  have hne : ∀ z ∈ us, z ≠ nl := fun z hz he => hnl (he ▸ hz)
  obtain ⟨hd, hflush, heof, hchain⟩ := written hg flush eof
  have hbuf : (ts ++ [l]).map (setNext (writeBuf m₂ nl str flush eof) l (some nl)).buf
      = (ts ++ [l]).map m.buf :=
    List.map_congr_left fun z hz => written_other hg flush eof (hne z (ht.used_snoc hz))
  rw [← hbuf]
  refine newLast hl'' (seg_snoc.mpr ⟨?_, Function.update_self ..⟩) ?_
    (fun z hz => List.mem_cons_of_mem _ (ht.used_snoc hz)) (List.mem_cons_self ..) hd hflush heof
    hchain
  · refine seg_congr (fun z hz => ?_) ht.seg
    have hzl : z ≠ l := fun he => ht.notMem (he ▸ hz)
    exact (Function.update_of_ne hzl _ _).trans (hg.next z (hne z (ht.used hz)))
  · exact (Function.update_of_ne (hne l ht.last).symm _ _).trans hg.last

/-- The chain that ends in a lost link is too short, or goes on in the free list. -/
theorem append_stuck {flush eof : Bool} {m₂ : Mem} (hl : Lists m us fs ps)
    (hst : Stuck m inp us fs ts o l) (hr : getFreeBuf m str.length tag true a = (m₂, some nl))
    (hm : m' = setNext (writeBuf m₂ nl str flush eof) l (some nl)) :
    (∃ x ∈ m'.links inp, x ∈ m'.links m'.free) ∨
      (content (m'.bufs inp)).length ≤ (bytes m ts).length + str.length := by
  obtain ⟨hg, fs', ps', hl', hfs⟩ := getFreeBuf_given hl hr
  have hl' : Lists (writeBuf m₂ nl str flush eof) (nl :: us) fs' ps' := lists_new hl' rfl rfl rfl rfl
  have hl'' := hl'.setNext (List.mem_cons_of_mem _ hst.last) (some nl)
  rw [← hm] at hl''
  have hnl : nl ∉ us := (List.nodup_cons.mp (List.nodup_append'.mp hl'.nodup).1).1
  have hne : ∀ z ∈ us, z ≠ nl := fun z hz he => hnl (he ▸ hz)
  have hbuf : ∀ z, z ≠ nl → m'.buf z = m.buf z := fun z hz => by
    rw [hm]
    exact written_other hg flush eof hz
  have hnext : ∀ z, z ≠ l → z ≠ nl → m'.next z = m.next z := fun z hzl hz => by
    rw [hm]
    exact (Function.update_of_ne hzl _ _).trans (hg.next z hz)
  have hseg : Seg m'.next inp ts (some o) := by
    refine seg_congr (fun z hz => hnext z ?_ (hne z (hst.used hz))) hst.seg
    exact fun he => hst.notMem (he ▸ hz)
  have hbytes : bytes m' ts = bytes m ts := by
    rw [bytes, bytes, List.map_congr_left fun z hz => hbuf z (hne z (hst.used hz))]
  have hends : m'.next o = none → o ∈ nl :: us → (m'.buf o).bytes.length ≤ str.length →
      (content (m'.bufs inp)).length ≤ (bytes m ts).length + str.length := by
    intro hn ho hd
    have hsnoc : Seg m'.next inp (ts ++ [o]) none := seg_snoc.mpr ⟨hseg, hn⟩
    have hused : ts ++ [o] ⊆ nl :: us := by
      intro z hz
      rcases List.mem_append.mp hz with hz | hz
      · exact List.mem_cons_of_mem _ (hst.used hz)
      · exact List.mem_singleton.mp hz ▸ ho
    have hcont : content (m'.bufs inp) = bytes m' ts ++ (m'.buf o).bytes := by
      rw [Mem.bufs, hl''.links_eq hsnoc hused, ← bytes, bytes_append, bytes_cons]
      simp [bytes, content]
    rw [hcont, hbytes, List.length_append]
    omega
  obtain ⟨hdata, ho | ⟨hnil, ho, hn⟩⟩ := hst.lost
  · rcases hfs with ⟨hnil, -⟩ | hcons
    · simp [hnil] at ho
    · rcases List.mem_cons.mp (hcons ▸ ho) with rfl | ho
      · refine .inr (hends ?_ (List.mem_cons_self ..) ?_)
        · rw [hm]
          exact (Function.update_of_ne hst.ne _ _).trans hg.last
        · rw [hm]
          exact (congrArg List.length (written hg flush eof).1).le
      · refine .inl ⟨o, ?_, ?_⟩
        · refine mem_walk hseg ?_
          have hnd : (o :: ts).Nodup := by
            refine List.nodup_cons.mpr ⟨fun hm => ?_, hst.nodup⟩
            exact hl'.notMem_free (List.mem_cons_of_mem _ (hst.used hm)) ho
          refine length_le_of_nodup hnd fun z hz => hl''.lt z ?_
          rcases List.mem_cons.mp hz with rfl | hz
          · exact List.mem_append_right _ (List.mem_append_left _ ho)
          · exact List.mem_append_left _ (List.mem_cons_of_mem _ (hst.used hz))
        · rw [hl''.free_eq]
          exact ho
  · refine .inr (hends ?_ (List.mem_cons_of_mem _ ho) ?_)
    · rw [hnext o hst.ne (hne o ho), hn]
    · rw [hbuf o (hne o ho), hdata]
      exact Nat.zero_le _

/-! ### The call -/

def nonempty (bs : List Buf) : List Buf := bs.filter fun b => b.bytes ≠ []

theorem nonempty_content (bs : List Buf) : content (nonempty bs) = content bs := by
  induction bs with
  | nil => rfl
  | cons b bs ih =>
    by_cases hb : b.bytes = []
    · simpa [nonempty, content, hb] using ih
    · simpa [nonempty, content, hb] using ih

/-- The walk ends early or keeps every link with bytes, or it loses one. -/
theorem append_cases (h : Wf m inp) (hr : chainAppend m inp offset str tag a = (m', inp', .ok)) :
    let bs := m.bufs inp
    let cs := cuts offset bs
    (stops tag cs = true ∧
        NewLast m' inp' [] str (bs.any Buf.flush) (bs.any Buf.flagged)) ∨
      (stops tag cs = false ∧ linked tag cs ∧
        NewLast m' inp' (nonempty cs) str (bs.any Buf.flush) (bs.any Buf.flagged)) ∨
      (stops tag cs = false ∧ ¬ linked tag cs ∧
        ((∃ x ∈ m'.links inp', x ∈ m'.links m'.free) ∨
          (content (m'.bufs inp')).length < (content cs).length + str.length)) := by
  intro bs cs
  obtain ⟨xs, fs, ps, hl, hs, hxs, -⟩ := h.eq
  have hlen : xs.length ≤ m.fresh := length_le_of_nodup (seg_nodup hs) fun x hx =>
    hl.lt x (List.mem_append_left _ hx)
  have hc := chainClear_cut (c := ⟨m.buf, 0, false, false⟩) hs hlen (Nat.zero_le offset)
  rw [chainAppend] at hr
  dsimp only at hr
  generalize chainClear m.next offset m.fresh ⟨m.buf, 0, false, false⟩ inp = c at hc hr
  have hbs : bs = xs.map m.buf := congrArg (List.map m.buf) hxs
  have hcs : xs.map c.buf = cs := by rw [hc.cut, Nat.sub_zero, ← hbs]
  have heof : c.eof = bs.any Buf.flagged := by rw [hc.eof, hbs, Bool.false_or]
  have hflush : c.flush = bs.any Buf.flush := by rw [hc.flush, hbs, Bool.false_or]
  have hl₁ : Lists { m with buf := c.buf } xs fs ps := lists_new hl rfl rfl rfl rfl
  obtain ⟨us', fs', ps', hl', hbuf, hcases⟩ :=
    @getTail_first { m with buf := c.buf } fs ps xs inp tag m.fresh hs hlen hl₁
  dsimp only at hcases hbuf
  generalize getTail tag m.fresh { m with buf := c.buf } none inp = g at hl' hbuf hcases hr
  obtain ⟨m₁, ll⟩ := g
  dsimp only at hl' hbuf hcases hr
  rw [hcs] at hcases
  cases hget : getFreeBuf m₁ str.length tag true a with
  | mk m₂ r =>
    rw [hget] at hr
    cases r with
    | none => simp at hr
    | some nl =>
      rw [heof, hflush] at hr
      rcases hcases with ⟨hstop, hnone⟩ | ⟨hstop, l, hsome, hcases⟩
      · rw [hnone] at hr
        simp only [Prod.mk.injEq, and_true] at hr
        obtain ⟨rfl, rfl⟩ := hr
        exact .inl ⟨hstop, append_none hl' hget⟩
      · rw [hsome] at hr
        simp only [Prod.mk.injEq, and_true] at hr
        obtain ⟨rfl, rfl⟩ := hr
        rcases hcases with ⟨hlink, ts, hts, htail⟩ | ⟨hlink, ts, o, hst, hlt⟩
        · refine .inr (.inl ⟨hstop, hlink, ?_⟩)
          have hmap : (ts ++ [l]).map m₁.buf = nonempty cs := by
            rw [← hts, hbuf, ← hcs, nonempty, List.filter_map]
            rfl
          rw [← hmap]
          exact append_tail hl' htail hget
        · refine .inr (.inr ⟨hstop, hlink, ?_⟩)
          have hlen : (bytes m₁ ts).length < (content cs).length := by
            have hb : bytes m₁ ts = bytes { m with buf := c.buf } ts := bytes_congr hbuf
            rw [hb, ← hcs]
            exact hlt
          rcases append_stuck hl' hst hget rfl with hmem | hle
          · exact .inl hmem
          · exact .inr (by omega)

theorem append_granted (m : Mem) (inp : Option ℕ) (offset : ℕ) (str : Bytes) (tag : ℕ) :
    (chainAppend m inp offset str tag ⟨true, true⟩).2.2 = .ok := by
  rw [chainAppend]
  dsimp only
  generalize getTail tag m.fresh _ none inp = g
  obtain ⟨m₁, ll⟩ := g
  have hsome := getFreeBuf_granted m₁ str.length tag
  cases hget : getFreeBuf m₁ str.length tag true ⟨true, true⟩ with
  | mk m₂ r =>
    rw [hget] at hsome
    cases r with
    | none => cases hsome
    | some nl => cases ll <;> rfl

/-- A link in front of the chain, or the chain as it was. -/
theorem prepend_cases (h : Wf m inp) (hr : chainPrepend m inp str tag a = (m', inp', r)) :
    Wf m' inp' ∧ (m'.bufs inp' = m.bufs inp ∨
      ∃ b, m'.bufs inp' = b :: m.bufs inp ∧ b.bytes = str ∧ b.flagged = false) := by
  obtain ⟨xs, fs, ps, hl, hs, hxs, -⟩ := h.eq
  rw [chainPrepend] at hr
  cases hget : getFreeBuf m str.length tag true a with
  | mk m₁ o =>
    rw [hget] at hr
    cases o with
    | none =>
      obtain ⟨hnext, hbuf, fs', ps', hl'⟩ := getFreeBuf_refused hl hget
      simp only [Prod.mk.injEq] at hr
      obtain ⟨rfl, rfl, -⟩ := hr
      have hs' := seg_congr hnext hs
      refine ⟨⟨xs, xs, fs', ps', hl', hs', fun _ hx => hx⟩, .inl ?_⟩
      rw [Mem.bufs, Mem.bufs, hl'.links_eq hs' (fun _ hx => hx), hxs, List.map_congr_left hbuf]
    | some nl =>
      obtain ⟨hg, fs', ps', hl', -⟩ := getFreeBuf_given hl hget
      simp only [Prod.mk.injEq] at hr
      obtain ⟨rfl, rfl, -⟩ := hr
      have hnl : nl ∉ xs := (List.nodup_cons.mp (List.nodup_append'.mp hl'.nodup).1).1
      have hne : ∀ z ∈ xs, z ≠ nl := fun z hz he => hnl (he ▸ hz)
      have hl' : Lists (writeBuf m₁ nl str false false) (nl :: xs) fs' ps' :=
        lists_new hl' rfl rfl rfl rfl
      have hl'' := hl'.setNext (List.mem_cons_self ..) inp
      have hs' : Seg (setNext (writeBuf m₁ nl str false false) nl inp).next (some nl) (nl :: xs)
          none := by
        refine ⟨rfl, ?_⟩
        have hnext : (setNext (writeBuf m₁ nl str false false) nl inp).next nl = inp :=
          Function.update_self ..
        rw [hnext]
        refine seg_congr (fun z hz => ?_) hs
        exact (Function.update_of_ne (hne z hz) _ _).trans (hg.next z (hne z hz))
      refine ⟨⟨_, _, fs', ps', hl'', hs', fun _ hx => hx⟩,
        .inr ⟨(setNext (writeBuf m₁ nl str false false) nl inp).buf nl, ?_, ?_, ?_⟩⟩
      · rw [Mem.bufs, Mem.bufs, hl''.links_eq hs' (fun _ hx => hx), hxs, List.map_cons]
        congr 1
        exact List.map_congr_left fun z hz => written_other hg false false (hne z hz)
      · exact (written hg false false).1
      · obtain ⟨-, -, hlast, hchain⟩ := written hg false false
        exact Bool.or_eq_false_iff.mpr ⟨hlast, hchain⟩

/-- What the call promises. -/
def Appended (m : Mem) (inp : Option ℕ) (offset : ℕ) (str : Bytes) (m' : Mem) (inp' : Option ℕ) :
    Prop :=
  content (m'.bufs inp') = (content (m.bufs inp)).take offset ++ str ∧
    (∀ x ∈ m'.links inp', x ∉ m'.links m'.free) ∧
    ((∃ b ∈ (m'.bufs inp').getLast?, b.lastBuf = true) ↔
      ∃ b ∈ m.bufs inp, b.lastBuf = true ∨ b.lastInChain = true)

theorem newLast_appended {flush : Bool} {bs : List Buf}
    (h : NewLast m' inp' bs str flush ((m.bufs inp).any Buf.flagged))
    (hbs : content bs = (content (m.bufs inp)).take offset) : Appended m inp offset str m' inp' := by
  obtain ⟨b, hbufs, hdata, -, hlast, -⟩ := h.bufs
  refine ⟨?_, h.disjoint, ?_⟩
  · rw [hbufs, ← hbs, ← hdata]
    simp [content]
  · rw [hbufs, List.getLast?_concat]
    simp [hlast, Buf.flagged]

theorem linked_of_nonempty {bs : List Buf} (h : stops tag bs = false) :
    ∃ b ∈ bs, b.bytes ≠ [] := by
  by_contra hn
  simp only [ne_eq, not_exists, not_and, not_not] at hn
  rw [stops_empty hn] at h
  cases h

/-- The walk keeps every link with bytes. -/
def Walkable (tag offset : ℕ) (bs : List Buf) : Prop :=
  (∀ b ∈ cuts offset bs, b.bytes = []) ∨ linked tag (cuts offset bs)

instance (tag : ℕ) (bs : List Buf) : Decidable (linked tag bs) := by
  unfold linked
  infer_instance

instance (tag offset : ℕ) (bs : List Buf) : Decidable (Walkable tag offset bs) := by
  unfold Walkable
  infer_instance

theorem append_walked (h : Wf m inp) (hr : chainAppend m inp offset str tag a = (m', inp', .ok))
    (hw : Walkable tag offset (m.bufs inp)) :
    ∃ bs, content bs = content (cuts offset (m.bufs inp)) ∧ (∀ b ∈ bs, b.flagged = false) ∧
      NewLast m' inp' bs str ((m.bufs inp).any Buf.flush) ((m.bufs inp).any Buf.flagged) := by
  rcases append_cases h hr with ⟨hstop, hnew⟩ | ⟨-, -, hnew⟩ | ⟨hstop, hlink, -⟩
  · refine ⟨[], ?_, by simp, hnew⟩
    rcases hw with hempty | hlink
    · exact (List.flatMap_eq_nil_iff.mpr hempty).symm
    · cases hcs : cuts offset (m.bufs inp) with
      | nil => rfl
      | cons b bs =>
        rw [hcs] at hlink hstop
        have hb := hlink.1 b rfl
        simp [stops, hb] at hstop
  · refine ⟨nonempty (cuts offset (m.bufs inp)), nonempty_content _, ?_, hnew⟩
    exact fun b hb => cuts_unflagged b (List.mem_of_mem_filter hb)
  · rcases hw with hempty | hl
    · obtain ⟨b, hb, hd⟩ := linked_of_nonempty hstop
      exact absurd (hempty b hb) hd
    · exact absurd hl hlink

theorem append_dropped (h : Wf m inp) (hr : chainAppend m inp offset str tag a = (m', inp', .ok))
    (hw : ¬ Walkable tag offset (m.bufs inp)) :
    (∃ x ∈ m'.links inp', x ∈ m'.links m'.free) ∨
      (content (m'.bufs inp')).length < (content (cuts offset (m.bufs inp))).length + str.length := by
  rw [Walkable, not_or] at hw
  rcases append_cases h hr with ⟨-, hnew⟩ | ⟨-, hlink, -⟩ | ⟨-, -, hbad⟩
  · obtain ⟨b, hbufs, hbytes, -⟩ := hnew.bufs
    have hpos : 0 < (content (cuts offset (m.bufs inp))).length := by
      refine List.length_pos_iff.mpr fun hnil => hw.1 ?_
      exact List.flatMap_eq_nil_iff.mp hnil
    refine .inr ?_
    rw [hbufs, List.nil_append, content_cons, hbytes, List.length_append]
    show str.length + 0 < _
    omega
  · exact absurd hlink hw.2
  · exact hbad

/-- Of the three any two give the third: the call keeps its promise, the cut leaves the
first bytes, and the walk keeps what the cut leaves. -/
theorem append_iff (h : Wf m inp) (hr : chainAppend m inp offset str tag a = (m', inp', .ok)) :
    (Walkable tag offset (m.bufs inp) →
        (Appended m inp offset str m' inp' ↔ Cuttable offset (m.bufs inp))) ∧
      (Cuttable offset (m.bufs inp) →
        (Appended m inp offset str m' inp' ↔ Walkable tag offset (m.bufs inp))) := by
  have hkept : Walkable tag offset (m.bufs inp) → Cuttable offset (m.bufs inp) →
      Appended m inp offset str m' inp' := by
    intro hw hc
    obtain ⟨bs, hbs, -, hnew⟩ := append_walked h hr hw
    exact newLast_appended hnew (hbs.trans hc.content)
  refine ⟨fun hw => ⟨fun happ => ?_, hkept hw⟩, fun hc => ⟨fun happ => ?_, fun hw => hkept hw hc⟩⟩
  · obtain ⟨bs, hbs, -, hnew⟩ := append_walked h hr hw
    obtain ⟨b, hbufs, hbytes, -⟩ := hnew.bufs
    refine cuts_content_iff.mp ?_
    have hcont := happ.1
    rw [hbufs, ← hbytes] at hcont
    simp only [content, List.flatMap_append, List.flatMap_singleton] at hcont hbs ⊢
    rw [← hbs]
    exact List.append_cancel_right hcont
  · by_contra hw
    rcases append_dropped h hr hw with ⟨x, hx, hf⟩ | hlt
    · exact happ.2.1 x hx hf
    · rw [happ.1, hc.content, List.length_append] at hlt
      exact Nat.lt_irrefl _ hlt

/-- Two links, the first with nothing or with two bytes, the second with two bytes. -/
def twoLinks (first : Bytes) (tag : ℕ) : Mem where
  buf x := ⟨none, true, if x = 0 then first else [99, 100], [], nofun, tag, false, false, false⟩
  next x := if x = 0 then some 1 else none
  fresh := 2
  free := none
  pool := none

theorem twoLinks_wf (first : Bytes) (tag : ℕ) : Wf (twoLinks first tag) (some 0) :=
  have hlt : ∀ x ∈ [0, 1], x < 2 := by decide
  ⟨[0, 1], [0, 1], [], [], ⟨rfl, rfl, by decide, hlt⟩, ⟨rfl, rfl, rfl⟩, fun _ h => h⟩

def granted : Alloc := ⟨true, true⟩

theorem two_links_appended :
    Appended (twoLinks [97, 98] 1) (some 0) 4 [101]
      (chainAppend (twoLinks [97, 98] 1) (some 0) 4 [101] 1 granted).1
      (chainAppend (twoLinks [97, 98] 1) (some 0) 4 [101] 1 granted).2.1 := by
  have hr : chainAppend (twoLinks [97, 98] 1) (some 0) 4 [101] 1 granted =
    ((chainAppend (twoLinks [97, 98] 1) (some 0) 4 [101] 1 granted).1,
      (chainAppend (twoLinks [97, 98] 1) (some 0) 4 [101] 1 granted).2.1, .ok) := rfl
  have hw : Walkable 1 4 ((twoLinks [97, 98] 1).bufs (some 0)) := .inr ⟨by decide, by decide⟩
  exact ((append_iff (twoLinks_wf _ _) hr).1 hw).mpr (.inl (by decide))

/-- An empty link of another module in front: the bytes behind it are gone. -/
theorem foreign_first_dropped :
    ∃ m m' : Mem, ∃ inp', Wf m (some 0) ∧
      chainAppend m (some 0) 2 [101] 1 granted = (m', inp', .ok) ∧
      content (m.bufs (some 0)) = [99, 100] ∧ content (m'.bufs inp') = [101] ∧
      ¬ Appended m (some 0) 2 [101] m' inp' := by
  refine ⟨twoLinks [] 2, _, _, twoLinks_wf _ _, rfl, by decide, by decide, fun h => ?_⟩
  exact absurd h.1 (by decide)

end NgxWasm.Wasm.ChainAppend
