import NgxWasm.Http.BodyBuffer
import NgxWasm.Lib.Run

/-!
# Bytes visible in the response buffers

The buffers show every byte given so far as long as no flagged link gets another
link behind it: flagged buffers of the input are not split, and bytes that follow
a flagged buffer still fit into its link.
-/

namespace NgxWasm.Http.BodyBytes
open NgxWasm.Lib Links Run NgxWasm.Http.BodyBuffer

/-! ### States -/

def lastBuf (st : Rctx) (a : ℕ) : Bool := (st.link a).lastBuf

structure Filled (st : Rctx) (xs : List ℕ) (l : ℕ) (g : Bytes) : Prop where
  seg : Seg (next st) st.respBufs (xs ++ [l]) none
  last : st.respBufLast = some l
  opened : ∀ x ∈ xs, flagged st x = false
  bytes : (xs ++ [l]).flatMap (data st) = g

/-- The buffers hold `g` in the links `chain`. In `lone` an empty flagged link
came first, behind which the code links nothing; in `closed` empty links were
put behind a flagged one. -/
inductive Held (st : Rctx) : Bytes → List ℕ → Prop where
  | empty : st.respBufs = none → st.respBufLast = none → st.respBufsCount = 0 → Held st [] []
  | lone (e : ℕ) : st.respBufs = some e → st.respBufLast = none → st.respBufsCount = 0 →
    data st e = [] → next st e = none → Held st [] [e]
  | filled (xs : List ℕ) (l : ℕ) (g : Bytes) : Filled st xs l g → Held st g (xs ++ [l])
  | closed (xs : List ℕ) (l : ℕ) : Seg (next st) st.respBufs (xs ++ [l]) none →
    st.respBufLast = some l → (∃ x ∈ xs, flagged st x = true) → (∀ x ∈ xs, lastBuf st x = false) →
    Held st ((upto (flagged st) (xs ++ [l])).flatMap (data st)) (xs ++ [l])

inductive Open (st : Rctx) : Bytes → List ℕ → Prop where
  | empty : st.respBufs = none → st.respBufLast = none → st.respBufsCount = 0 → Open st [] []
  | filled (xs : List ℕ) (l : ℕ) (g : Bytes) : Filled st xs l g → flagged st l = false →
    Open st g (xs ++ [l])

structure Waiting (st : Rctx) (chain ids : List ℕ) : Prop where
  seg : Seg (next st) ids.head? ids none
  nodup : (chain ++ ids).Nodup
  bound : ∀ a ∈ chain ++ ids, a < st.fresh

structure Shown (st : Rctx) (g : Bytes) (fin : Bool) : Prop where
  bytes : chainBytes st st.respBufs = g
  final : ∀ a ∈ links st st.respBufs, lastBuf st a = true → next st a = none ∧ fin = true

def Carries (st : Rctx) : Prop :=
  ∃ l, (st.respBufLast = some l ∨ st.respBufLast = none ∧ st.respBufs = some l) ∧
    lastBuf st l = true

theorem flagged_of_lastBuf {st : Rctx} {a : ℕ} (h : lastBuf st a = true) : flagged st a = true := by
  simp only [lastBuf] at h
  simp [flagged, Buf.flagged, h]

theorem links_eq {st : Rctx} {a : Option ℕ} {xs : List ℕ} (hs : Seg (next st) a xs none)
    (hd : xs.Nodup) (hb : ∀ x ∈ xs, x < st.fresh) : links st a = xs :=
  walk_seg hs (length_le_of_nodup hd hb)

theorem held_shown {st : Rctx} {chain : List ℕ} {g : Bytes} (h : Held st g chain)
    (hw : Waiting st chain []) {fin : Bool} (hc : Carries st → fin = true) : Shown st g fin := by
  have hd : chain.Nodup := by simpa using hw.nodup
  have hb : ∀ x ∈ chain, x < st.fresh := by simpa using hw.bound
  cases h with
  | empty hr _ _ =>
    have hlinks : links st st.respBufs = [] := links_eq hr hd hb
    exact ⟨by rw [chainBytes, hlinks]; rfl, by simp [hlinks]⟩
  | lone e hr hl _ hdata hnext =>
    have hlinks : links st st.respBufs = [e] := links_eq ⟨hr, hnext⟩ hd hb
    refine ⟨?_, fun a ha hlb => ?_⟩
    · rw [chainBytes, hlinks, ← List.nil_append [e], flatMap_upto (by simp) (by simp)]
      simp [hdata]
    · rw [hlinks, List.mem_singleton] at ha
      rw [ha] at hlb ⊢
      exact ⟨hnext, hc ⟨e, .inr ⟨hl, hr⟩, hlb⟩⟩
  | filled xs l g h =>
    have hlinks : links st st.respBufs = xs ++ [l] := links_eq h.seg hd hb
    refine ⟨?_, fun a ha hlb => ?_⟩
    · rw [chainBytes, hlinks, flatMap_upto h.opened (by simp)]
      exact h.bytes
    · rw [hlinks] at ha
      rcases List.mem_append.mp ha with ha | ha
      · have hopen := h.opened a ha
        rw [flagged_of_lastBuf hlb] at hopen
        exact absurd hopen (by simp)
      · rw [List.mem_singleton] at ha
        rw [ha] at hlb ⊢
        exact ⟨(seg_snoc.mp h.seg).2, hc ⟨l, .inl h.last, hlb⟩⟩
  | closed xs l hseg hlast _ hnone =>
    have hlinks : links st st.respBufs = xs ++ [l] := links_eq hseg hd hb
    refine ⟨by rw [chainBytes, hlinks], fun a ha hlb => ?_⟩
    rw [hlinks] at ha
    rcases List.mem_append.mp ha with ha | ha
    · rw [hnone a ha] at hlb
      exact absurd hlb (by simp)
    · rw [List.mem_singleton] at ha
      rw [ha] at hlb ⊢
      exact ⟨(seg_snoc.mp hseg).2, hc ⟨l, .inl hlast, hlb⟩⟩

/-! ### Writes to the heap -/

section
variable (st : Rctx) (l a : ℕ)

theorem linkLast_next (x : ℕ) : next (linkLast st l a) x = if x = l then some a else next st x := by
  simp only [next, linkLast, Function.update_apply]
  split
  · rfl
  · rfl

theorem linkLast_toBuf (x : ℕ) : ((linkLast st l a).link x).toBuf = (st.link x).toBuf := by
  simp only [linkLast, Function.update_apply]
  split
  · rename_i h
    rw [h]
  · rfl

theorem linkLast_data : data (linkLast st l a) = data st :=
  funext fun x => congrArg Buf.data (linkLast_toBuf st l a x)

theorem linkLast_flagged : flagged (linkLast st l a) = flagged st :=
  funext fun x => congrArg Buf.flagged (linkLast_toBuf st l a x)

theorem linkLast_lastBuf : lastBuf (linkLast st l a) = lastBuf st :=
  funext fun x => congrArg Buf.lastBuf (linkLast_toBuf st l a x)

end

section
variable (st : Rctx) (c ll copy : ℕ)

theorem copyBytes_next : next (copyBytes st c ll copy) = next st := by
  funext x
  simp only [next, copyBytes, Function.update_apply]
  split
  · rename_i h
    rw [h]
  · split
    · rename_i h
      rw [h]
    · rfl

theorem copyBytes_other {x : ℕ} (hc : x ≠ c) (hl : x ≠ ll) :
    (copyBytes st c ll copy).link x = st.link x := by
  simp only [copyBytes, Function.update_of_ne hc, Function.update_of_ne hl]

theorem copyBytes_dst : (copyBytes st c ll copy).link c =
    ⟨fill (st.link c).toBuf (st.link ll).toBuf copy, next st c⟩ := by
  simp only [copyBytes, Function.update_self, next]

theorem copyBytes_src (h : ll ≠ c) : (copyBytes st c ll copy).link ll =
    { st.link ll with data := (data st ll).drop copy } := by
  simp only [copyBytes, Function.update_of_ne h, Function.update_self, data]

end

/-! ### Splicing -/

/-- In `ids`, a flagged buffer with bytes is the last one with bytes, and
`last_buf` is only at the end. -/
def SpliceOk (st : Rctx) : List ℕ → Prop
  | [] => True
  | a :: as => (flagged st a = true → data st a ≠ [] → ∀ b ∈ as, data st b = []) ∧
    (lastBuf st a = true → as = []) ∧ SpliceOk st as

def lastFlag (st : Rctx) (ids : List ℕ) (fin : Bool) : Bool :=
  (ids.getLast?.map (lastBuf st)).getD fin

theorem lastFlag_cons (st : Rctx) (a : ℕ) (ids : List ℕ) (fin : Bool) :
    lastFlag st (a :: ids) fin = lastFlag st ids (lastBuf st a) := by
  cases ids with
  | nil => rfl
  | cons b ids => simp [lastFlag, List.getLast?_cons]

theorem spliceOk_final {st : Rctx} {ids : List ℕ} (h : SpliceOk st ids) {a : Option ℕ}
    (hs : Seg (next st) a ids none) :
    ∀ x ∈ ids, lastBuf st x = true → next st x = none ∧ lastFlag st ids false = true := by
  induction ids generalizing a with
  | nil => simp
  | cons y ids ih =>
    intro x hx hl
    obtain ⟨-, hy, hrest⟩ := h
    rcases List.mem_cons.mp hx with rfl | hx
    · have hnil : ids = [] := hy hl
      rw [hnil] at hs ⊢
      exact ⟨hs.2, hl⟩
    · obtain ⟨hn, hf⟩ := ih hrest hs.2 x hx hl
      refine ⟨hn, ?_⟩
      cases ids with
      | nil => simp at hx
      | cons z ids =>
        rw [lastFlag_cons] at hf ⊢
        exact (lastFlag_cons ..).trans hf

theorem spliceOk_congr {st st' : Rctx} {ids : List ℕ} (hf : ∀ a ∈ ids, flagged st' a = flagged st a)
    (hd : ∀ a ∈ ids, data st' a = [] ↔ data st a = [])
    (hl : ∀ a ∈ ids, lastBuf st' a = lastBuf st a) (h : SpliceOk st ids) : SpliceOk st' ids := by
  induction ids with
  | nil => trivial
  | cons a as ih =>
    obtain ⟨h1, h2, h3⟩ := h
    refine ⟨fun hfl hda b hb => ?_, fun hlb => ?_, ?_⟩
    · rw [hf a (List.mem_cons_self ..)] at hfl
      rw [Ne, hd a (List.mem_cons_self ..)] at hda
      exact (hd b (List.mem_cons_of_mem _ hb)).mpr (h1 hfl hda b hb)
    · rw [hl a (List.mem_cons_self ..)] at hlb
      exact h2 hlb
    · exact ih (fun b hb => hf b (List.mem_cons_of_mem _ hb))
        (fun b hb => hd b (List.mem_cons_of_mem _ hb))
        (fun b hb => hl b (List.mem_cons_of_mem _ hb)) h3

/-- The loop of the splice: `l` is the last link with bytes so far, `skipped` are
empty links behind it and `rem` the input to come. -/
structure Splicing (st : Rctx) (xs : List ℕ) (l : ℕ) (skipped rem : List ℕ) (g : Bytes)
    (fin : Bool) : Prop where
  seg : Seg (next st) st.respBufs (xs ++ l :: (skipped ++ rem)) none
  last : st.respBufLast = some l
  nodup : (xs ++ l :: (skipped ++ rem)).Nodup
  bound : ∀ a ∈ xs ++ l :: (skipped ++ rem), a < st.fresh
  opened : ∀ x ∈ xs, flagged st x = false
  bytes : (xs ++ [l]).flatMap (data st) = g
  empty : ∀ a ∈ skipped, data st a = []
  end_ : flagged st l = true → ∀ a ∈ rem, data st a = []
  fine : SpliceOk st rem
  final : ∀ a ∈ l :: (skipped ++ rem), lastBuf st a = true → next st a = none ∧ fin = true

theorem splicing_nil {st : Rctx} {xs : List ℕ} {l : ℕ} {skipped : List ℕ} {g : Bytes} {fin : Bool}
    (h : Splicing st xs l skipped [] g fin) : Shown st g fin := by
  have hlinks := links_eq h.seg h.nodup h.bound
  rw [List.append_nil] at hlinks
  refine ⟨?_, fun a ha hlb => ?_⟩
  · rw [chainBytes, hlinks, flatMap_upto h.opened h.empty]
    exact h.bytes
  · rw [hlinks] at ha
    rcases List.mem_append.mp ha with ha | ha
    · have hopen := h.opened a ha
      rw [flagged_of_lastBuf hlb] at hopen
      exact absurd hopen (by simp)
    · exact h.final a (by simpa using ha) hlb

theorem splicing_skip {st : Rctx} {xs : List ℕ} {l r : ℕ} {skipped rem : List ℕ} {g : Bytes}
    {fin : Bool} (h : Splicing st xs l skipped (r :: rem) g fin) (hr : data st r = []) :
    Splicing st xs l (skipped ++ [r]) rem g fin := by
  have hassoc : skipped ++ [r] ++ rem = skipped ++ r :: rem := by simp
  refine ⟨?_, h.last, ?_, ?_, h.opened, h.bytes, ?_, ?_, h.fine.2.2, ?_⟩
  · rw [hassoc]
    exact h.seg
  · rw [hassoc]
    exact h.nodup
  · rw [hassoc]
    exact h.bound
  · intro a ha
    rcases List.mem_append.mp ha with ha | ha
    · exact h.empty a ha
    · rw [List.mem_singleton.mp ha]
      exact hr
  · exact fun hf a ha => h.end_ hf a (List.mem_cons_of_mem _ ha)
  · rw [hassoc]
    exact h.final

structure Ready (st : Rctx) (xs : List ℕ) (l : ℕ) (rem : List ℕ) (g : Bytes) (fin : Bool) :
    Prop where
  seg : Seg (next st) st.respBufs (xs ++ [l]) (next st l)
  input : Seg (next st) rem.head? rem none
  nodup : (xs ++ l :: rem).Nodup
  bound : ∀ a ∈ xs ++ l :: rem, a < st.fresh
  opened : ∀ x ∈ xs, flagged st x = false
  bytes : (xs ++ [l]).flatMap (data st) = g
  end_ : flagged st l = true → ∀ a ∈ rem, data st a = []
  fine : SpliceOk st rem
  final : ∀ a ∈ rem, lastBuf st a = true → next st a = none ∧ fin = true

theorem ready_of_splicing {st : Rctx} {xs : List ℕ} {l r : ℕ} {skipped rem : List ℕ} {g : Bytes}
    {fin : Bool} (h : Splicing st xs l skipped (r :: rem) g fin) :
    Ready st xs l (r :: rem) g fin := by
  obtain ⟨m, hxs, hl, hbehind⟩ := seg_append.mp h.seg
  obtain ⟨m', -, hrest⟩ := seg_append.mp hbehind
  refine ⟨seg_snoc.mpr ⟨hl ▸ hxs, rfl⟩, ⟨rfl, hrest.2⟩, ?_, fun a ha => h.bound a ?_, h.opened,
    h.bytes, h.end_, h.fine, fun a ha => h.final a ?_⟩
  · have hn := h.nodup
    simp only [List.nodup_append, List.nodup_cons, List.mem_append, List.mem_cons] at hn ⊢
    grind
  · simp only [List.mem_append, List.mem_cons] at ha ⊢
    grind
  · simp only [List.mem_append, List.mem_cons] at ha ⊢
    grind

theorem splicing_link {st : Rctx} {xs : List ℕ} {l r : ℕ} {rem : List ℕ} {g : Bytes}
    {fin : Bool} (h : Ready st xs l (r :: rem) g fin) (hr : data st r ≠ []) :
    Splicing (linkLast st l r) (xs ++ [l]) r [] rem (g ++ data st r) fin := by
  have hflag : flagged st l = false := by
    by_contra hf
    exact hr (h.end_ (by simpa using hf) r (List.mem_cons_self ..))
  have hd : l ∉ xs ∧ l ∉ r :: rem := by
    have hn := h.nodup
    simp only [List.nodup_append, List.nodup_cons, List.mem_cons] at hn ⊢
    grind
  have hne : ∀ x ∈ r :: rem, next (linkLast st l r) x = next st x := by
    intro x hx
    have hxl : x ≠ l := fun he => hd.2 (he ▸ hx)
    rw [linkLast_next, if_neg hxl]
  have hlist : xs ++ [l] ++ r :: ([] ++ rem) = xs ++ l :: r :: rem := by simp
  refine ⟨?_, rfl, ?_, ?_, ?_, ?_, by simp, ?_, ?_, ?_⟩
  · rw [hlist]
    refine seg_relink h.seg (fun x hx => ?_) ?_
    · have hxl : x ≠ l := fun he => hd.1 (he ▸ hx)
      rw [linkLast_next, if_neg hxl]
    · rw [linkLast_next, if_pos rfl]
      exact ⟨rfl, (seg_congr hne h.input).2⟩
  · rw [hlist]
    exact h.nodup
  · rw [hlist]
    exact h.bound
  · intro x hx
    rw [linkLast_flagged]
    rcases List.mem_append.mp hx with hx | hx
    · exact h.opened x hx
    · rw [List.mem_singleton.mp hx]
      exact hflag
  · rw [linkLast_data, List.flatMap_append, h.bytes, List.flatMap_singleton]
  · rw [linkLast_flagged, linkLast_data]
    exact fun hf => h.fine.1 hf hr
  · exact spliceOk_congr (fun a _ => by rw [linkLast_flagged]) (fun a _ => by rw [linkLast_data])
      (fun a _ => by rw [linkLast_lastBuf]) h.fine.2.2
  · intro x hx
    rw [linkLast_lastBuf, hne x hx]
    exact h.final x hx

theorem splice_shown (rem : List ℕ) : ∀ {st : Rctx} {xs : List ℕ} {l : ℕ} {skipped : List ℕ}
    {g : Bytes} {fin : Bool}, Splicing st xs l skipped rem g fin →
      Shown (splice st rem) (g ++ rem.flatMap (data st)) fin := by
  induction rem with
  | nil =>
    intro st xs l skipped g fin h
    simpa [splice] using splicing_nil h
  | cons r rem ih =>
    intro st xs l skipped g fin h
    simp only [splice, h.last]
    split
    · rename_i hr
      have hs := ih (splicing_skip h hr)
      rw [List.flatMap_cons, hr]
      exact hs
    · rename_i hr
      have hs := ih (splicing_link (ready_of_splicing h) hr)
      rw [linkLast_data] at hs
      rw [List.flatMap_cons, ← List.append_assoc]
      exact hs

/-! ### Links of the code's own -/

def Same (st st' : Rctx) (ids : List ℕ) : Prop := ∀ a ∈ ids, st'.link a = st.link a

theorem same_data {st st' : Rctx} {ids : List ℕ} (h : Same st st' ids) :
    ids.flatMap (data st') = ids.flatMap (data st) :=
  List.flatMap_congr fun a ha => by rw [data, h a ha, data]

theorem same_lastFlag {st st' : Rctx} {ids : List ℕ} (h : Same st st' ids) (fin : Bool) :
    lastFlag st' ids fin = lastFlag st ids fin := by
  induction ids generalizing fin with
  | nil => rfl
  | cons a ids ih =>
    have ha : lastBuf st' a = lastBuf st a := by
      rw [lastBuf, h a (List.mem_cons_self ..), lastBuf]
    rw [lastFlag_cons, lastFlag_cons, ha]
    exact ih (fun b hb => h b (List.mem_cons_of_mem _ hb)) _

theorem same_seg {st st' : Rctx} {ids : List ℕ} {a b : Option ℕ} (h : Same st st' ids)
    (hs : Seg (next st) a ids b) : Seg (next st') a ids b :=
  seg_congr (fun x hx => by rw [next, h x hx, next]) hs

theorem filled_congr {st st' : Rctx} {xs : List ℕ} {l : ℕ} {g : Bytes} (h : Filled st xs l g)
    (hr : st'.respBufs = st.respBufs) (hl : st'.respBufLast = st.respBufLast)
    (hs : Same st st' (xs ++ [l])) : Filled st' xs l g := by
  refine ⟨hr ▸ same_seg hs h.seg, hl.trans h.last, fun x hx => ?_, (same_data hs).trans h.bytes⟩
  rw [flagged, hs x (List.mem_append_left _ hx)]
  exact h.opened x hx

theorem seg_head {st : Rctx} {xs : List ℕ} {l : ℕ} {a b : Option ℕ}
    (h : Seg (next st) a (xs ++ [l]) b) : a ≠ none := by
  cases xs with
  | nil => simp [h.1]
  | cons x xs => simp [h.1]

theorem filled_respBufs {st : Rctx} {xs : List ℕ} {l : ℕ} {g : Bytes} (h : Filled st xs l g) :
    st.respBufs ≠ none := seg_head h.seg

theorem linkLast_seg {st : Rctx} {xs : List ℕ} {l a : ℕ} {h : Option ℕ}
    (hs : Seg (next st) h (xs ++ [l]) none) (hd : (xs ++ [l] ++ [a]).Nodup)
    (hn : next st a = none) : Seg (next (linkLast st l a)) h (xs ++ [l] ++ [a]) none := by
  have hne : (∀ x ∈ xs, x ≠ l) ∧ a ≠ l := by
    simp only [List.nodup_append, List.nodup_cons, List.mem_append, List.mem_singleton] at hd
    grind
  rw [List.append_assoc]
  refine seg_relink hs (fun x hx => ?_) ?_
  · rw [linkLast_next, if_neg (hne.1 x hx)]
  · rw [linkLast_next, if_pos rfl]
    exact ⟨rfl, by rw [linkLast_next, if_neg hne.2, hn]; rfl⟩

theorem linkLast_filled {st : Rctx} {xs : List ℕ} {l a : ℕ} {g : Bytes} (h : Filled st xs l g)
    (hf : flagged st l = false) (hd : (xs ++ [l] ++ [a]).Nodup) (hn : next st a = none) :
    Filled (linkLast st l a) (xs ++ [l]) a (g ++ data st a) := by
  refine ⟨linkLast_seg h.seg hd hn, rfl, fun x hx => ?_, ?_⟩
  · rw [linkLast_flagged]
    rcases List.mem_append.mp hx with hx | hx
    · exact h.opened x hx
    · rw [List.mem_singleton.mp hx]
      exact hf
  · rw [linkLast_data, List.flatMap_append, h.bytes, List.flatMap_singleton]

theorem linkLast_same {st : Rctx} {l a : ℕ} {ids : List ℕ} (h : l ∉ ids) :
    Same st (linkLast st l a) ids := by
  intro x hx
  have hxl : x ≠ l := fun he => h (he ▸ hx)
  simp only [linkLast, Function.update_of_ne hxl]

def allocLink (conf : Conf) (st : Rctx) (extra : ℕ) : Rctx :=
  { st with
    link := Function.update st.link st.fresh ⟨⟨true, [], conf.size + extra, false, false, false⟩, none⟩
    fresh := st.fresh + 1 }

theorem allocLink_same {conf : Conf} {st : Rctx} {extra : ℕ} {ids : List ℕ}
    (h : ∀ a ∈ ids, a < st.fresh) : Same st (allocLink conf st extra) ids :=
  fun a ha => Function.update_of_ne (h a ha).ne ..

theorem newBuf_filled (conf : Conf) {st : Rctx} {g : Bytes} {chain ids : List ℕ}
    (h : Open st g chain) (hw : Waiting st chain ids) (extra : ℕ) :
    Filled (newBuf conf st extra) chain st.fresh g ∧
      Waiting (newBuf conf st extra) (chain ++ [st.fresh]) ids ∧
      Same st (newBuf conf st extra) ids ∧
      ((newBuf conf st extra).link st.fresh).toBuf =
        ⟨true, [], conf.size + extra, false, false, false⟩ ∧
      (newBuf conf st extra).respBufsCount = st.respBufsCount + 1 := by
  have hnodup : (chain ++ [st.fresh] ++ ids).Nodup := by
    have hn := hw.nodup
    have hb := hw.bound
    simp only [List.nodup_append, List.mem_append, List.nodup_cons, List.mem_cons] at hn hb ⊢
    grind
  have hbound : ∀ a ∈ chain ++ [st.fresh] ++ ids, a < st.fresh + 1 := by
    intro a ha
    have hb := hw.bound a
    simp only [List.mem_append, List.mem_singleton] at ha hb
    grind
  have hsame : Same st (allocLink conf st extra) (chain ++ ids) := allocLink_same hw.bound
  have hself : (allocLink conf st extra).link st.fresh =
      ⟨⟨true, [], conf.size + extra, false, false, false⟩, none⟩ := Function.update_self ..
  cases h with
  | empty hr hl hc =>
    have hnew : newBuf conf st extra = { allocLink conf st extra with
        respBufs := some st.fresh
        respBufLast := some st.fresh
        respBufsCount := st.respBufsCount + 1 } := by
      simp only [newBuf, hr, allocLink]
    rw [hnew]
    refine ⟨⟨⟨rfl, ?_⟩, rfl, by simp, ?_⟩, ⟨same_seg hsame hw.seg, hnodup, hbound⟩, hsame, ?_, rfl⟩
    · exact congrArg Link.next hself
    · rw [List.nil_append, List.flatMap_singleton]
      exact congrArg (fun b : Link => b.data) hself
    · exact congrArg Link.toBuf hself
  | filled xs l g hf hflag =>
    obtain ⟨r, hr⟩ := Option.ne_none_iff_exists'.mp (filled_respBufs hf)
    have hnew : newBuf conf st extra = { linkLast (allocLink conf st extra) l st.fresh with
        respBufsCount := st.respBufsCount + 1 } := by
      simp only [newBuf, hr, hf.last, allocLink, linkLast]
    have hchain : Same st (allocLink conf st extra) (xs ++ [l]) :=
      fun a ha => hsame a (List.mem_append_left _ ha)
    have hl : l ∉ ids := by
      have hn := hw.nodup
      simp only [List.nodup_append, List.mem_append, List.mem_singleton] at hn
      grind
    have hids : Same st (linkLast (allocLink conf st extra) l st.fresh) ids := by
      intro a ha
      rw [linkLast_same hl a ha]
      exact hsame a (List.mem_append_right _ ha)
    have hfl : flagged (allocLink conf st extra) l = false := by
      rw [flagged, hchain l (by simp)]
      exact hflag
    have hnext : next (allocLink conf st extra) st.fresh = none := by rw [next, hself]
    have halloc : Filled (allocLink conf st extra) xs l g := filled_congr hf rfl rfl hchain
    have hlinked := linkLast_filled halloc hfl (List.Nodup.of_append_left hnodup) hnext
    have hdata : data (allocLink conf st extra) st.fresh = [] := by rw [data, hself]
    rw [hdata, List.append_nil] at hlinked
    rw [hnew]
    refine ⟨?_, ⟨same_seg hids hw.seg, hnodup, hbound⟩, hids, ?_, rfl⟩
    · exact ⟨hlinked.seg, hlinked.last, hlinked.opened, hlinked.bytes⟩
    · exact (linkLast_toBuf _ _ _ _).trans (congrArg Link.toBuf hself)

/-! ### Copies -/

section
variable {st : Rctx} {xs ids : List ℕ} {l ll : ℕ} {g : Bytes}

theorem copyBytes_filled (h : Filled st xs l g) (hl : l ∉ xs) (hll : ll ∉ xs ++ [l]) (copy : ℕ) :
    Filled (copyBytes st l ll copy) xs l (g ++ (data st ll).take copy) := by
  have hother : ∀ x ∈ xs, (copyBytes st l ll copy).link x = st.link x := by
    intro x hx
    refine copyBytes_other st l ll copy (fun he => hl (he ▸ hx)) fun he => hll ?_
    exact List.mem_append_left _ (he ▸ hx)
  refine ⟨?_, h.last, fun x hx => ?_, ?_⟩
  · rw [copyBytes_next]
    exact h.seg
  · rw [flagged, hother x hx]
    exact h.opened x hx
  · have hxs : xs.flatMap (data (copyBytes st l ll copy)) = xs.flatMap (data st) :=
      List.flatMap_congr fun x hx => by rw [data, hother x hx, data]
    have hb := h.bytes
    rw [List.flatMap_append, List.flatMap_singleton] at hb ⊢
    rw [hxs, data, copyBytes_dst, ← hb, List.append_assoc]
    rfl

theorem copyBytes_waiting (hw : Waiting st (xs ++ [l]) (ll :: ids)) (copy : ℕ) :
    Waiting (copyBytes st l ll copy) (xs ++ [l]) (ll :: ids) :=
  ⟨by rw [copyBytes_next]; exact hw.seg, hw.nodup, hw.bound⟩

theorem copyBytes_same (hw : Waiting st (xs ++ [l]) (ll :: ids)) (copy : ℕ) :
    Same st (copyBytes st l ll copy) ids := by
  have hn := hw.nodup
  simp only [List.nodup_append, List.nodup_cons, List.mem_append, List.mem_cons] at hn
  intro a ha
  refine copyBytes_other st l ll copy ?_ ?_
  · rintro rfl
    grind
  · rintro rfl
    grind

theorem waiting_tail {chain : List ℕ} (hw : Waiting st chain (ll :: ids)) :
    Waiting st chain ids := by
  refine ⟨?_, ?_, fun a ha => hw.bound a ?_⟩
  · have hs := hw.seg.2
    cases ids with
    | nil => rfl
    | cons b ids => exact ⟨rfl, hs.2⟩
  · have hn := hw.nodup
    simp only [List.nodup_append, List.nodup_cons, List.mem_cons] at hn ⊢
    grind
  · simp only [List.mem_append, List.mem_cons] at ha ⊢
    grind

end

/-! ### What holds of every buffer -/

def Every (P : Buf → Prop) (st : Rctx) : Prop := ∀ a, P (st.link a).toBuf

/-- `P` holds of new buffers, and of both buffers after a copy. -/
structure Closed (P : Buf → Prop) : Prop where
  new : ∀ room, P ⟨true, [], room, false, false, false⟩
  drop : ∀ b n, P b → P { b with data := b.data.drop n }
  fill : ∀ b c n, b.inMemory = true → c.inMemory = true → P b → P c → P (fill b c n)

section
variable {P : Buf → Prop} {conf : Conf} {alloc : ℕ → Option ℕ} {st st' : Rctx}

theorem every_linkLast (h : Every P st) (l a : ℕ) : Every P (linkLast st l a) := by
  intro x
  rw [linkLast_toBuf]
  exact h x

theorem every_linkEmpty (h : Every P st) {ll : ℕ} (he : linkEmpty st ll = some st') :
    Every P st' := by
  unfold linkEmpty at he
  split at he
  · split at he
    · rw [← Option.some.inj he]
      exact h
    · rw [← Option.some.inj he]
      exact every_linkLast h _ _
    · exact absurd he (by simp)
  · rw [← Option.some.inj he]
    exact h

theorem every_splice (ids : List ℕ) : ∀ {st : Rctx}, Every P st → Every P (splice st ids) := by
  induction ids with
  | nil => intro st h; exact h
  | cons r ids ih =>
    intro st h
    rw [splice]
    split
    · exact h
    · split
      · exact ih h
      · exact ih (every_linkLast h _ _)

theorem every_update (h : Every P st) (a : ℕ) {l : Link} (hl : P l.toBuf) (fresh : ℕ)
    (head last : Option ℕ) (count : ℕ) :
    Every P ⟨Function.update st.link a l, fresh, head, last, count⟩ := by
  intro x
  simp only [Function.update_apply]
  split
  · exact hl
  · exact h x

theorem every_newBuf (hP : Closed P) (h : Every P st) (conf : Conf) (extra : ℕ) :
    Every P (newBuf conf st extra) := by
  have hnew := every_update h st.fresh
    (l := ⟨⟨true, [], conf.size + extra, false, false, false⟩, none⟩) (hP.new _)
  unfold newBuf
  dsimp only
  split
  · exact hnew _ _ _ _
  · exact every_linkLast (hnew _ _ _ _) _ _
  · exact hnew _ _ _ _

theorem every_copyBytes (hP : Closed P) (h : Every P st) {c ll : ℕ}
    (hl : (st.link ll).inMemory = true) (hc : (st.link c).inMemory = true) (copy : ℕ) :
    Every P (copyBytes st c ll copy) := by
  intro x
  simp only [copyBytes, Function.update_apply]
  split
  · exact hP.fill _ _ _ hc hl (h c) (h ll)
  · split
    · exact hP.drop _ _ (h ll)
    · exact h x

theorem every_while (hP : Closed P) {ll : ℕ} {rest : List ℕ} (k : ℕ) :
    ∀ {st : Rctx} {cl : Option ℕ}, Every P st →
      Every P (bufferWhile conf alloc ll rest k st cl).1 := by
  induction k with
  | zero => intro st cl h; exact h
  | succ k ih =>
    intro st cl h
    have hcopy : ∀ {t : Rctx} (c n : ℕ), Every P t → Every P
        (if min n (t.link c).room = 0 then bufferWhile conf alloc ll rest k t none
        else if !((t.link ll).inMemory && (t.link c).inMemory) then (t, some c, .fault)
        else if min n (t.link c).room < n then bufferWhile conf alloc ll rest k
          { copyBytes t c ll (min n (t.link c).room) with respBufLast := some c } none
        else bufferWhile conf alloc ll rest k (copyBytes t c ll (min n (t.link c).room))
          (some c)).1 := by
      intro t c n ht
      split
      · exact ih ht
      · split
        · exact ht
        · next hm =>
          rw [Bool.not_eq_true', Bool.not_eq_false, Bool.and_eq_true] at hm
          have hcopied := every_copyBytes hP ht hm.1 hm.2 (min n (t.link c).room)
          split
          · have hlast : Every P { copyBytes t c ll (min n (t.link c).room) with
                respBufLast := some c } := hcopied
            exact ih hlast
          · exact ih hcopied
    rw [bufferWhile]
    split
    · exact h
    · cases cl with
      | some c => exact hcopy c _ h
      | none =>
        simp only [getBuf]
        by_cases hnum : conf.num ≤ st.respBufsCount
        · simp only [if_pos hnum]
          exact every_splice _ h
        · simp only [if_neg hnum]
          cases alloc st.respBufsCount with
          | none => exact h
          | some extra => exact hcopy _ _ (every_newBuf hP h conf extra)

theorem every_links (hP : Closed P) (ids : List ℕ) : ∀ {st : Rctx} {cl : Option ℕ}, Every P st →
    Every P (bufferLinks conf alloc ids st cl).1 := by
  induction ids with
  | nil => intro st cl h; exact h
  | cons ll rest ih =>
    intro st cl h
    rw [bufferLinks]
    split
    · cases he : linkEmpty st ll with
      | none => exact h
      | some st' => exact ih (every_linkEmpty h he)
    · dsimp only
      split
      · exact ih (every_while hP _ h)
      · exact every_while hP _ h

theorem every_load (bufs : List Buf) : ∀ {st : Rctx}, Every P st → (∀ b ∈ bufs, P b) →
    Every P (load st bufs) := by
  induction bufs with
  | nil => intro st h _; exact h
  | cons b bs ih =>
    intro st h hb
    apply ih (every_update h st.fresh (hb b (List.mem_cons_self ..)) _ _ _ _)
    intro c hc
    exact hb c (List.mem_cons_of_mem _ hc)

theorem every_buffer (hP : Closed P) {bufs : List Buf} (h : Every P st) (hb : ∀ b ∈ bufs, P b) :
    Every P (bodyFilterBuffer conf st bufs alloc).1 :=
  every_links hP _ (every_load bufs h hb)

end

/-- In memory, or a special buffer without bytes and room. -/
def InMemory (b : Buf) : Prop := b.inMemory = true ∨ b.data = [] ∧ b.room = 0

theorem inMemory_closed : Closed InMemory where
  new := fun _ => .inl rfl
  drop := fun b n h => h.imp_right fun hb => ⟨by rw [hb.1, List.drop_nil], hb.2⟩
  fill := fun _ _ _ hb _ _ _ => .inl hb

theorem chainMemory_eq {st : Rctx} (h : Every InMemory st) (a : Option ℕ) :
    chainMemory st a = chainBytes st a := by
  refine List.flatMap_congr fun x _ => ?_
  rcases h x with hx | ⟨hx, -⟩
  · rw [hx, if_pos rfl]
  · rw [data, hx, ite_self]

/-! ### The loop on one link -/

section
variable (conf : Conf) (alloc : ℕ → Option ℕ)

def newRoom (k : ℕ) : ℕ := (alloc k).elim 0 (conf.size + ·)

def freeRoom (count : ℕ) : ℕ :=
  ((List.range' count (conf.num - count)).map (newRoom conf alloc)).sum

theorem freeRoom_succ {count : ℕ} (h : count < conf.num) :
    freeRoom conf alloc count = newRoom conf alloc count + freeRoom conf alloc (count + 1) := by
  have hlen : conf.num - count = conf.num - (count + 1) + 1 := by omega
  simp only [freeRoom, hlen, List.range'_succ, List.map_cons, List.sum_cons]

theorem freeRoom_full {count : ℕ} (h : conf.num ≤ count) : freeRoom conf alloc count = 0 := by
  simp [freeRoom, Nat.sub_eq_zero_of_le h]

end

theorem splice_respBufs (ids : List ℕ) : ∀ st : Rctx, (splice st ids).respBufs = st.respBufs := by
  induction ids with
  | nil => intro st; rfl
  | cons r ids ih =>
    intro st
    rw [splice]
    split
    · rfl
    · split
      · exact ih st
      · exact ih _

theorem splice_filled {st : Rctx} {xs rest : List ℕ} {l ll : ℕ} {g : Bytes}
    (h : Filled st xs l g) (hf : flagged st l = false) (hw : Waiting st (xs ++ [l]) (ll :: rest))
    (hd : data st ll ≠ []) (hs : SpliceOk st (ll :: rest)) :
    Shown (splice st (ll :: rest)) (g ++ (ll :: rest).flatMap (data st))
      (lastFlag st (ll :: rest) false) := by
  have hlist : xs ++ [l] ++ ll :: rest = xs ++ l :: ll :: rest := by simp
  have hready : Ready st xs l (ll :: rest) g (lastFlag st (ll :: rest) false) :=
    ⟨seg_snoc.mpr ⟨(seg_snoc.mp h.seg).1, rfl⟩, hw.seg, hlist ▸ hw.nodup, hlist ▸ hw.bound,
      h.opened, h.bytes, fun hfl => absurd (hf.symm.trans hfl) (by simp), hs,
      spliceOk_final hs hw.seg⟩
  have hshown := splice_shown rest (splicing_link hready hd)
  simp only [splice, h.last, if_neg hd]
  rw [linkLast_data] at hshown
  rw [List.flatMap_cons, ← List.append_assoc]
  exact hshown

/-- The loop on `ll`, started in `st` with the bytes `g` in the buffers. -/
structure WhileSpec (st : Rctx) (g : Bytes) (ll : ℕ) (rest : List ℕ) (r : Rctx × Option ℕ × Ret) :
    Prop where
  ok : r.2.2 = .ok → ∃ xs l, Filled r.1 xs l (g ++ data st ll) ∧ r.2.1 = some l ∧
    lastBuf r.1 l = lastBuf st ll ∧ Waiting r.1 (xs ++ [l]) rest ∧ Same st r.1 rest
  done : r.2.2 = .done → r.1.respBufs ≠ none ∧
    Shown r.1 (g ++ (ll :: rest).flatMap (data st)) (lastFlag st (ll :: rest) false)
  returns : r.2.2 ≠ .fault

theorem WhileSpec.of_copied {st t : Rctx} {g : Bytes} {ll copy : ℕ} {rest : List ℕ}
    {r : Rctx × Option ℕ × Ret} (hs : Same st t rest) (hd : data t ll = (data st ll).drop copy)
    (hl : lastBuf t ll = lastBuf st ll)
    (h : WhileSpec t (g ++ (data st ll).take copy) ll rest r) : WhileSpec st g ll rest r := by
  have hbytes : g ++ (data st ll).take copy ++ data t ll = g ++ data st ll := by
    rw [hd, List.append_assoc, List.take_append_drop]
  have hlast : lastFlag t (ll :: rest) false = lastFlag st (ll :: rest) false := by
    rw [lastFlag_cons, lastFlag_cons, hl, same_lastFlag hs]
  refine ⟨fun hok => ?_, fun hdone => ?_, h.returns⟩
  · obtain ⟨xs, l, hf, hcl, hlb, hw, hsame⟩ := h.ok hok
    exact ⟨xs, l, hbytes ▸ hf, hcl, hlb.trans hl, hw, fun a ha => (hsame a ha).trans (hs a ha)⟩
  · obtain ⟨hr, hshown⟩ := h.done hdone
    rw [List.flatMap_cons, ← List.append_assoc, hbytes, same_data hs, hlast] at hshown
    rw [List.flatMap_cons, ← List.append_assoc]
    exact ⟨hr, hshown⟩

section
variable {conf : Conf} {alloc : ℕ → Option ℕ} {ll : ℕ} {rest : List ℕ}

theorem copyBytes_spec {st : Rctx} {xs : List ℕ} {l : ℕ} {g : Bytes} (h : Filled st xs l g)
    (hw : Waiting st (xs ++ [l]) (ll :: rest)) (copy : ℕ) :
    Filled (copyBytes st l ll copy) xs l (g ++ (data st ll).take copy) ∧
      data (copyBytes st l ll copy) ll = (data st ll).drop copy ∧
      flagged (copyBytes st l ll copy) ll = flagged st ll ∧
      lastBuf (copyBytes st l ll copy) ll = lastBuf st ll ∧
      flagged (copyBytes st l ll copy) l = flagged st ll := by
  have hn := hw.nodup
  have hne : l ∉ xs ∧ ll ∉ xs ++ [l] ∧ ll ≠ l := by
    simp only [List.nodup_append, List.nodup_cons, List.mem_append, List.mem_cons] at hn ⊢
    grind
  refine ⟨copyBytes_filled h hne.1 hne.2.1 copy, ?_, ?_, ?_, ?_⟩
  · rw [data, copyBytes_src st l ll _ hne.2.2]
  · rw [flagged, copyBytes_src st l ll _ hne.2.2]
    rfl
  · rw [lastBuf, copyBytes_src st l ll _ hne.2.2]
    rfl
  · rw [flagged, copyBytes_dst]
    rfl

theorem while_fits {st : Rctx} {xs : List ℕ} {l : ℕ} {g : Bytes} (h : Filled st xs l g)
    (hw : Waiting st (xs ++ [l]) (ll :: rest)) (k : ℕ) :
    WhileSpec st g ll rest (bufferWhile conf alloc ll rest (k + 1)
      (copyBytes st l ll (data st ll).length) (some l)) := by
  obtain ⟨hf, hsrc, -⟩ := copyBytes_spec h hw (data st ll).length
  rw [List.take_length] at hf
  rw [List.drop_length] at hsrc
  simp only [bufferWhile, if_pos hsrc]
  refine ⟨fun _ => ⟨xs, l, hf, rfl, ?_, ?_, copyBytes_same hw _⟩, by simp, by simp⟩
  · rw [lastBuf, copyBytes_dst]
    rfl
  · exact waiting_tail (copyBytes_waiting hw _)

theorem setLast_eq {st : Rctx} {l : ℕ} (h : st.respBufLast = some l) :
    { st with respBufLast := some l } = st := by
  rw [← h]

theorem spliceOk_copied {st t : Rctx} {copy : ℕ} (hs : Same st t rest)
    (hd : data t ll = (data st ll).drop copy) (hlt : copy < (data st ll).length)
    (hf : flagged t ll = flagged st ll) (hl : lastBuf t ll = lastBuf st ll)
    (h : SpliceOk st (ll :: rest)) : SpliceOk t (ll :: rest) := by
  refine spliceOk_congr ?_ ?_ ?_ h
  · intro a ha
    rcases List.mem_cons.mp ha with rfl | ha
    · exact hf
    · rw [flagged, hs a ha, flagged]
  · intro a ha
    rcases List.mem_cons.mp ha with rfl | ha
    · have hlen : (data t a).length = (data st a).length - copy := by rw [hd, List.length_drop]
      rw [← List.length_eq_zero_iff, ← List.length_eq_zero_iff]
      omega
    · rw [data, hs a ha, data]
  · intro a ha
    rcases List.mem_cons.mp ha with rfl | ha
    · exact hl
    · rw [lastBuf, hs a ha, lastBuf]

theorem while_none (k : ℕ) : ∀ {st : Rctx} {g : Bytes} {chain : List ℕ}, Open st g chain →
    Waiting st chain (ll :: rest) → Every InMemory st → data st ll ≠ [] →
    (data st ll).length < k →
    (flagged st ll = true → st.respBufsCount < conf.num →
      (data st ll).length ≤ newRoom conf alloc st.respBufsCount) →
    (freeRoom conf alloc st.respBufsCount < (data st ll).length → SpliceOk st (ll :: rest)) →
    WhileSpec st g ll rest (bufferWhile conf alloc ll rest k st none) := by
  induction k with
  | zero => intro st g chain _ _ _ _ hk; omega
  | succ k ih =>
    intro st g chain ho hw hm hd hk hflag hsplice
    have hpos : 0 < (data st ll).length := List.length_pos_iff.mpr hd
    simp only [bufferWhile, if_neg hd, getBuf]
    by_cases hnum : conf.num ≤ st.respBufsCount
    · simp only [if_pos hnum]
      refine ⟨by simp, fun _ => ?_, by simp⟩
      cases ho with
      | empty _ _ hc =>
        have := conf.num_pos
        omega
      | filled xs l g hf hfl =>
        refine ⟨?_, splice_filled hf hfl hw hd (hsplice ?_)⟩
        · rw [splice_respBufs]
          exact filled_respBufs hf
        · rw [freeRoom_full conf alloc hnum]
          exact hpos
    · simp only [if_neg hnum]
      cases ha : alloc st.respBufsCount with
      | none => exact ⟨by simp, by simp, by simp⟩
      | some extra =>
        obtain ⟨hf, hw', hsame, hbuf, hcount⟩ := newBuf_filled conf ho hw extra
        have hm' := every_newBuf inMemory_closed hm conf extra
        dsimp only
        generalize newBuf conf st extra = t at hf hw' hsame hbuf hcount hm' ⊢
        have hll : t.link ll = st.link ll := hsame ll (List.mem_cons_self ..)
        have hsrc : (t.link ll).inMemory = true := by
          rw [hll]
          exact (hm ll).resolve_right fun h => hd h.1
        have hdst : (t.link st.fresh).inMemory = true := congrArg Buf.inMemory hbuf
        have hdata : data t ll = data st ll := by rw [data, hll, data]
        have hroom : (t.link st.fresh).room = conf.size + extra := congrArg Buf.room hbuf
        have hnew : newRoom conf alloc st.respBufsCount = conf.size + extra := by
          simp [newRoom, ha]
        have hsize := conf.size_pos
        have hsame' : Same st t rest := fun a h => hsame a (List.mem_cons_of_mem _ h)
        simp only [hdata, hroom]
        rw [if_neg (by omega), if_neg (by simp [hsrc, hdst])]
        by_cases hlt : min (data st ll).length (conf.size + extra) < (data st ll).length
        · -- the new link is full, and `ll` is not flagged
          have hmin : min (data st ll).length (conf.size + extra) = conf.size + extra := by omega
          have hun : flagged st ll = false := by
            by_contra hc
            have := hflag (by simpa using hc) (by omega)
            omega
          obtain ⟨hf2, hd2, hfl2, hlb2, hfl2'⟩ := copyBytes_spec hf hw' (conf.size + extra)
          rw [if_pos hlt, hmin, setLast_eq hf2.last]
          have hopen : Open (copyBytes t st.fresh ll (conf.size + extra))
              (g ++ (data st ll).take (conf.size + extra)) (chain ++ [st.fresh]) := by
            refine .filled chain st.fresh _ (hdata ▸ hf2) ?_
            rw [hfl2', flagged, hll]
            exact hun
          have hrest : Same st (copyBytes t st.fresh ll (conf.size + extra)) rest := fun a h =>
            (copyBytes_same hw' _ a h).trans (hsame' a h)
          rw [hdata] at hd2
          have hlen : (data (copyBytes t st.fresh ll (conf.size + extra)) ll).length =
              (data st ll).length - (conf.size + extra) := by rw [hd2, List.length_drop]
          have hcount2 : (copyBytes t st.fresh ll (conf.size + extra)).respBufsCount =
              st.respBufsCount + 1 := hcount
          have hlb3 : lastBuf (copyBytes t st.fresh ll (conf.size + extra)) ll = lastBuf st ll := by
            rw [hlb2, lastBuf, hll, lastBuf]
          have hfl3 : flagged (copyBytes t st.fresh ll (conf.size + extra)) ll = flagged st ll := by
            rw [hfl2, flagged, hll, flagged]
          refine .of_copied hrest hd2 hlb3 (ih hopen (copyBytes_waiting hw' _) ?_ ?_ ?_ ?_ ?_)
          · exact every_copyBytes inMemory_closed hm' hsrc hdst _
          · exact List.length_pos_iff.mp (by omega)
          · omega
          · rw [hfl3, hun]
            simp
          · rw [hlen, hcount2]
            intro hfree
            rw [freeRoom_succ conf alloc (by omega), hnew] at hsplice
            exact spliceOk_copied hrest hd2 (by omega) hfl3 hlb3 (hsplice (by omega))
        · have hmin : min (data st ll).length (conf.size + extra) = (data st ll).length := by omega
          rw [if_neg hlt, hmin]
          obtain ⟨k, rfl⟩ : ∃ j, k = j + 1 := ⟨k - 1, by omega⟩
          have hfit : WhileSpec t g ll rest (bufferWhile conf alloc ll rest (k + 1)
              (copyBytes t st.fresh ll (data t ll).length) (some st.fresh)) := while_fits hf hw' k
          rw [hdata] at hfit
          have hlb : lastBuf t ll = lastBuf st ll := by rw [lastBuf, hll, lastBuf]
          exact .of_copied hsame' (hdata.trans List.drop_zero.symm) hlb (by simpa using hfit)

theorem while_some {st : Rctx} {xs : List ℕ} {l : ℕ} {g : Bytes} (h : Filled st xs l g)
    (hw : Waiting st (xs ++ [l]) (ll :: rest)) (hm : Every InMemory st) (hd : data st ll ≠ [])
    {k : ℕ} (hk : (data st ll).length + 1 < k)
    (hl : (st.link l).room < (data st ll).length →
      ((st.link l).room ≠ 0 → flagged st ll = false) ∧
      ((st.link l).room = 0 → flagged st l = false) ∧
      (flagged st ll = true → st.respBufsCount < conf.num →
        (data st ll).length ≤ newRoom conf alloc st.respBufsCount) ∧
      ((st.link l).room + freeRoom conf alloc st.respBufsCount < (data st ll).length →
        SpliceOk st (ll :: rest))) :
    WhileSpec st g ll rest (bufferWhile conf alloc ll rest k st (some l)) := by
  obtain ⟨k, rfl⟩ : ∃ j, k = j + 1 := ⟨k - 1, by omega⟩
  have hpos : 0 < (data st ll).length := List.length_pos_iff.mpr hd
  simp only [bufferWhile, if_neg hd, getBuf]
  by_cases hroom : (st.link l).room = 0
  · obtain ⟨-, h2, h3, h4⟩ := hl (by omega)
    rw [if_pos (by omega)]
    exact while_none k (.filled xs l g h (h2 hroom)) hw hm hd (by omega) h3 fun hf => h4 (by omega)
  · have hsrc : (st.link ll).inMemory = true := (hm ll).resolve_right fun hz => hd hz.1
    have hdst : (st.link l).inMemory = true := (hm l).resolve_right fun hz => hroom hz.2
    rw [if_neg (by omega), if_neg (by simp [hsrc, hdst])]
    by_cases hlt : (st.link l).room < (data st ll).length
    · obtain ⟨h1, -, h3, h4⟩ := hl hlt
      have hmin : min (data st ll).length (st.link l).room = (st.link l).room := by omega
      obtain ⟨hf2, hd2, hfl2, hlb2, hfl2'⟩ := copyBytes_spec h hw (st.link l).room
      have hlen : (data (copyBytes st l ll (st.link l).room) ll).length =
          (data st ll).length - (st.link l).room := by rw [hd2, List.length_drop]
      rw [if_pos (by omega), hmin, setLast_eq hf2.last]
      refine .of_copied (copyBytes_same hw _) hd2 hlb2 (while_none k
        (.filled xs l _ hf2 (hfl2'.trans (h1 hroom))) (copyBytes_waiting hw _) ?_ ?_ ?_ ?_ ?_)
      · exact every_copyBytes inMemory_closed hm hsrc hdst _
      · exact List.length_pos_iff.mp (by omega)
      · omega
      · rw [hfl2, h1 hroom]
        simp
      · intro hfree
        refine spliceOk_copied (copyBytes_same hw _) hd2 hlt hfl2 hlb2 (h4 ?_)
        have hcount : (copyBytes st l ll (st.link l).room).respBufsCount = st.respBufsCount := rfl
        rw [hcount, hlen] at hfree
        omega
    · have hmin : min (data st ll).length (st.link l).room = (data st ll).length := by omega
      obtain ⟨k, rfl⟩ : ∃ j, k = j + 1 := ⟨k - 1, by omega⟩
      rw [if_neg (by omega), hmin]
      exact while_fits h hw k

end

/-! ### An empty buffer -/

theorem linkEmpty_held {st st' : Rctx} {g : Bytes} {chain : List ℕ} {ll : ℕ} (h : Held st g chain)
    (hw : Waiting st chain [ll]) (hd : data st ll = []) (hf : flagged st ll = true)
    (hc : ¬ Carries st) (he : linkEmpty st ll = some st') :
    ∃ chain', Held st' g chain' ∧ Waiting st' chain' [] ∧
      (Carries st' → lastBuf st ll = true) ∧ st'.respBufs ≠ none := by
  have hnext : next st ll = none := hw.seg.2
  have hd' : (chain ++ [ll]).Nodup := hw.nodup
  have hb' : ∀ a ∈ chain ++ [ll], a < st.fresh := hw.bound
  simp only [linkEmpty, hf, if_true] at he
  -- the new last link is `ll`
  have hcarries : ∀ t : Rctx, t.respBufLast = some ll → (lastBuf t = lastBuf st) → Carries t →
      lastBuf st ll = true := by
    rintro t hlast hlb ⟨l, hl | ⟨hl, -⟩, hlbl⟩
    · rw [hlast] at hl
      rw [Option.some.inj hl, ← hlb]
      exact hlbl
    · rw [hlast] at hl
      exact absurd hl (by simp)
  cases h with
  | empty hr hl hcount =>
    rw [hr] at he
    simp only [Option.some.injEq] at he
    rw [← he]
    refine ⟨[ll], .lone ll rfl hl hcount hd hnext, ⟨rfl, by simp, by simpa using hb'⟩, ?_, by simp⟩
    rintro ⟨l, hll | ⟨-, hll⟩, hlb⟩
    · exact absurd (hl.symm.trans hll) (by simp)
    · rw [Option.some.inj hll]
      exact hlb
  | lone e hr hl =>
    rw [hr, hl] at he
    exact absurd he (by simp)
  | filled xs l g h =>
    obtain ⟨r, hr⟩ := Option.ne_none_iff_exists'.mp (filled_respBufs h)
    rw [hr, h.last] at he
    simp only [Option.some.injEq] at he
    rw [← he]
    refine ⟨xs ++ [l] ++ [ll], ?_, ⟨rfl, by rw [List.append_nil]; exact hd',
      by rw [List.append_nil]; exact hb'⟩, hcarries _ rfl (linkLast_lastBuf st l ll),
      by simp [linkLast, hr]⟩
    by_cases hfl : flagged st l = true
    · have hg : (upto (flagged (linkLast st l ll)) (xs ++ [l] ++ [ll])).flatMap
          (data (linkLast st l ll)) = g := by
        rw [linkLast_flagged, linkLast_data, flatMap_upto_snoc hd,
          flatMap_upto h.opened (by simp), h.bytes]
      rw [← hg]
      refine .closed (xs ++ [l]) ll (linkLast_seg h.seg hd' hnext) rfl ⟨l, by simp, ?_⟩ ?_
      · rw [linkLast_flagged]
        exact hfl
      · intro x hx
        rw [linkLast_lastBuf]
        rcases List.mem_append.mp hx with hx | hx
        · by_contra hlb
          have hopen := h.opened x hx
          rw [flagged_of_lastBuf (by simpa using hlb)] at hopen
          exact absurd hopen (by simp)
        · rw [List.mem_singleton.mp hx]
          by_contra hlb
          exact hc ⟨l, .inl h.last, by simpa using hlb⟩
    · have hlinked := linkLast_filled h (by simpa using hfl) hd' hnext
      rw [hd, List.append_nil] at hlinked
      exact .filled (xs ++ [l]) ll g hlinked
  | closed xs l hseg hlast hflag hnone =>
    obtain ⟨r, hr⟩ := Option.ne_none_iff_exists'.mp (seg_head hseg)
    rw [hr, hlast] at he
    simp only [Option.some.injEq] at he
    rw [← he]
    refine ⟨xs ++ [l] ++ [ll], ?_, ⟨rfl, by rw [List.append_nil]; exact hd',
      by rw [List.append_nil]; exact hb'⟩, hcarries _ rfl (linkLast_lastBuf st l ll),
      by simp [linkLast, hr]⟩
    have hg : (upto (flagged st) (xs ++ [l] ++ [ll])).flatMap (data st) =
        (upto (flagged st) (xs ++ [l])).flatMap (data st) := flatMap_upto_snoc hd
    rw [← hg, ← linkLast_flagged st l ll, ← linkLast_data st l ll]
    obtain ⟨x, hx, hxf⟩ := hflag
    refine .closed (xs ++ [l]) ll (linkLast_seg hseg hd' hnext) rfl
      ⟨x, List.mem_append_left _ hx, by rw [linkLast_flagged]; exact hxf⟩ fun y hy => ?_
    rw [linkLast_lastBuf]
    rcases List.mem_append.mp hy with hy | hy
    · exact hnone y hy
    · rw [List.mem_singleton.mp hy]
      by_contra hlb
      exact hc ⟨l, .inl hlast, by simpa using hlb⟩

end NgxWasm.Http.BodyBytes
