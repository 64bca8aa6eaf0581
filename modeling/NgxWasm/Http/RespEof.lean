import NgxWasm.Http.RespBody
import NgxWasm.Wasm.ChainAppend

/-!
# The end of the stream in an edited response chunk (ngx_http_wasm_util.c)

A call that appends gathers the flags of the chunk on its new last link; one
that prepends leaves them where they are. The chunk is discarded when nothing is
left of it, and the end of the stream with it.
-/

namespace NgxWasm.Http.RespEof
open NgxWasm NgxWasm.Lib.Run
open NgxWasm.Wasm.Chain NgxWasm.Wasm.ChainTail NgxWasm.Wasm.ChainAppend
open NgxWasm.Http.RespBody

variable {m m' : Mem} {inp inp' : Option ℕ} {st : Rctx} {c : Call} {tag : ℕ}

/-! ### Flags -/

def Carries (bs : List Buf) : Prop := ∃ b ∈ bs, b.lastBuf = true

/-- The last link ends the stream. -/
def Ends (bs : List Buf) : Prop := ∃ b ∈ bs.getLast?, b.lastBuf = true

theorem Ends.carries {bs : List Buf} (h : Ends bs) : Carries bs := by
  obtain ⟨b, hb, hlast⟩ := h
  exact ⟨b, List.mem_of_getLast? hb, hlast⟩

theorem Ends.cons {bs : List Buf} (b : Buf) (h : Ends bs) : Ends (b :: bs) := by
  obtain ⟨e, he, hlast⟩ := h
  refine ⟨e, ?_, hlast⟩
  cases bs with
  | nil => simp at he
  | cons c bs => simpa using he

theorem Carries.flagged {bs : List Buf} (h : Carries bs) : bs.any Buf.flagged = true := by
  obtain ⟨b, hb, hlast⟩ := h
  exact List.any_eq_true.mpr ⟨b, hb, by simp [Buf.flagged, hlast]⟩

theorem chainLen_snoc {bs : List Buf} {b : Buf} (h : ∀ c ∈ bs, c.flagged = false) :
    (chainLen (bs ++ [b])).1 = (content bs).length + b.bytes.length := by
  induction bs with
  | nil =>
    by_cases hb : b.flagged
    · simp [chainLen, content, Buf.size, hb]
    · simp [chainLen, content, Buf.size, hb]
  | cons c bs ih =>
    have hc := h c (List.mem_cons_self ..)
    have hbs := ih fun d hd => h d (List.mem_cons_of_mem _ hd)
    rw [List.cons_append, chainLen, hc]
    simp only [Bool.false_eq_true, if_false, hbs, content_cons, List.length_append, Buf.size]
    omega

/-! ### One call -/

/-- The body filter works on a chunk that ends the stream. -/
structure Final (st : Rctx) : Prop where
  wf : Wf st.mem st.respChunk
  entered : st.enteredBodyFilter = true
  carries : Carries st.chunk

/-- A call that appends gets its memory, and what it leaves of the chunk is not
empty and can be walked. -/
def KeepsEnd (tag : ℕ) (st : Rctx) (c : Call) : Prop :=
  c.bufType = .httpResponseBody → ¬ c.prepends →
    c.alloc = ⟨true, true⟩ ∧
      (linked tag (cuts (sizeArg c.offset) st.chunk) ∨
        stops tag (cuts (sizeArg c.offset) st.chunk) = true ∧ c.data.take (maxArg c) ≠ [])

def Appends (c : Call) : Prop := c.bufType = .httpResponseBody ∧ ¬ c.prepends

theorem Final.some (h : Final st) : st.respChunk ≠ none := by
  intro hn
  obtain ⟨b, hb, -⟩ := h.carries
  rw [Rctx.chunk, hn] at hb
  have hnil : st.mem.bufs none = [] := by
    unfold Mem.bufs Mem.links
    cases st.mem.fresh <;> rfl
  rw [hnil] at hb
  cases hb

/-- A chunk with a new last link that is not discarded. -/
theorem newLast_final {bs : List Buf} {str : Bytes} {flush : Bool} (hst : st.enteredBodyFilter = true)
    (h : NewLast st.mem st.respChunk bs str flush true) (hbs : ∀ b ∈ bs, b.flagged = false)
    (hne : content bs ++ str ≠ []) :
    Final (dropEmpty (measure st)) ∧ Ends (dropEmpty (measure st)).chunk := by
  obtain ⟨b, hbufs, hdata, -, hlast, -⟩ := h.bufs
  have hlen : (measure st).respChunkLen ≠ 0 := by
    have hpos := List.length_pos_iff.mpr hne
    rw [List.length_append] at hpos
    show (chainLen (st.mem.bufs st.respChunk)).1 ≠ 0
    rw [hbufs, chainLen_snoc hbs, hdata]
    omega
  have hends : Ends (measure st).chunk := by
    refine ⟨b, ?_, hlast⟩
    show b ∈ (st.mem.bufs st.respChunk).getLast?
    rw [hbufs, List.getLast?_concat]
    rfl
  rw [dropEmpty, if_pos hlen]
  exact ⟨⟨h.wf, hst, hends.carries⟩, hends⟩

theorem appendChunk_final {str : Bytes} {offset : ℕ} (h : Final st)
    (hk : linked tag (cuts offset st.chunk) ∨ stops tag (cuts offset st.chunk) = true ∧ str ≠ []) :
    Final (appendChunk st str offset tag ⟨true, true⟩).1 ∧
      Ends (appendChunk st str offset tag ⟨true, true⟩).1.chunk := by
  have hok := append_granted st.mem st.respChunk offset str tag
  have hr : chainAppend st.mem st.respChunk offset str tag ⟨true, true⟩ =
      ((chainAppend st.mem st.respChunk offset str tag ⟨true, true⟩).1,
        (chainAppend st.mem st.respChunk offset str tag ⟨true, true⟩).2.1, .ok) := by
    rw [← hok]
  have hcases := append_cases h.wf hr
  have hflag : (st.mem.bufs st.respChunk).any Buf.flagged = true := h.carries.flagged
  rw [appendChunk, if_pos hok]
  generalize chainAppend st.mem st.respChunk offset str tag ⟨true, true⟩ = r at hcases
  dsimp only at hcases
  rw [hflag] at hcases
  have hcs : cuts offset st.chunk ≠ [] := by
    obtain ⟨b, hb, -⟩ := h.carries
    cases hbs : st.chunk with
    | nil => rw [hbs] at hb; cases hb
    | cons c bs => simp [cuts]
  rcases hcases with ⟨hstop, hnew⟩ | ⟨hstop, hlink, hnew⟩ | ⟨hstop, hlink, -⟩
  · have hstr : str ≠ [] := by
      rcases hk with hlink | ⟨-, hstr⟩
      · change stops tag (cuts offset st.chunk) = true at hstop
        cases hc : cuts offset st.chunk with
        | nil => exact absurd hc hcs
        | cons b bs =>
          rw [hc] at hlink hstop
          have hb := hlink.1 b rfl
          simp [stops, hb] at hstop
      · exact hstr
    exact newLast_final h.entered hnew (by simp) hstr
  · have hun : ∀ b ∈ nonempty (cuts offset st.chunk), b.flagged = false :=
      fun b hb => cuts_unflagged b (List.mem_of_mem_filter hb)
    refine newLast_final h.entered hnew hun ?_
    rw [nonempty_content]
    obtain ⟨b, hb, hd⟩ := linked_of_nonempty hstop
    exact fun he => hd (List.flatMap_eq_nil_iff.mp (List.append_eq_nil_iff.mp he).1 b hb)
  · rcases hk with hl | ⟨hs, -⟩
    · exact absurd hl hlink
    · cases hs.symm.trans hstop

theorem prepend_final {str : Bytes} {a : Alloc} (h : Final st) :
    Final (prependRespBody st str tag a).1 ∧
      (Ends st.chunk → Ends (prependRespBody st str tag a).1.chunk) := by
  rw [prependRespBody, if_neg h.some]
  dsimp only
  cases hr : chainPrepend st.mem st.respChunk str tag a with
  | mk m r =>
    obtain ⟨inp, ret⟩ := r
    obtain ⟨hwf, hbufs⟩ := prepend_cases h.wf hr
    have hcarries : Carries (m.bufs inp) := by
      rcases hbufs with heq | ⟨b, heq, -⟩
      · rw [heq]
        exact h.carries
      · obtain ⟨e, he, hlast⟩ := h.carries
        rw [heq]
        exact ⟨e, List.mem_cons_of_mem _ he, hlast⟩
    have hends : Ends st.chunk → Ends (m.bufs inp) := by
      intro he
      rcases hbufs with heq | ⟨b, heq, -⟩
      · rw [heq]
        exact he
      · rw [heq]
        exact Ends.cons b he
    dsimp only
    split
    · exact ⟨⟨hwf, h.entered, hcarries⟩, hends⟩
    · exact ⟨⟨hwf, h.entered, hcarries⟩, hends⟩

theorem setBuffer_final (h : Final st) (hk : KeepsEnd tag st c) :
    Final (setBuffer tag st c).1 ∧ (Ends st.chunk ∨ Appends c → Ends (setBuffer tag st c).1.chunk) := by
  unfold setBuffer
  cases hb : c.bufType with
  | httpRequestBody =>
    refine ⟨h, fun he => he.resolve_right fun ha => ?_⟩
    rw [ha.1] at hb
    cases hb
  | other =>
    refine ⟨h, fun he => he.resolve_right fun ha => ?_⟩
    rw [ha.1] at hb
    cases hb
  | httpResponseBody =>
    dsimp only
    by_cases hp : c.prepends
    · obtain ⟨hfinal, hends⟩ := @prepend_final st tag c.data c.alloc h
      rw [if_pos hp]
      exact ⟨hfinal, fun he => hends (he.resolve_right fun ha => ha.2 hp)⟩
    · obtain ⟨halloc, hchunk⟩ := hk hb hp
      rw [if_neg hp, setRespBody, if_neg h.some, halloc]
      obtain ⟨hfinal, hends⟩ := appendChunk_final h hchunk
      exact ⟨hfinal, fun _ => hends⟩

/-! ### The step of a chain of filters -/

theorem calls_final (calls : List Call) (h : Final st) (hm : Meets (setBuffer tag) (KeepsEnd tag) st calls)
    (he : Ends st.chunk ∨ ∃ c ∈ calls, Appends c) :
    Ends (exec (setBuffer tag) st calls).1.chunk := by
  induction calls generalizing st with
  | nil => exact he.resolve_right (by simp)
  | cons c calls ih =>
    obtain ⟨hfinal, hends⟩ := setBuffer_final h hm.1
    refine ih hfinal hm.2 ?_
    rcases he with he | ⟨d, hd, ha⟩
    · exact .inl (hends (.inl he))
    · rcases List.mem_cons.mp hd with rfl | hd
      · exact .inl (hends (.inr ha))
      · exact .inr ⟨d, hd, ha⟩

/-- The chain for the next body filter ends the stream if the chunk that came in
carried the end and no call empties it. -/
theorem lastBuf_handed_over {main : Bool} {calls : List Call} (hwf : Wf st.mem inp)
    (hc : Carries (st.mem.bufs inp))
    (hm : Meets (setBuffer tag) (KeepsEnd tag) (enter main st inp) calls)
    (he : Ends (st.mem.bufs inp) ∨ ∃ c ∈ calls, Appends c) :
    Ends ((bodyFilterHandler main tag st inp calls).1.mem.bufs
      (bodyFilterHandler main tag st inp calls).2) :=
  calls_final calls ⟨hwf, rfl, hc⟩ hm he

/-- The final chunk `ab`. -/
def finalChunk : Rctx where
  mem :=
    { buf := fun _ => ⟨none, true, [97, 98], [], nofun, 1, false, true, true⟩
      next := fun _ => none
      fresh := 1
      free := none
      pool := none }
  pool := none
  respChunk := none
  respChunkLen := 0
  respChunkEof := false
  enteredBodyFilter := false
  enteredLogPhase := false

theorem finalChunk_wf : Wf finalChunk.mem (some 0) :=
  have hlt : ∀ x ∈ [0], x < 1 := by decide
  ⟨[0], [0], [], [], ⟨rfl, rfl, by decide, hlt⟩, ⟨rfl, rfl⟩, fun _ h => h⟩

def replaced (data : Bytes) : Call := ⟨.httpResponseBody, 0, 2, data, granted, granted⟩

theorem replaced_chunk_ends :
    Ends ((bodyFilterHandler true 1 finalChunk (some 0) [replaced [99]]).1.mem.bufs
      (bodyFilterHandler true 1 finalChunk (some 0) [replaced [99]]).2) :=
  lastBuf_handed_over finalChunk_wf ⟨_, List.mem_singleton_self _, rfl⟩
    ⟨fun _ _ => ⟨rfl, .inr ⟨by decide, by decide⟩⟩, trivial⟩ (.inl ⟨_, rfl, rfl⟩)

/-- A filter that empties the final chunk: the next body filter gets no chain. -/
theorem emptied_chunk_lost :
    ∃ (st : Rctx) (calls : List Call), Wf st.mem (some 0) ∧ Ends (st.mem.bufs (some 0)) ∧
      (bodyFilterHandler true 1 st (some 0) calls).2 = none ∧
      ¬ Carries ((bodyFilterHandler true 1 st (some 0) calls).1.mem.bufs
        (bodyFilterHandler true 1 st (some 0) calls).2) := by
  refine ⟨finalChunk, [replaced []], finalChunk_wf, ⟨_, rfl, rfl⟩, by decide, ?_⟩
  rintro ⟨b, hb, -⟩
  cases hb

end NgxWasm.Http.RespEof
