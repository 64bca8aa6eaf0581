import NgxWasm.Http.RespEof
import NgxWasm.Wasm.ChainOwned

/-!
# `proxy_set_buffer_bytes` (ngx_proxy_wasm_host.c, ngx_http_wasm_util.c)

`ngx_proxy_wasm_hfuncs_set_buffer` (453-564) during the request steps and during
`on_response_body`. A call replaces, truncates or prepends; the filters of a
chain edit one body after another.
-/

namespace NgxWasm.Http.SetBuffer
open NgxWasm NgxWasm.Lib NgxWasm.Lib.Links NgxWasm.Lib.Run
open NgxWasm.Wasm.Chain NgxWasm.Wasm.ChainTail NgxWasm.Wasm.ChainAppend NgxWasm.Wasm.ChainOwned
open NgxWasm.Http.RespBody

/-! ### The request body -/

/-- The request side: `mem.free` is `free_bufs`, `body` is `r->request_body` with
its `bufs`. -/
structure ReqCtx where
  mem : Mem
  body : Option (Option ℕ)
  contentLengthN : ℤ
  enteredHeaderFilter : Bool

def ReqCtx.bufs (st : ReqCtx) : Option ℕ := st.body.join

/-- `get_request_body`: a new one has no buffers. -/
def getRequestBody (st : ReqCtx) (ok : Bool) : Option ReqCtx :=
  match st.body with
  | some _ => some st
  | none => if ok then some { st with body := some none } else none

def putBody (st : ReqCtx) (r : Mem × Option ℕ × Ret) : ReqCtx × Ret :=
  let st := { st with mem := r.1, body := some r.2.1 }
  if r.2.2 = .ok then
    ({ st with contentLengthN := (chainLen (st.mem.bufs st.bufs)).1 }, .ok)
  else (st, .error)

def setReqBody (st : ReqCtx) (body : Bytes) (offset max tag : ℕ) (bodyOk : Bool) (a : Alloc) :
    ReqCtx × Ret :=
  if st.enteredHeaderFilter then (st, .abort)
  else
    match getRequestBody st bodyOk with
    | none => (st, .error)
    | some st => putBody st (chainAppend st.mem st.bufs offset (body.take max) tag a)

def prependReqBody (st : ReqCtx) (body : Bytes) (tag : ℕ) (bodyOk : Bool) (a : Alloc) :
    ReqCtx × Ret :=
  if st.enteredHeaderFilter then (st, .abort)
  else
    match getRequestBody st bodyOk with
    | none => (st, .error)
    | some st => putBody st (chainPrepend st.mem st.bufs body tag a)

/-- `chunkAlloc.buf` says whether the request body is granted. -/
def setReqBuffer (tag : ℕ) (st : ReqCtx) (c : Call) : ReqCtx × Result :=
  match c.bufType with
  | .httpResponseBody => (st, .trap)
  | .other => (st, .badArgument)
  | .httpRequestBody =>
    let r :=
      if c.prepends then prependReqBody st c.data tag c.chunkAlloc.buf c.alloc
      else setReqBody st c.data (sizeArg c.offset) (maxArg c) tag c.chunkAlloc.buf c.alloc
    (r.1, if r.2 = .ok then .ok else .internalFailure)

/-! ### Both sides -/

/-- What the filters edit: the request body in `on_request_headers` and
`on_request_body`, the chunk in `on_response_body`. -/
inductive Side where
  | request (st : ReqCtx)
  | response (st : Rctx)

def setBufferBytes (tag : ℕ) : Side → Call → Side × Result
  | .request st, c => (.request (setReqBuffer tag st c).1, (setReqBuffer tag st c).2)
  | .response st, c => (.response (setBuffer tag st c).1, (setBuffer tag st c).2)

def Side.bufType : Side → BufferType
  | .request _ => .httpRequestBody
  | .response _ => .httpResponseBody

def Side.chunk : Side → List Buf
  | .request st => st.mem.bufs st.bufs
  | .response st => st.chunk

/-- `headers_in.content_length_n` or `resp_chunk_len`. -/
def Side.len : Side → ℤ
  | .request st => st.contentLengthN
  | .response st => st.respChunkLen

def Side.discarded : Side → Bool
  | .request _ => false
  | .response st => st.respChunk.isNone

/-- The content a call is to leave. -/
def edited (c : Bytes) (call : Call) : Bytes :=
  if call.offset = 0 ∧ call.max = 0 ∧ call.data ≠ [] then call.data ++ c
  else
    let m := if call.offset ≠ 0 ∧ call.max = 0 then call.data.length else sizeArg call.max
    c.take (sizeArg call.offset) ++ call.data.take m

/-- Memory is granted. A call that prepends finds a chunk, without bytes behind a
flagged link; one that does not finds a chain it can cut and walk. -/
def Edits (tag : ℕ) (s : Side) (c : Call) : Prop :=
  c.chunkAlloc = granted ∧ c.alloc = granted ∧
    if c.prepends then s.discarded = false ∧ behind s.chunk = []
    else Cuttable (sizeArg c.offset) s.chunk ∧ Walkable tag (sizeArg c.offset) s.chunk

/-- The links of a side are apart, and the request has not gone past the step. -/
def Ready : Side → Prop
  | .request st => st.enteredHeaderFilter = false ∧
      ∃ xs fs ps, Lists st.mem xs fs ps ∧ Seg st.mem.next st.bufs xs none
  | .response st => st.enteredBodyFilter = true ∧ st.enteredLogPhase = false ∧
      ∃ xs qs fs ps, Lists st.mem (xs ++ qs) fs ps ∧
        Seg st.mem.next st.respChunk xs none ∧ Seg st.mem.next st.pool qs none

theorem taken_eq (c : Call) : c.data.take (maxArg c) =
    c.data.take (if c.offset ≠ 0 ∧ c.max = 0 then c.data.length else sizeArg c.max) := by
  unfold maxArg
  by_cases hd : c.data = []
  · simp [hd]
  · simp [hd]

theorem edited_prepends {c : Call} (h : c.prepends) (bs : Bytes) : edited bs c = c.data ++ bs :=
  if_pos h

theorem edited_appends {c : Call} (h : ¬ c.prepends) (bs : Bytes) :
    edited bs c = bs.take (sizeArg c.offset) ++ c.data.take (maxArg c) := by
  rw [taken_eq]
  exact if_neg h

/-! ### One call -/

variable {tag : ℕ} {m m' : Mem} {inp inp' : Option ℕ} {str : Bytes}

/-- A side that holds `bs`, with the length recorded. -/
structure Holds (s : Side) (bs : Bytes) : Prop where
  ready : Ready s
  holds : content s.chunk = bs
  len : s.len = bs.length

theorem chainLen_whole {bs : List Buf} (h : behind bs = []) :
    (chainLen bs).1 = (content bs).length := by
  have hlen := chainLen_behind bs
  rw [h, List.length_nil] at hlen
  omega

theorem bufs_none (m : Mem) : m.bufs none = [] := by
  unfold Mem.bufs Mem.links
  cases m.fresh <;> rfl

theorem append_ok (m : Mem) (inp : Option ℕ) (offset : ℕ) (str : Bytes) (tag : ℕ) :
    chainAppend m inp offset str tag granted =
      ((chainAppend m inp offset str tag granted).1,
        (chainAppend m inp offset str tag granted).2.1, .ok) := by
  rw [← append_granted m inp offset str tag]
  rfl

theorem prepend_ok (m : Mem) (inp : Option ℕ) (str : Bytes) (tag : ℕ) :
    ∃ m' inp', chainPrepend m inp str tag granted = (m', some inp', .ok) := by
  have hsome := getFreeBuf_granted m str.length tag
  rw [chainPrepend]
  cases hget : getFreeBuf m str.length tag true granted with
  | mk m₁ r =>
    rw [show granted = ⟨true, true⟩ from rfl] at hget
    rw [hget] at hsome
    cases r with
    | none => cases hsome
    | some nl => exact ⟨_, nl, rfl⟩

/-- The chain after an edit holds `bs`, all of it before a flag. -/
structure Holding (m m' : Mem) (inp' : Option ℕ) (qs : List ℕ) (bs : Bytes) : Prop where
  owned : Owned m m' inp' qs
  holds : content (m'.bufs inp') = bs
  whole : behind (m'.bufs inp') = []

theorem append_holding {xs qs fs ps : List ℕ} {offset : ℕ} (hl : Lists m (xs ++ qs) fs ps)
    (hs : Seg m.next inp xs none) (hc : Cuttable offset (m.bufs inp))
    (hw : Walkable tag offset (m.bufs inp)) :
    Holding m (chainAppend m inp offset str tag granted).1
      (chainAppend m inp offset str tag granted).2.1 qs
      ((content (m.bufs inp)).take offset ++ str) := by
  have hr := append_ok m inp offset str tag
  have hwf : Wf m inp := ⟨xs, xs ++ qs, fs, ps, hl, hs, List.subset_append_left xs qs⟩
  obtain ⟨hcontent, hbehind⟩ := append_content hwf hr hc hw
  exact ⟨append_owned hl hs hr hw, hcontent, hbehind⟩

theorem prepend_holding {xs qs fs ps : List ℕ} (hl : Lists m (xs ++ qs) fs ps)
    (hs : Seg m.next inp xs none) (hb : behind (m.bufs inp) = [])
    (hr : chainPrepend m inp str tag granted = (m', inp', .ok)) :
    Holding m m' inp' qs (str ++ content (m.bufs inp)) := by
  obtain ⟨howned, b, hbufs, hdata, hflag⟩ := prepend_owned hl hs hr
  refine ⟨howned, ?_, ?_⟩
  · rw [hbufs, ← hdata]
    simp [content]
  · rw [hbufs, behind, hflag]
    exact hb

theorem getRequestBody_granted (st : ReqCtx) :
    ∃ st', getRequestBody st true = some st' ∧ st'.mem = st.mem ∧ st'.bufs = st.bufs ∧
      st'.enteredHeaderFilter = st.enteredHeaderFilter := by
  cases hb : st.body with
  | some b => exact ⟨st, by rw [getRequestBody, hb], rfl, rfl, rfl⟩
  | none => exact ⟨{ st with body := some none }, by rw [getRequestBody, hb, if_pos rfl], rfl,
      by rw [ReqCtx.bufs, ReqCtx.bufs, hb]; rfl, rfl⟩

theorem putBody_holds {st : ReqCtx} (h : st.enteredHeaderFilter = false) {bs : Bytes}
    (hm : Holding m m' inp' [] bs) :
    (putBody st (m', inp', .ok)).2 = .ok ∧ Holds (.request (putBody st (m', inp', .ok)).1) bs := by
  obtain ⟨xs, fs, ps, hl, hs⟩ := hm.owned.lists
  rw [List.append_nil] at hl
  refine ⟨rfl, ⟨h, xs, fs, ps, hl, hs⟩, hm.holds, ?_⟩
  show ((chainLen (m'.bufs inp')).1 : ℤ) = bs.length
  rw [chainLen_whole hm.whole, hm.holds]

theorem request_edits {st : ReqCtx} (h : Ready (.request st)) {c : Call}
    (hb : c.bufType = .httpRequestBody) (he : Edits tag (.request st) c) :
    (setReqBuffer tag st c).2 = .ok ∧
      Holds (.request (setReqBuffer tag st c).1) (edited (content (st.mem.bufs st.bufs)) c) := by
  obtain ⟨hentered, xs, fs, ps, hl, hs⟩ := h
  obtain ⟨hchunk, halloc, hcond⟩ := he
  obtain ⟨st₁, hget, hmem, hbufs, hent⟩ := getRequestBody_granted st
  rw [← List.append_nil xs] at hl
  simp only [setReqBuffer, hb, hchunk, halloc]
  by_cases hp : c.prepends
  · rw [if_pos hp] at hcond
    obtain ⟨m', i, hr⟩ := prepend_ok st.mem st.bufs c.data tag
    have hm := prepend_holding hl hs hcond.2 hr
    rw [if_pos hp, edited_prepends hp]
    simp only [prependReqBody, hentered, Bool.false_eq_true, if_false, granted, hget, hmem, hbufs]
    rw [show chainPrepend st.mem st.bufs c.data tag ⟨true, true⟩ = _ from hr]
    obtain ⟨hok, hholds⟩ := putBody_holds (hent.trans hentered) hm
    exact ⟨by rw [hok]; rfl, hholds⟩
  · rw [if_neg hp] at hcond
    have hm := @append_holding _ _ _ (c.data.take (maxArg c)) _ _ _ _ _ hl hs hcond.1 hcond.2
    have hr := append_ok st.mem st.bufs (sizeArg c.offset) (c.data.take (maxArg c)) tag
    rw [if_neg hp, edited_appends hp]
    simp only [setReqBody, hentered, Bool.false_eq_true, if_false, granted, hget, hmem, hbufs]
    rw [show chainAppend st.mem st.bufs (sizeArg c.offset) (c.data.take (maxArg c)) tag
      ⟨true, true⟩ = _ from hr]
    obtain ⟨hok, hholds⟩ := putBody_holds (hent.trans hentered) hm
    exact ⟨by rw [hok]; rfl, hholds⟩

/-! ### The response chunk -/

/-- The pool that is asked for a link changes places with the one that is not. -/
theorem Lists.swap {us fs ps qs : List ℕ} {p : Option ℕ} (h : Lists m (us ++ qs) fs ps)
    (hp : Seg m.next p qs none) : Lists { m with pool := p } (us ++ ps) fs qs := by
  have hperm : (us ++ ps ++ (fs ++ qs)).Perm (us ++ qs ++ (fs ++ ps)) := by
    have hcounts : ∀ x, (us ++ ps ++ (fs ++ qs)).count x = (us ++ qs ++ (fs ++ ps)).count x := by
      intro x
      simp only [List.count_append]
      omega
    exact List.perm_iff_count.mpr hcounts
  exact ⟨h.free, hp, hperm.nodup_iff.mpr h.nodup, fun x hx => h.lt x (hperm.mem_iff.mp hx)⟩

theorem newChunk_ready {st : Rctx} (h : Ready (.response st)) (hn : st.respChunk = none)
    (len : ℕ) : (newChunk st len tag granted).2 = .ok ∧
      Ready (.response (newChunk st len tag granted).1) ∧
      ∃ b, (newChunk st len tag granted).1.chunk = [b] ∧ b.bytes = [] := by
  obtain ⟨hentered, hlog, xs, qs, fs, ps, hl, hs, hq⟩ := h
  have hxs : xs = [] := by
    rw [hn] at hs
    cases xs with
    | nil => rfl
    | cons x xs => cases hs.1
  rw [hxs, List.nil_append] at hl
  have hl₁ : Lists { st.mem with pool := st.pool } ps fs qs := @Lists.swap _ [] _ _ _ _ hl hq
  have hsome := getFreeBuf_granted { st.mem with pool := st.pool } len tag
  simp only [newChunk, hlog, Bool.false_eq_true, if_false]
  cases hget : getFreeBuf { st.mem with pool := st.pool } len tag true granted with
  | mk m₁ r =>
    rw [show granted = ⟨true, true⟩ from rfl] at hget
    rw [hget] at hsome
    cases r with
    | none => cases hsome
    | some nl =>
      obtain ⟨hg, fs₁, qs₁, hl₂, -⟩ := getFreeBuf_given hl₁ hget
      have hnl : nl ∉ ps := (List.nodup_cons.mp (List.nodup_append'.mp hl₂.nodup).1).1
      have hp : Seg m₁.next st.mem.pool ps none :=
        seg_congr (fun z hz => hg.next z fun he => hnl (he ▸ hz)) hl.pool
      have hl₃ : Lists { m₁ with pool := st.mem.pool } ([nl] ++ qs₁) fs₁ ps :=
        Lists.swap hl₂ hp
      have hs₃ : Seg m₁.next (some nl) [nl] none := ⟨rfl, hg.last⟩
      refine ⟨rfl, ⟨hentered, rfl, [nl], qs₁, fs₁, ps, hl₃, hs₃, hl₂.pool⟩, m₁.buf nl, ?_, by simp [Buf.bytes, hg.data, hg.file]⟩
      show ({ m₁ with pool := st.mem.pool } : Mem).bufs (some nl) = _
      rw [Mem.bufs, hl₃.links_eq hs₃ (List.subset_append_left [nl] qs₁), List.map_singleton]

theorem Holding.ready {st : Rctx} {qs : List ℕ} {bs : Bytes} (hm : Holding st.mem m' inp' qs bs)
    (hq : Seg st.mem.next st.pool qs none) (he : st.enteredBodyFilter = true)
    (hlog : st.enteredLogPhase = false) :
    Ready (.response (measure { st with mem := m', respChunk := inp' })) := by
  obtain ⟨xs, fs, ps, hl, hs⟩ := hm.owned.lists
  exact ⟨he, hlog, xs, qs, fs, ps, hl, hs, seg_congr hm.owned.next hq⟩

theorem measure_holds {st : Rctx} {qs : List ℕ} {bs : Bytes} (hm : Holding st.mem m' inp' qs bs)
    (hq : Seg st.mem.next st.pool qs none) (he : st.enteredBodyFilter = true)
    (hlog : st.enteredLogPhase = false) :
    Holds (.response (measure { st with mem := m', respChunk := inp' })) bs := by
  refine ⟨hm.ready hq he hlog, hm.holds, ?_⟩
  show ((chainLen (m'.bufs inp')).1 : ℤ) = bs.length
  rw [chainLen_whole hm.whole, hm.holds]

/-- A chunk that is discarded holds nothing. -/
theorem dropEmpty_holds {st : Rctx} {bs : Bytes} (h : Holds (.response st) bs) :
    Holds (.response (dropEmpty st)) bs := by
  unfold dropEmpty
  by_cases hlen : st.respChunkLen = 0
  · obtain ⟨hentered, hlog, xs, qs, fs, ps, hl, -, hq⟩ := h.ready
    have hbs : bs = [] := by
      have hz : (st.respChunkLen : ℤ) = bs.length := h.len
      exact List.length_eq_zero_iff.mp (by omega)
    rw [if_neg (not_not.mpr hlen), if_pos hentered]
    have hqs : qs.Nodup := seg_nodup hq
    refine ⟨⟨hentered, hlog, [], qs, fs, ps,
      Lists.sub hl (List.subset_append_right xs qs) hqs, rfl, hq⟩, ?_, h.len⟩
    show content (st.mem.bufs none) = bs
    rw [bufs_none, hbs]
    rfl
  · rw [if_pos hlen]
    exact h

theorem appendChunk_holds {st : Rctx} (h : Ready (.response st)) {offset : ℕ}
    (hc : Cuttable offset st.chunk) (hw : Walkable tag offset st.chunk) :
    (appendChunk st str offset tag granted).2 = .ok ∧
      Holds (.response (appendChunk st str offset tag granted).1)
        ((content st.chunk).take offset ++ str) := by
  obtain ⟨hentered, hlog, xs, qs, fs, ps, hl, hs, hq⟩ := h
  have hm := @append_holding _ _ _ str _ _ _ _ _ hl hs hc hw
  have hok : (chainAppend st.mem st.respChunk offset str tag granted).2.2 = .ok :=
    append_granted st.mem st.respChunk offset str tag
  rw [appendChunk, if_pos hok]
  exact ⟨rfl, dropEmpty_holds (measure_holds hm hq hentered hlog)⟩

theorem response_edits {st : Rctx} (h : Ready (.response st)) {c : Call}
    (hb : c.bufType = .httpResponseBody) (he : Edits tag (.response st) c) :
    (setBuffer tag st c).2 = .ok ∧
      Holds (.response (setBuffer tag st c).1) (edited (content st.chunk) c) := by
  obtain ⟨hchunk, halloc, hcond⟩ := he
  simp only [setBuffer, hb, hchunk, halloc]
  by_cases hp : c.prepends
  · rw [if_pos hp] at hcond
    have hsome : st.respChunk ≠ none := by
      intro hn
      have hd : st.respChunk.isNone = false := hcond.1
      rw [hn] at hd
      cases hd
    obtain ⟨hentered, hlog, xs, qs, fs, ps, hl, hs, hq⟩ := h
    obtain ⟨m', i, hr⟩ := prepend_ok st.mem st.respChunk c.data tag
    have hm := prepend_holding hl hs hcond.2 hr
    rw [if_pos hp, edited_prepends hp]
    simp only [prependRespBody, hsome, if_false, hr, if_true]
    exact ⟨trivial, measure_holds hm hq hentered hlog⟩
  · rw [if_neg hp] at hcond
    rw [if_neg hp, edited_appends hp]
    by_cases hn : st.respChunk = none
    · obtain ⟨hok, hready, b, hchunk', hbytes⟩ := newChunk_ready h hn c.data.length
      have hempty : ∀ b ∈ cuts (sizeArg c.offset) (newChunk st c.data.length tag granted).1.chunk,
          b.bytes = [] := by
        rw [hchunk']
        simp [cuts, cut_empty hbytes]
      have hnil : content (newChunk st c.data.length tag granted).1.chunk = [] := by
        rw [hchunk', content_cons, hbytes]
        rfl
      have hcut : Cuttable (sizeArg c.offset) (newChunk st c.data.length tag granted).1.chunk :=
        .inl (hnil ▸ Nat.zero_le _)
      obtain ⟨hres, hholds⟩ := appendChunk_holds hready hcut (Or.inl hempty)
      have hcontent : content (newChunk st c.data.length tag granted).1.chunk = content st.chunk := by
        rw [hnil, Rctx.chunk, hn, bufs_none]
        rfl
      rw [hcontent] at hholds
      simp only [setRespBody, hn, hok, if_true]
      exact ⟨by rw [hres]; rfl, hholds⟩
    · obtain ⟨hres, hholds⟩ := appendChunk_holds h hcond.1 hcond.2
      simp only [setRespBody, hn, if_false]
      exact ⟨by rw [hres]; rfl, hholds⟩

theorem step_edits {s : Side} (h : Ready s) {c : Call} (hb : c.bufType = s.bufType)
    (he : Edits tag s c) :
    (setBufferBytes tag s c).2 = .ok ∧ (setBufferBytes tag s c).1.bufType = s.bufType ∧
      Holds (setBufferBytes tag s c).1 (edited (content s.chunk) c) := by
  cases s with
  | request st =>
    obtain ⟨hok, hholds⟩ := request_edits h hb he
    exact ⟨hok, rfl, hholds⟩
  | response st =>
    obtain ⟨hok, hholds⟩ := response_edits h hb he
    exact ⟨hok, rfl, hholds⟩

/-! ### Calls by the filters of a chain -/

theorem calls_edit (calls : List Call) {s : Side} (h : Ready s)
    (hb : ∀ c ∈ calls, c.bufType = s.bufType)
    (hm : Meets (setBufferBytes tag) (Edits tag) s calls) :
    (∀ r ∈ (exec (setBufferBytes tag) s calls).2, r = .ok) ∧
      content (exec (setBufferBytes tag) s calls).1.chunk = calls.foldl edited (content s.chunk) ∧
      (calls ≠ [] → (exec (setBufferBytes tag) s calls).1.len =
        (content (exec (setBufferBytes tag) s calls).1.chunk).length) := by
  induction calls generalizing s with
  | nil => exact ⟨by simp, rfl, fun hne => absurd rfl hne⟩
  | cons c calls ih =>
    obtain ⟨he, hm⟩ := hm
    obtain ⟨hok, htype, hholds⟩ := step_edits h (hb c (List.mem_cons_self ..)) he
    obtain ⟨hoks, hcontent, hlen⟩ := ih hholds.ready
      (fun d hd => by rw [htype]; exact hb d (List.mem_cons_of_mem _ hd)) hm
    refine ⟨?_, ?_, ?_⟩
    · simp only [exec_cons, List.forall_mem_cons]
      exact ⟨hok, hoks⟩
    · rw [exec_cons, hcontent, hholds.holds, List.foldl_cons]
    · intro _
      cases calls with
      | nil =>
        simp only [exec_cons, exec_nil]
        rw [hholds.len, hholds.holds]
      | cons d calls =>
        rw [exec_cons]
        exact hlen (by simp)

/-- Every call is answered, leaves the content it is to leave and records its length. -/
theorem filters_edit_one_body (tag : ℕ) (s : Side) (calls : List Call) (h : Ready s)
    (hb : ∀ c ∈ calls, c.bufType = s.bufType)
    (hm : Meets (setBufferBytes tag) (Edits tag) s calls) (n : ℕ) :
    let t := exec (setBufferBytes tag) s (calls.take n)
    (∀ r ∈ t.2, r = .ok) ∧ content t.1.chunk = (calls.take n).foldl edited (content s.chunk) ∧
      (calls.take n ≠ [] → t.1.len = (content t.1.chunk).length) := by
  rw [← List.take_append_drop n calls] at hm
  have hinit := ((meets_append _ _ _ _ _).mp hm).1
  exact calls_edit (calls.take n) h (fun c hc => hb c (List.mem_of_mem_take hc)) hinit

/-- The chunk `ab` in the body filter. -/
def enteredChunk : Side := .response (enter true RespEof.finalChunk (some 0))

def prepended (data : Bytes) : Call := ⟨.httpResponseBody, 0, 0, data, granted, granted⟩

theorem enteredChunk_ready : Ready enteredChunk := by
  have hlt : ∀ x ∈ [0], x < 1 := by decide
  exact ⟨rfl, rfl, [0], [], [], [], ⟨rfl, rfl, by decide, hlt⟩, ⟨rfl, rfl⟩, rfl⟩

/-- `ab` becomes `cab`, then `c`. -/
def twoEdits : List Call := [prepended [99], ⟨.httpResponseBody, 1, 1, [], granted, granted⟩]

theorem filters_edit_one_body_twice :
    let t := exec (setBufferBytes 1) enteredChunk (twoEdits.take 2)
    (∀ r ∈ t.2, r = .ok) ∧
      content t.1.chunk = (twoEdits.take 2).foldl edited (content enteredChunk.chunk) ∧
      (twoEdits.take 2 ≠ [] → t.1.len = (content t.1.chunk).length) :=
  filters_edit_one_body 1 enteredChunk twoEdits enteredChunk_ready (by decide)
    ⟨⟨rfl, rfl, by decide⟩, ⟨rfl, rfl, by decide⟩, trivial⟩ 2

/-- A filter empties the chunk; the one that prepends to it then is refused. -/
theorem prepend_to_emptied_chunk_fails :
    Ready enteredChunk ∧
      (exec (setBufferBytes 1) enteredChunk [RespEof.replaced [], prepended [99]]).2 =
        [.ok, .internalFailure] ∧
      content (exec (setBufferBytes 1) enteredChunk
        [RespEof.replaced [], prepended [99]]).1.chunk = [] ∧
      [RespEof.replaced [], prepended [99]].foldl edited (content enteredChunk.chunk) = [99] :=
  ⟨enteredChunk_ready, by decide, by decide, by decide⟩

end NgxWasm.Http.SetBuffer
