import NgxWasm.Socket.ReadBody

/-!
# A call of the reader, and what is received between two

A call serves the phase the reader stands for. To receive more leaves the phase as it
is: the chunks of the body lie in front of what is appended, or in other buffers.
-/

namespace NgxWasm.Socket.ReadResponse

open NgxWasm NgxWasm.Lib.Parsers NgxWasm.Socket.HttpReader NgxWasm.Socket.Message
open NgxWasm.Socket.Reading NgxWasm.Socket.ReaderState NgxWasm.Socket.ReadLines
open NgxWasm.Socket.LargeBuffer NgxWasm.Socket.ReadBody

variable {σ κ : Type} {ng : Nginx σ κ} {conf : Conf}

/-! ### `ngx_wasm_read_http_response` -/

/-- The start of the response is where the reader begins. -/
def started (s : Sock) (c : Ctx σ κ) : Ctx σ κ :=
  if c.requestStart.isNone then { c with requestStart := some s.here } else c

theorem started_ne_none (s : Sock) (c : Ctx σ κ) : (started s c).requestStart ≠ none := by
  unfold started
  by_cases hnone : c.requestStart.isNone = true
  · rw [if_pos hnone]
    exact Option.some_ne_none _
  · rw [if_neg hnone]
    simpa using hnone

theorem started_strays (s : Sock) (c : Ctx σ κ) :
    StraysAt ng s (started s c) ↔ StraysAt ng s c := by
  unfold started
  by_cases hnone : c.requestStart.isNone = true
  · rw [if_pos hnone]
    have hc : c.requestStart = none := Option.isNone_iff_eq_none.mp hnone
    constructor
    · rintro ⟨-, -, -, -, old, hold, hne⟩
      cases hold
      exact absurd rfl hne
    · rintro ⟨-, -, -, -, old, hold, -⟩
      rw [hc] at hold
      cases hold
  · rw [if_neg hnone]

theorem Stands.start {s : Sock} {c : Ctx σ κ} {phase : Phase σ κ} {line : Bytes}
    (hs : Buffered s) (h : Stands ng s c phase line) : Stands ng s (started s c) phase line := by
  unfold started
  by_cases hnone : c.requestStart.isNone = true
  · rw [if_pos hnone]
    have hc : c.requestStart = none := Option.isNone_iff_eq_none.mp hnone
    cases h with
    | status h =>
      refine .status ⟨h.head, noBody_of h.noBody rfl rfl rfl rfl rfl rfl, h.first, h.fresh, h.waits,
        h.asked, h.text, fun _ => Option.some_ne_none _, ?_⟩
      intro o ho
      cases ho
      have hnil : line = [] := by
        by_contra hne
        exact h.started hne hc
      refine ⟨hs.id_lt, fun _ => ⟨Int.natCast_nonneg _, ?_⟩⟩
      rw [hnil]
      exact Int.le_refl _
    | headers h =>
      obtain ⟨m, dropped, kept, hn⟩ := h.named
      exact .headers ⟨h.head_eq, h.code, noBody_of h.noBody rfl rfl rfl rfl rfl rfl, h.exclusive,
        h.first, h.asked, m, dropped, kept, hn.waits, hn.points, hn.split, hn.text, hn.name⟩
    | unsized h hcl hpos hlen hrest hlast =>
      exact .unsized ⟨h.headerDone, h.head_eq, h.code, h.exclusive, h.content, h.kept, h.body⟩ hcl
        hpos hlen hrest hlast
    | sized h hcl hpos hlen hrest hlast =>
      exact .sized ⟨h.headerDone, h.head_eq, h.code, h.exclusive, h.content, h.kept, h.body⟩ hcl
        hpos hlen hrest hlast
    | chunks h hchunked hlen hrest =>
      exact .chunks (c := { c with requestStart := some s.here })
        ⟨h.headerDone, h.head_eq, h.code, h.exclusive, h.content, h.kept, h.body⟩ hchunked hlen
        hrest
    | chunk h hchunked hpos hlen hrest hlast =>
      exact .chunk (c := { c with requestStart := some s.here })
        ⟨h.headerDone, h.head_eq, h.code, h.exclusive, h.content, h.kept, h.body⟩ hchunked hpos
        hlen hrest hlast
    | unframed h hchunked hcl hlen =>
      exact .unframed ⟨h.headerDone, h.head_eq, h.code, h.exclusive, h.content, h.kept, h.body⟩
        hchunked hcl hlen
  · rw [if_neg hnone]
    exact h

theorem readHttpResponse_eq (s : Sock) (c : Ctx σ κ) (bytes : ℕ) :
    readHttpResponse ng conf s c bytes =
      if (started s c).headerDone then readBody ng s (started s c)
      else if (started s c).statusCode = 0 then readStatusLine ng conf s (started s c)
      else
        match readHeaderLines ng conf bytes (s.unread.length + 1) s (started s c) with
        | (s, c, some answer) => (s, c, answer)
        | (s, c, none) => readBody ng s c := rfl

/-- A call with bytes to parse. -/
theorem readHttpResponse_served (conf : Conf) (lawful : Lawful ng) {s : Sock} {c : Ctx σ κ} {phase : Phase σ κ}
    {line : Bytes} (h : Ready ng s c phase line) (hu : s.unread ≠ []) (w : Bytes) :
    (¬ StraysAt ng s c → Served ng phase (line ++ s.unread ++ w) s.unread.length w
        (readHttpResponse ng conf s c s.unread.length)) ∧
      (StraysAt ng s c → (readHttpResponse ng conf s c s.unread.length).2.2 = .stray) := by
  have hpos : 0 < s.unread.length := List.length_pos_iff.mpr hu
  have hstands := Stands.start h.buffered h.stands
  rw [← started_strays, readHttpResponse_eq]
  by_cases hdone : (started s c).headerDone = true
  · rw [if_pos hdone]
    refine ⟨fun _ => readBody_served lawful h.buffered hstands hdone hu hpos w, ?_⟩
    rintro ⟨hfalse, -⟩
    rw [hdone] at hfalse
    cases hfalse
  · rw [if_neg hdone]
    cases hstands with
    | status hat =>
      have hcode : (started s c).statusCode = 0 := congrArg Message.Head.code hat.head
      rw [if_pos hcode]
      exact readStatusLine_served lawful h.buffered hat (started_ne_none s c) hu w
    | @headers p head _ hat =>
      have hcode : (started s c).statusCode ≠ 0 := by
        have heq := congrArg Message.Head.code hat.head_eq
        intro hzero
        exact hat.code (heq.symm.trans hzero)
      rw [if_neg hcode]
      refine ⟨fun _ => ?_, fun hst => absurd hst.2.1 hcode⟩
      have hbytes : s.unread.length ≤ s.data.length := by
        rw [unread_length]
        omega
      have hlines : LinesServed ng (.headers p head) (line ++ s.unread ++ w) s.unread.length w
          (readHeaderLines ng conf s.unread.length (s.unread.length + 1) s (started s c)) :=
        readHeaderLines_served lawful w s.unread.length _ hpos (s.unread.length + 1) s _ p head
          line h.buffered hat (Nat.lt_succ_self _) (Nat.le_refl _) hbytes
      revert hlines
      obtain ⟨s', c', a⟩ := readHeaderLines ng conf s.unread.length (s.unread.length + 1) s
        (started s c)
      intro hlines
      cases a with
      | some answer => exact hlines
      | none =>
        obtain ⟨head, hat', hs', hu', hlt, hleads⟩ := hlines
        exact hleads.served (Nat.le_refl _) (AtBody.served lawful hs' hat' hu' hpos w)
    | unsized hin => exact absurd hin.headerDone hdone
    | sized hin => exact absurd hin.headerDone hdone
    | chunks hin => exact absurd hin.headerDone hdone
    | chunk hin => exact absurd hin.headerDone hdone
    | unframed hin => exact absurd hin.headerDone hdone

/-! ### The reader does not touch `eof` -/

theorem allocLargeBuffer_eof (s : Sock) (c : Ctx σ κ) :
    (allocLargeBuffer ng conf s c).1.eof = s.eof := by
  unfold allocLargeBuffer
  repeat' split
  all_goals rfl

theorem askMore_eof (s : Sock) (c : Ctx σ κ) : (askMore ng conf s c).1.eof = s.eof := by
  have halloc : (allocLargeBuffer ng conf s c).1.eof = s.eof := allocLargeBuffer_eof s c
  unfold askMore
  split
  · split
    · next h => rw [h] at halloc; exact halloc
    · exact halloc
  · rfl

theorem readStatusLine_eof (s : Sock) (c : Ctx σ κ) :
    (readStatusLine ng conf s c).1.eof = s.eof := by
  unfold readStatusLine
  dsimp only
  split
  · rfl
  · exact askMore_eof _ _
  · split <;> rfl

theorem readHeaderLines_eof (bytes fuel : ℕ) : ∀ (s : Sock) (c : Ctx σ κ),
    (readHeaderLines ng conf bytes fuel s c).1.eof = s.eof := by
  induction fuel with
  | zero =>
    intro s c
    rfl
  | succ fuel ih =>
    intro s c
    unfold readHeaderLines
    dsimp only
    split
    · rfl
    · exact askMore_eof _ _
    · split <;> rfl
    · split
      · split
        · exact ih _ _
        · rfl
      · rfl

theorem readChunks_eof (fuel : ℕ) : ∀ (s : Sock) (c : Ctx σ κ),
    (readChunks ng fuel s c).1.eof = s.eof := by
  have hhead : ∀ (s : Sock) (c : Ctx σ κ), (readChunkHead ng s c).1.eof = s.eof := by
    intro s c
    unfold readChunkHead
    dsimp only
    split
    · split <;> rfl
    · split <;> rfl
  have hchunk : ∀ (s : Sock) (c : Ctx σ κ), (readChunk s c).1.eof = s.eof := by
    intro s c
    unfold readChunk readBytes
    split
    · rfl
    · split <;> rfl
  induction fuel with
  | zero =>
    intro s c
    rfl
  | succ fuel ih =>
    intro s c
    have h1 := hhead s c
    unfold readChunks
    split
    · next h => rw [h] at h1; exact h1
    · next h => rw [h] at h1; exact h1
    · next s' c' h =>
      rw [h] at h1
      have h2 := hchunk s' c'
      split
      · next h' =>
        rw [h'] at h2
        exact (ih _ _).trans (h2.trans h1)
      · next h' =>
        rw [h'] at h2
        exact h2.trans h1

theorem readBody_eof (s : Sock) (c : Ctx σ κ) : (readBody ng s c).1.eof = s.eof := by
  have hcopy : ∀ (s : Sock) (c : Ctx σ κ), (copyBody s c).1.eof = s.eof := by
    intro s c
    unfold copyBody
    split
    · rfl
    · split <;> rfl
  have hchunks : (readChunks ng (s.unread.length + 1) s c).1.eof = s.eof :=
    readChunks_eof _ s c
  unfold readBody
  split
  · split
    · next h => rw [h] at hchunks; exact hchunks
    · next h =>
      rw [h] at hchunks
      exact (hcopy _ _).trans hchunks
  · exact hcopy s c

theorem readHttpResponse_eof (s : Sock) (c : Ctx σ κ) (bytes : ℕ) :
    (readHttpResponse ng conf s c bytes).1.eof = s.eof := by
  have hlines : (readHeaderLines ng conf bytes (s.unread.length + 1) s (started s c)).1.eof =
      s.eof := readHeaderLines_eof bytes _ s _
  rw [readHttpResponse_eq]
  split
  · exact readBody_eof _ _
  · split
    · exact readStatusLine_eof _ _
    · split
      · next h => rw [h] at hlines; exact hlines
      · next h =>
        rw [h] at hlines
        exact (readBody_eof _ _).trans hlines

/-! ### Receiving -/

theorem span_mono {mem mem' : ℕ → Bytes} {a b : Ptr} {piece : Bytes}
    (hmem : mem a.buf <+: mem' a.buf) (h : span mem (some a) (some b) = some piece) :
    span mem' (some a) (some b) = some piece := by
  obtain ⟨more, hmore⟩ := hmem
  have hlen := congrArg List.length hmore
  rw [List.length_append] at hlen
  simp only [span] at h ⊢
  by_cases hcond : a.buf = b.buf ∧ 0 ≤ a.off ∧ a.off ≤ b.off ∧ b.off ≤ (mem a.buf).length
  · rw [if_pos hcond] at h
    obtain ⟨hbuf, h0, hle, hend⟩ := hcond
    have hcond' : a.buf = b.buf ∧ 0 ≤ a.off ∧ a.off ≤ b.off ∧ b.off ≤ (mem' a.buf).length :=
      ⟨hbuf, h0, hle, by omega⟩
    rw [if_pos hcond', ← h, ← hmore, List.drop_append_of_le_length (by omega),
      List.take_append_of_le_length]
    rw [List.length_drop]
    omega
  · rw [if_neg hcond] at h
    cases h

theorem copyChunks_mono {mem mem' : ℕ → Bytes} {n : ℕ} (hmem : ∀ i < n, mem i <+: mem' i) :
    ∀ {chunks : List (Ptr × Ptr)} {body : Bytes}, (∀ chunk ∈ chunks, chunk.1.buf < n) →
      copyChunks mem chunks = some body → copyChunks mem' chunks = some body := by
  intro chunks
  induction chunks with
  | nil =>
    intro body _ h
    exact h
  | cons chunk chunks ih =>
    intro body hkept h
    obtain ⟨a, b⟩ := chunk
    have hbuf : a.buf < n := hkept (a, b) List.mem_cons_self
    simp only [copyChunks] at h ⊢
    cases hspan : span mem (some a) (some b) with
    | none => simp [hspan] at h
    | some xs =>
      cases hrest : copyChunks mem chunks with
      | none => simp [hspan, hrest] at h
      | some ys =>
        rw [hspan, hrest] at h
        rw [span_mono (hmem a.buf hbuf) hspan,
          ih (fun chunk hchunk => hkept chunk (List.mem_cons_of_mem _ hchunk)) hrest]
        exact h

/-- What is written behind the chunks leaves the body. -/
theorem InBody.frame {s s' : Sock} {c : Ctx σ κ} {head : Message.Head} {body : Bytes}
    (h : InBody s c head body) (hmem : ∀ i < s.nextBuf, s.mem i <+: s'.mem i)
    (hnext : s.nextBuf ≤ s'.nextBuf) : InBody s' c head body where
  headerDone := h.headerDone
  head_eq := h.head_eq
  code := h.code
  exclusive := h.exclusive
  content := copyChunks_mono hmem h.kept h.content
  kept := fun chunk hchunk => Nat.lt_of_lt_of_le (h.kept chunk hchunk) hnext
  body := h.body

/-- A new buffer while no line has begun. -/
theorem Stands.newBuffer {s : Sock} {c : Ctx σ κ} {phase : Phase σ κ} (size : ℕ)
    (h : Stands ng s c phase []) :
    Stands ng { s.store s.nextBuf [] with
      nextBuf := s.nextBuf + 1
      buffer := ⟨s.nextBuf, 0, size⟩
      inLast := ⟨s.nextBuf, 0⟩ } c phase [] := by
  have hmem : ∀ i < s.nextBuf, s.mem i <+: (s.store s.nextBuf []).mem i := by
    intro i hi
    simp [Sock.store, Nat.ne_of_lt hi]
  have hnext := Nat.le_succ s.nextBuf
  cases h with
  | status h =>
    refine .status ⟨h.head, h.noBody, h.first, h.fresh, ⟨fun _ => none, ?_, ?_⟩, h.asked,
      List.nil_suffix, h.started, ?_⟩
    · rw [h.fresh rfl]
      exact waits_nil _ _
    · intro i a ha
      cases ha
    · intro o ho
      obtain ⟨hlt, -⟩ := h.start o ho
      exact ⟨Nat.lt_succ_of_lt hlt, fun hbuf => absurd hbuf (Nat.ne_of_lt hlt)⟩
  | headers h =>
    have hr : c.r = _ := (h.asked.resolve_right fun hne => hne.1 rfl).2
    exact .headers ⟨h.head_eq, h.code, h.noBody, h.exclusive, h.first, h.asked, fun _ => none, [],
      [], named_nil hr h.first⟩
  | unsized h hcl hpos hlen hrest hlast =>
    exact .unsized (InBody.frame h hmem hnext) hcl hpos hlen hrest rfl
  | sized h hcl hpos hlen hrest hlast =>
    exact .sized (InBody.frame h hmem hnext) hcl hpos hlen hrest rfl
  | chunks h hchunked hlen hrest =>
    exact .chunks (InBody.frame h hmem hnext) hchunked hlen hrest
  | chunk h hchunked hpos hlen hrest hlast =>
    exact .chunk (InBody.frame h hmem hnext) hchunked hpos hlen hrest rfl
  | unframed h hchunked hcl hlen => exact .unframed (InBody.frame h hmem hnext) hchunked hcl hlen

/-- Bytes that are appended to the buffer. -/
theorem Stands.receive {s : Sock} {c : Ctx σ κ} {phase : Phase σ κ} {line : Bytes}
    (hs : Buffered s) (got : Bytes) (h : Stands ng s c phase line) :
    Stands ng (s.store s.buffer.id (s.data ++ got)) c phase line := by
  have hmem : ∀ i < s.nextBuf, s.mem i <+: (s.store s.buffer.id (s.data ++ got)).mem i := by
    intro i _
    by_cases hi : i = s.buffer.id
    · simp [Sock.store, hi, Sock.data]
    · simp [Sock.store, hi]
  have htake : (s.store s.buffer.id (s.data ++ got)).data.take s.buffer.pos =
      s.data.take s.buffer.pos := by
    have hdata : (s.store s.buffer.id (s.data ++ got)).data = s.data ++ got := data_store s _
    rw [hdata, List.take_append_of_le_length hs.pos_le]
  have hnext := Nat.le_refl s.nextBuf
  cases h with
  | status h =>
    refine .status ⟨h.head, h.noBody, h.first, h.fresh, h.waits, h.asked, ?_, h.started, h.start⟩
    exact htake ▸ h.text
  | headers h =>
    obtain ⟨m, dropped, kept, hn⟩ := h.named
    exact .headers ⟨h.head_eq, h.code, h.noBody, h.exclusive, h.first, h.asked, m, dropped, kept,
      hn.waits, hn.points, hn.split, htake ▸ hn.text, hn.name⟩
  | unsized h hcl hpos hlen hrest hlast =>
    exact .unsized (InBody.frame h hmem hnext) hcl hpos hlen hrest hlast
  | sized h hcl hpos hlen hrest hlast =>
    exact .sized (InBody.frame h hmem hnext) hcl hpos hlen hrest hlast
  | chunks h hchunked hlen hrest =>
    exact .chunks (InBody.frame h hmem hnext) hchunked hlen hrest
  | chunk h hchunked hpos hlen hrest hlast =>
    exact .chunk (InBody.frame h hmem hnext) hchunked hpos hlen hrest hlast
  | unframed h hchunked hcl hlen => exact .unframed (InBody.frame h hmem hnext) hchunked hcl hlen

/-- The end of file does not move the reader. -/
theorem Stands.atEof {s : Sock} {c : Ctx σ κ} {phase : Phase σ κ} {line : Bytes} (eof : Bool)
    (h : Stands ng s c phase line) : Stands ng { s with eof } c phase line := by
  have hmem : ∀ i < s.nextBuf, s.mem i <+: s.mem i := fun i _ => List.prefix_refl _
  have hnext := Nat.le_refl s.nextBuf
  cases h with
  | status h =>
    exact .status ⟨h.head, h.noBody, h.first, h.fresh, h.waits, h.asked, h.text, h.started, h.start⟩
  | headers h =>
    obtain ⟨m, dropped, kept, hn⟩ := h.named
    exact .headers ⟨h.head_eq, h.code, h.noBody, h.exclusive, h.first, h.asked, m, dropped, kept,
      hn.waits, hn.points, hn.split, hn.text, hn.name⟩
  | unsized h hcl hpos hlen hrest hlast =>
    exact .unsized (InBody.frame h hmem hnext) hcl hpos hlen hrest hlast
  | sized h hcl hpos hlen hrest hlast =>
    exact .sized (InBody.frame h hmem hnext) hcl hpos hlen hrest hlast
  | chunks h hchunked hlen hrest =>
    exact .chunks (InBody.frame h hmem hnext) hchunked hlen hrest
  | chunk h hchunked hpos hlen hrest hlast =>
    exact .chunk (InBody.frame h hmem hnext) hchunked hpos hlen hrest hlast
  | unframed h hchunked hcl hlen => exact .unframed (InBody.frame h hmem hnext) hchunked hcl hlen

theorem makeRoom_eof (s : Sock) : (makeRoom conf s).eof = s.eof := by
  unfold makeRoom
  split <;> rfl

theorem makeRoom_ready (conf : Conf) {s : Sock} {c : Ctx σ κ} {phase : Phase σ κ} {line : Bytes}
    (h : Ready ng s c phase line) (hu : s.unread = []) :
    Ready ng (makeRoom conf s) c phase line ∧ (makeRoom conf s).unread = [] := by
  unfold makeRoom
  by_cases hfull : s.full = true
  · have hnil : line = [] := by
      by_contra hne
      rw [h.room hne hu] at hfull
      cases hfull
    subst hnil
    rw [if_pos hfull]
    refine ⟨⟨Stands.newBuffer _ h.stands, ⟨?_, ?_, Nat.lt_succ_self _⟩, ?_⟩, ?_⟩
    · simp
    · simp [Sock.data, Sock.store]
    · intro hne
      exact absurd rfl hne
    · simp [Sock.unread, Sock.data, Sock.store]
  · rw [if_neg hfull]
    exact ⟨h, hu⟩

/-- A buffer that was made has room. -/
theorem makeRoom_avail (hsize : 0 < conf.bufferSize) {s : Sock} (hs : Buffered s) :
    (makeRoom conf s).data.length < (makeRoom conf s).buffer.size := by
  unfold makeRoom
  by_cases hfull : s.full = true
  · rw [if_pos hfull]
    simp [Sock.data, Sock.store, hsize]
  · rw [if_neg hfull]
    have hle := hs.len_le
    simp only [Sock.full, beq_iff_eq] at hfull
    omega

theorem receive_ready {s : Sock} {c : Ctx σ κ} {phase : Phase σ κ} {line got : Bytes}
    (h : Ready ng s c phase line) (hu : s.unread = []) (hgot : got ≠ [])
    (hroom : s.data.length + got.length ≤ s.buffer.size) :
    Ready ng (s.store s.buffer.id (s.data ++ got)) c phase line ∧
      (s.store s.buffer.id (s.data ++ got)).unread = got := by
  have hdata : (s.store s.buffer.id (s.data ++ got)).data = s.data ++ got := data_store s _
  have hpos := h.buffered.pos_le
  have hunread : (s.store s.buffer.id (s.data ++ got)).unread = got := by
    have hend : s.data.drop s.buffer.pos = [] := hu
    have heq : (s.data ++ got).drop s.buffer.pos = got := by
      rw [List.drop_append_of_le_length hpos, hend, List.nil_append]
    rw [Sock.unread, hdata]
    exact heq
  refine ⟨⟨Stands.receive h.buffered got h.stands, ⟨?_, ?_, h.buffered.id_lt⟩, ?_⟩, hunread⟩
  · rw [hdata, List.length_append]
    exact Nat.le_add_right_of_le hpos
  · rw [hdata, List.length_append]
    exact hroom
  · intro _ hnil
    rw [hunread] at hnil
    exact absurd hnil hgot

/-- At the end of the stream the message is short, or it lasts to the end. -/
theorem Stands.ends (lawful : Lawful ng) {s : Sock} {c : Ctx σ κ} {phase : Phase σ κ}
    {line : Bytes} (h : Stands ng s c phase line) :
    ∃ report, Reads ng phase line report ∧ Delivered .ok c report := by
  cases h with
  | status h =>
    obtain ⟨m, hwaits, -⟩ := h.waits
    refine ⟨_, .status_short ?_, h.head, h.noBody.body⟩
    have hnil := hwaits []
    rw [List.append_nil] at hnil
    rw [hnil]
    exact lawful.status.nil c.r
  | headers h =>
    obtain ⟨m, dropped, kept, hn⟩ := h.named
    refine ⟨_, .header_short ?_, h.head_eq, h.noBody.body⟩
    have hnil := hn.waits []
    rw [List.append_nil] at hnil
    rw [hnil]
    exact lawful.header.nil c.r
  | unsized h hcl hpos => exact ⟨_, .sized_short hpos, h.head_eq, h.body⟩
  | sized h hcl hpos => exact ⟨_, .sized_short hpos, h.head_eq, h.body⟩
  | chunks h => exact ⟨_, .chunks_short (lawful.chunk.nil c.chunked), h.head_eq, h.body⟩
  | chunk h hchunked hpos => exact ⟨_, .chunk_short hpos, h.head_eq, h.body⟩
  | unframed h hchunked hcl hlen => exact ⟨_, .unframed, h.head_eq, h.body, hlen⟩

end NgxWasm.Socket.ReadResponse
