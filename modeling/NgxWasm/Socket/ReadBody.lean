import NgxWasm.Socket.ReadLines

/-!
# The body

The chunks of the body are pairs of pointers into the buffers; they are copied when the
content length is reached or the last chunk is.
-/

namespace NgxWasm.Socket.ReadBody

open NgxWasm NgxWasm.Lib.Parsers NgxWasm.Socket.HttpReader NgxWasm.Socket.Message
open NgxWasm.Socket.Reading NgxWasm.Socket.ReaderState NgxWasm.Socket.ReadLines

variable {σ κ : Type} {ng : Nginx σ κ}

theorem copyChunks_snoc {mem : ℕ → Bytes} {a b : Ptr} {piece : Bytes}
    (hpiece : span mem (some a) (some b) = some piece) : ∀ {chunks : List (Ptr × Ptr)} {body : Bytes},
      copyChunks mem chunks = some body →
        copyChunks mem (chunks ++ [(a, b)]) = some (body ++ piece) := by
  intro chunks
  induction chunks with
  | nil =>
    intro body h
    cases h
    simp [copyChunks, hpiece]
  | cons chunk chunks ih =>
    intro body h
    obtain ⟨x, y⟩ := chunk
    simp only [copyChunks] at h
    cases hspan : span mem (some x) (some y) with
    | none => simp [hspan] at h
    | some xs =>
      cases hrest : copyChunks mem chunks with
      | none => simp [hspan, hrest] at h
      | some ys =>
        simp only [hspan, hrest, Option.some.injEq] at h
        rw [← h, List.append_assoc]
        simp only [List.cons_append, copyChunks, hspan, ih hrest]

/-- The bytes behind `pos`. -/
theorem span_unread {s : Sock} (hs : Buffered s) {n : ℕ} (hn : n ≤ s.unread.length) :
    span s.mem (some s.here) (some ⟨s.buffer.id, s.buffer.pos + n⟩) = some (s.unread.take n) := by
  have hlen : (n : ℤ) ≤ (([] : Bytes) ++ s.unread).length := by simpa using hn
  have hspan := span_line (List.nil_append ([] : Bytes)).symm List.nil_suffix hs.pos_le
    (Int.le_refl 0) (Int.natCast_nonneg n) hlen
  simpa [Sock.here, between] using hspan

theorem InBody.consume {s : Sock} {c : Ctx σ κ} {head : Message.Head} {body : Bytes}
    (h : InBody s c head body) (n : ℕ) : InBody (s.consume n) c head body :=
  ⟨h.headerDone, h.head_eq, h.code, h.exclusive, h.content, h.kept, h.body⟩

/-- A chunk of what was unread. -/
theorem InBody.snoc {s : Sock} (s' : Sock) {c : Ctx σ κ} {head : Message.Head} {body : Bytes}
    {n : ℕ} (rest : ℕ) (h : InBody s c head body) (hs : Buffered s) (hn : n ≤ s.unread.length)
    (hmem : s'.mem = s.mem) (hnext : s'.nextBuf = s.nextBuf)
    (hlast : s'.inLast = ⟨s.buffer.id, s.buffer.pos + n⟩) :
    InBody s' { c with rest := rest, chunks := c.chunks ++ [(s.here, s'.inLast)] } head
      (body ++ s.unread.take n) where
  headerDone := h.headerDone
  head_eq := h.head_eq
  code := h.code
  exclusive := h.exclusive
  content := by
    rw [hmem, hlast]
    exact copyChunks_snoc (span_unread hs hn) h.content
  kept := by
    intro chunk hchunk
    rw [hnext]
    rcases List.mem_append.mp hchunk with hold | hnew
    · exact h.kept chunk hold
    · rw [List.mem_singleton.mp hnew]
      exact hs.id_lt
  body := h.body

/-- The part of a chunk that is in the buffer, or all of it. -/
theorem readChunk_spec {s : Sock} {c : Ctx σ κ} {head : Message.Head} {body : Bytes} {missing : ℕ}
    (hs : Buffered s) (h : InBody s c head body) (hrest : c.rest = missing)
    (hlast : s.inLast = s.here) (hu : s.unread ≠ []) :
    (missing ≤ s.unread.length ∧ ∃ chunks,
        readChunk s c = (s.consume missing, { c with rest := 0, chunks }, .ok) ∧
        InBody (s.consume missing) { c with rest := 0, chunks } head
          (body ++ s.unread.take missing)) ∨
      s.unread.length < missing ∧ ∃ s' chunks,
        readChunk s c =
          (s', { c with rest := missing - s.unread.length, chunks }, .again) ∧
        Buffered s' ∧ s'.unread = [] ∧ s'.inLast = s'.here ∧
        InBody s' { c with rest := missing - s.unread.length, chunks } head (body ++ s.unread) := by
  have hlen : s.unread.length ≠ 0 := by
    intro hzero
    exact hu (List.length_eq_zero_iff.mp hzero)
  unfold readChunk readBytes
  rw [hrest, if_neg hlen]
  by_cases hle : missing ≤ s.unread.length
  · rw [if_pos hle]
    refine .inl ⟨hle, _, rfl, ?_⟩
    apply InBody.snoc (s.consume missing) 0 h hs hle rfl rfl
    simp [Sock.consume, Sock.here, Sock.advance]
  · rw [if_neg hle]
    refine .inr ⟨Nat.lt_of_not_le hle, _, _, rfl, ?_, ?_, ?_, ?_⟩
    · exact ⟨(hs.advance (Nat.le_refl _)).pos_le, hs.len_le, hs.id_lt⟩
    · have := unread_advance s s.unread.length
      rw [List.drop_length] at this
      exact this
    · simp [Sock.here, Sock.advance, hlast]
    · have hsnoc := InBody.snoc { s.advance s.unread.length with
          inLast := { s.inLast with off := s.inLast.off + s.unread.length } }
        (missing - s.unread.length) h hs (Nat.le_refl _) rfl rfl (by simp [Sock.here, hlast])
      rw [List.take_length] at hsnoc
      exact hsnoc

/-- The loop over the chunks answers, or the body is complete. -/
def ChunksServed (ng : Nginx σ κ) (phase : Phase σ κ) (bs : Bytes) (n : ℕ) (w : Bytes)
    (r : Sock × Ctx σ κ × Option Answer) : Prop :=
  match r.2.2 with
  | some answer => Served ng phase bs n w (r.1, r.2.1, answer)
  | none => ∃ head body, InBody r.1 r.2.1 head body ∧ r.2.1.bodyLen = body.length ∧
      Reads ng phase bs ⟨.whole, head, body⟩

theorem Leads.chunks {phase phase' : Phase σ κ} {bs bs' w : Bytes} {n : ℕ}
    (hleads : Leads ng phase bs phase' bs') {r : Sock × Ctx σ κ × Option Answer}
    (h : ChunksServed ng phase' bs' n w r) : ChunksServed ng phase bs n w r := by
  obtain ⟨s, c, a⟩ := r
  cases a with
  | some answer => exact ReadLines.Leads.served hleads (Nat.le_refl n) h
  | none =>
    obtain ⟨head, body, hin, hlen, hreads⟩ := h
    exact ⟨head, body, hin, hlen, hleads _ hreads⟩

/-- What follows a chunk. -/
def afterChunk (ng : Nginx σ κ) (fuel : ℕ) :
    Sock × Ctx σ κ × Answer → Sock × Ctx σ κ × Option Answer
  | (s, c, .ok) => readChunks ng fuel s { c with chunked := ng.clearSize c.chunked }
  | (s, c, answer) => (s, c, some answer)

/-- The next chunk of the body, with the loop that follows it. -/
theorem chunk_served {fuel n : ℕ} {w : Bytes} {s : Sock} {c : Ctx σ κ} {head : Message.Head}
    {body : Bytes} {missing : ℕ} (hs : Buffered s) (h : InBody s c head body)
    (hchunked : head.lengths.chunked = true) (hpos : 0 < missing)
    (hlen : c.bodyLen = body.length + missing) (hrest : c.rest = missing)
    (hlast : s.inLast = s.here) (hu : s.unread ≠ []) (hn : 0 < n)
    (next : ∀ s' c', Buffered s' → InBody s' c' head (body ++ s.unread.take missing) →
      c'.bodyLen = (body ++ s.unread.take missing).length → c'.rest = 0 →
        s'.unread.length < s.unread.length →
          ChunksServed ng (.chunks head c'.chunked (body ++ s.unread.take missing))
            (s'.unread ++ w) n w (readChunks ng fuel s' c')) :
    ChunksServed ng (.chunk head c.chunked missing body) (s.unread ++ w) n w
      (afterChunk ng fuel (readChunk s c)) := by
  rcases readChunk_spec hs h hrest hlast hu with
    ⟨hle, chunks, hread, hin⟩ | ⟨hlt, s', chunks, hread, hs', hunread, hlast', hin⟩
  · rw [hread]
    have hleads : Leads ng (.chunk head c.chunked missing body) (s.unread ++ w)
        (.chunks head (ng.clearSize c.chunked) (body ++ s.unread.take missing))
        ((s.consume missing).unread ++ w) := by
      intro report hreport
      have htake : (s.unread ++ w).take missing = s.unread.take missing :=
        List.take_append_of_le_length hle
      have hdrop : (s.unread ++ w).drop missing = (s.consume missing).unread ++ w := by
        rw [List.drop_append_of_le_length hle, unread_consume]
      apply Reads.chunk_whole
      · rw [List.length_append]
        omega
      · rw [htake, hdrop]
        exact hreport
    refine Leads.chunks hleads (next (s.consume missing)
      { c with rest := 0, chunks, chunked := ng.clearSize c.chunked } (hs.consume hle) ?_ ?_ rfl ?_)
    · exact ⟨hin.headerDone, hin.head_eq, hin.code, hin.exclusive, hin.content, hin.kept, hin.body⟩
    · rw [List.length_append, List.length_take, Nat.min_eq_left hle]
      exact hlen
    · rw [unread_consume, List.length_drop]
      omega
  · rw [hread]
    refine ⟨.chunk head c.chunked (missing - s.unread.length) (body ++ s.unread), [],
      ⟨.chunk hin hchunked (Nat.sub_pos_of_lt hlt) ?_ rfl hlast', hs', fun hnil => absurd rfl hnil⟩,
      ?_, ?_⟩
    · have hsum : c.bodyLen = (body ++ s.unread).length + (missing - s.unread.length) := by
        rw [List.length_append]
        omega
      exact hsum
    · have hzero : s'.unread.length < n := by rwa [hunread]
      exact hzero
    · intro report hreport
      have heq : [] ++ s'.unread ++ w = w := by rw [hunread]; rfl
      exact Reads.resume_chunk hlt (heq ▸ hreport)

section
variable {s : Sock} {c : Ctx σ κ} {fuel : ℕ}

/-- One round of the loop. -/
theorem readChunks_succ : readChunks ng (fuel + 1) s c =
    match readChunkHead ng s c with
    | (s, c, .stop answer) => (s, c, some answer)
    | (s, c, .finished) => (s, c, none)
    | (s, c, .data) => afterChunk ng fuel (readChunk s c) := rfl

theorem readChunks_none (hchunked : c.lengths.chunked = true) (hrest : c.rest = 0)
    (hr : (ng.parseChunked c.chunked s.unread).result = none) :
    readChunks ng (fuel + 1) s c = (s.advance (ng.parseChunked c.chunked s.unread).used,
      { c with chunked := (ng.parseChunked c.chunked s.unread).next }, some .again) := by
  simp only [readChunks_succ, readChunkHead, hchunked, hrest, hr, and_self, if_true]

theorem readChunks_error (hchunked : c.lengths.chunked = true) (hrest : c.rest = 0)
    (hr : (ng.parseChunked c.chunked s.unread).result = some .error) :
    readChunks ng (fuel + 1) s c =
      (s, { c with chunked := (ng.parseChunked c.chunked s.unread).next }, some .error) := by
  simp only [readChunks_succ, readChunkHead, hchunked, hrest, hr, and_self, if_true]

theorem readChunks_done (hchunked : c.lengths.chunked = true) (hrest : c.rest = 0)
    (hr : (ng.parseChunked c.chunked s.unread).result = some .done) :
    readChunks ng (fuel + 1) s c = (s.consume (ng.parseChunked c.chunked s.unread).used,
      { c with chunked := (ng.parseChunked c.chunked s.unread).next }, none) := by
  simp only [readChunks_succ, readChunkHead, hchunked, hrest, hr, and_self, if_true]

theorem readChunks_ok (hchunked : c.lengths.chunked = true) (hrest : c.rest = 0)
    (hr : (ng.parseChunked c.chunked s.unread).result = some .ok) :
    readChunks ng (fuel + 1) s c =
      afterChunk ng fuel (readChunk (s.consume (ng.parseChunked c.chunked s.unread).used)
        { c with
          chunked := (ng.parseChunked c.chunked s.unread).next
          bodyLen := c.bodyLen + ng.size (ng.parseChunked c.chunked s.unread).next
          rest := ng.size (ng.parseChunked c.chunked s.unread).next }) := by
  simp only [readChunks_succ, readChunkHead, hchunked, hrest, hr, and_self, if_true]

/-- In the middle of a chunk. -/
theorem readChunks_chunk (hlen : c.lengths.contentLength = none) (hrest : 0 < c.rest) :
    readChunks ng (fuel + 1) s c =
      afterChunk ng fuel (readChunk s c) := by
  have hne : c.rest ≠ 0 := Nat.pos_iff_ne_zero.mp hrest
  simp only [readChunks_succ, readChunkHead, hne, and_false, if_false, hlen]

end

theorem readChunks_chunked (lawful : Lawful ng) (w : Bytes) {n : ℕ} (hn : 0 < n)
    {head : Message.Head} (hchunked : head.lengths.chunked = true) (fuel : ℕ) :
    ∀ (s : Sock) (c : Ctx σ κ) (body : Bytes), Buffered s → InBody s c head body →
      c.bodyLen = body.length → c.rest = 0 → s.unread.length < fuel →
        ChunksServed ng (.chunks head c.chunked body) (s.unread ++ w) n w
          (readChunks ng fuel s c) := by
  induction fuel with
  | zero =>
    intro s c body _ _ _ _ hlt
    exact absurd hlt (Nat.not_lt_zero _)
  | succ fuel ih =>
    intro s c body hs h hlen hrest hlt
    have hused := lawful.chunk.used_le c.chunked s.unread
    have hc : c.lengths.chunked = true := by
      have heq : c.lengths = head.lengths := congrArg Message.Head.lengths h.head_eq
      rw [heq]
      exact hchunked
    cases hr : (ng.parseChunked c.chunked s.unread).result with
    | none =>
      have hall := lawful.chunk.asks _ _ hr
      have hempty : (s.advance (ng.parseChunked c.chunked s.unread).used).unread = [] := by
        rw [unread_advance, hall]
        exact List.drop_length
      rw [readChunks_none hc hrest hr]
      have hin : InBody (s.advance (ng.parseChunked c.chunked s.unread).used)
          { c with chunked := (ng.parseChunked c.chunked s.unread).next } head body :=
        ⟨h.headerDone, h.head_eq, h.code, h.exclusive, h.content, h.kept, h.body⟩
      refine ⟨_, [], ⟨.chunks hin hchunked hlen hrest, hs.advance hused,
        fun hnil => absurd rfl hnil⟩, ?_, ?_⟩
      · rw [hempty]
        exact hn
      · intro report hreport
        rw [hempty] at hreport
        exact Reads.resume_size lawful hr hreport
    | some result =>
      have hne : (ng.parseChunked c.chunked s.unread).result ≠ none := by
        rw [hr]
        exact Option.some_ne_none result
      have hall := lawful.chunk.answers _ _ w hne
      have hresult : (ng.parseChunked c.chunked (s.unread ++ w)).result = some result := by
        rw [hall]
        exact hr
      cases result with
      | error =>
        rw [readChunks_error hc hrest hr]
        exact ⟨⟨.malformed, head, body⟩, .chunks_error hresult, h.head_eq, h.body⟩
      | done =>
        rw [readChunks_done hc hrest hr]
        exact ⟨head, body, ⟨h.headerDone, h.head_eq, h.code, h.exclusive, h.content, h.kept,
          h.body⟩, hlen, .chunks_done hresult⟩
      | ok =>
        obtain ⟨hsize, hbefore⟩ := lawful.chunk_ok _ _ hr
        rw [readChunks_ok hc hrest hr]
        have hleads : Leads ng (.chunks head c.chunked body) (s.unread ++ w)
            (.chunk head (ng.parseChunked c.chunked s.unread).next
              (ng.size (ng.parseChunked c.chunked s.unread).next) body)
            ((s.consume (ng.parseChunked c.chunked s.unread).used).unread ++ w) := by
          intro report hreport
          apply Reads.chunks_ok hresult
          rw [hall, List.drop_append_of_le_length hused, ← unread_consume]
          exact hreport
        refine Leads.chunks hleads (chunk_served (hs.consume hused) ?_ hchunked hsize ?_ rfl rfl
          ?_ hn ?_)
        · exact ⟨h.headerDone, h.head_eq, h.code, h.exclusive, h.content, h.kept, h.body⟩
        · simp only [hlen]
        · apply List.ne_nil_of_length_pos
          rw [unread_consume, List.length_drop]
          omega
        · intro s' c' hs' hin hlen' hrest' hshorter
          apply ih s' c' _ hs' hin hlen' hrest'
          rw [unread_consume, List.length_drop] at hshorter
          omega

/-- The head of a body with a content length asks for a chunk. -/
theorem readChunks_sized {s : Sock} {c : Ctx σ κ} {fuel len missing : ℕ}
    (hchunked : c.lengths.chunked = false) (hcl : c.lengths.contentLength = some len)
    (hrest : (if c.bodyLen = 0 then len else c.rest) = missing) (hpos : 0 < missing)
    (hlen : c.bodyLen = 0 ∨ c.bodyLen = len) :
    readChunks ng (fuel + 1) s c =
      afterChunk ng fuel (readChunk s { c with bodyLen := len, rest := missing }) := by
  have hne : missing ≠ 0 := Nat.pos_iff_ne_zero.mp hpos
  simp only [readChunks_succ, readChunkHead, hchunked, Bool.false_eq_true, false_and, if_false, hcl]
  by_cases hzero : c.bodyLen = 0
  · rw [if_pos hzero] at hrest
    simp only [hzero, if_true, hrest, hne, if_false]
  · rw [if_neg hzero] at hrest
    have heq : c.bodyLen = len := hlen.resolve_left hzero
    have hsame : { c with bodyLen := len, rest := missing } = c := by rw [← heq, ← hrest]
    simp only [hzero, if_false, hrest, hne, hsame]

/-- Nothing more is missing of a body with a content length. -/
theorem readChunks_sized_done {s : Sock} {c : Ctx σ κ} {fuel len : ℕ}
    (hchunked : c.lengths.chunked = false) (hcl : c.lengths.contentLength = some len)
    (hlen : c.bodyLen = len) (hrest : c.rest = 0) :
    readChunks ng (fuel + 1) s c = (s, c, none) := by
  simp only [readChunks_succ, readChunkHead, hchunked, Bool.false_eq_true, false_and, if_false, hcl]
  by_cases hzero : c.bodyLen = 0
  · have hl : len = 0 := hlen.symm.trans hzero
    have hsame : ({ c with bodyLen := 0, rest := 0 } : Ctx σ κ) = c := by
      cases c
      simp_all
    simp only [hzero, if_true, hl, hsame, hrest]
  · simp only [hzero, if_false, hrest, if_true]

/-- The bytes of a body with a content length. -/
theorem sized_served {fuel n missing : ℕ} {w : Bytes} {s : Sock} {c : Ctx σ κ}
    {head : Message.Head} {body : Bytes} (hs : Buffered s) (h : InBody s c head body)
    (hcl : head.lengths.contentLength = some (body.length + missing))
    (hlen : c.bodyLen = body.length + missing) (hrest : c.rest = missing)
    (hlast : s.inLast = s.here) (hu : s.unread ≠ []) (hn : 0 < n) :
    ChunksServed ng (.sized head missing body) (s.unread ++ w) n w
      (afterChunk ng (fuel + 1) (readChunk s c)) := by
  rcases readChunk_spec hs h hrest hlast hu with
    ⟨hle, chunks, hread, hin⟩ | ⟨hlt, s', chunks, hread, hs', hunread, hlast', hin⟩
  · have hlengths : c.lengths = head.lengths := congrArg Message.Head.lengths h.head_eq
    have hchunked : c.lengths.chunked = false := by
      rw [hlengths]
      by_contra htrue
      rw [h.exclusive (by simpa using htrue)] at hcl
      cases hcl
    rw [← hlengths] at hcl
    have hafter : afterChunk ng (fuel + 1) (readChunk s c) =
        (s.consume missing, { c with rest := 0, chunks, chunked := ng.clearSize c.chunked }, none) := by
      rw [hread]
      exact readChunks_sized_done hchunked hcl hlen rfl
    rw [hafter]
    refine ⟨head, body ++ s.unread.take missing, ?_, ?_, ?_⟩
    · exact ⟨hin.headerDone, hin.head_eq, hin.code, hin.exclusive, hin.content, hin.kept, hin.body⟩
    · rw [List.length_append, List.length_take, Nat.min_eq_left hle]
      exact hlen
    · have htake : (s.unread ++ w).take missing = s.unread.take missing :=
        List.take_append_of_le_length hle
      rw [← htake]
      apply Reads.sized_whole
      rw [List.length_append]
      omega
  · have hsum : body.length + missing =
        (body ++ s.unread).length + (missing - s.unread.length) := by
      rw [List.length_append]
      omega
    rw [hread]
    refine ⟨.sized head (missing - s.unread.length) (body ++ s.unread), [],
      ⟨.sized hin (hcl.trans (congrArg some hsum)) (Nat.sub_pos_of_lt hlt) (hlen.trans hsum) rfl
        hlast', hs', fun hnil => absurd rfl hnil⟩, ?_, ?_⟩
    · have hzero : s'.unread.length < n := by rwa [hunread]
      exact hzero
    · intro report hreport
      have heq : [] ++ s'.unread ++ w = w := by rw [hunread]; rfl
      exact Reads.resume_sized hlt (heq ▸ hreport)

/-- The body is handed over. -/
theorem copyBody_served {phase : Phase σ κ} {bs : Bytes} {n : ℕ} {w : Bytes} {s : Sock}
    {c : Ctx σ κ} {head : Message.Head} {body : Bytes} (h : InBody s c head body)
    (hlen : c.bodyLen = body.length) (hreads : Reads ng phase bs ⟨.whole, head, body⟩) :
    Served ng phase bs n w (copyBody s c) := by
  unfold copyBody
  by_cases hzero : c.bodyLen = 0
  · rw [if_pos hzero]
    have hnil : body = [] := List.length_eq_zero_iff.mp (hlen.symm.trans hzero)
    refine ⟨_, hreads, h.head_eq, ?_, hlen⟩
    rw [hnil, h.body]
    rfl
  · rw [if_neg hzero, h.content]
    exact ⟨_, hreads, h.head_eq, rfl, hlen⟩

theorem readBody_length {s : Sock} {c : Ctx σ κ} {phase : Phase σ κ} {bs w : Bytes} {n : ℕ}
    (hlength : c.lengths.contentLength.isSome = true ∨ c.lengths.chunked = true)
    (h : ChunksServed ng phase bs n w (readChunks ng (s.unread.length + 1) s c)) :
    Served ng phase bs n w (readBody ng s c) := by
  rw [readBody, if_pos hlength]
  revert h
  obtain ⟨s', c', a⟩ := readChunks ng (s.unread.length + 1) s c
  intro h
  cases a with
  | some answer => exact h
  | none =>
    obtain ⟨head, body, hin, hlen, hreads⟩ := h
    exact copyBody_served hin hlen hreads

/-- Where the rest of the message is a part of the body. -/
theorem readBody_served (lawful : Lawful ng) {s : Sock} {c : Ctx σ κ} {phase : Phase σ κ}
    {line : Bytes} (hs : Buffered s) (h : Stands ng s c phase line) (hdone : c.headerDone = true)
    (hu : s.unread ≠ []) {n : ℕ} (hn : 0 < n) (w : Bytes) :
    Served ng phase (line ++ s.unread ++ w) n w (readBody ng s c) := by
  obtain ⟨k, hk⟩ : ∃ k, s.unread.length = k + 1 :=
    Nat.exists_eq_succ_of_ne_zero fun hzero => hu (List.length_eq_zero_iff.mp hzero)
  cases h with
  | status h =>
    rw [h.noBody.headerDone] at hdone
    cases hdone
  | headers h =>
    rw [h.noBody.headerDone] at hdone
    cases hdone
  | @unsized head missing h hcl hpos hlen hrest hlast =>
    have hlengths : c.lengths = head.lengths := congrArg Message.Head.lengths h.head_eq
    have hchunked : c.lengths.chunked = false := by
      rw [hlengths]
      by_contra htrue
      rw [h.exclusive (by simpa using htrue)] at hcl
      cases hcl
    have hcl' : c.lengths.contentLength = some missing := hlengths ▸ hcl
    apply readBody_length (.inl (by rw [hcl']; rfl))
    rw [hk, readChunks_sized hchunked hcl' (if_pos hlen) hpos (.inl hlen)]
    apply sized_served hs ?_ _ _ rfl hlast hu hn
    · exact ⟨h.headerDone, h.head_eq, h.code, h.exclusive, h.content, h.kept, h.body⟩
    · rw [List.length_nil, Nat.zero_add]
      exact hcl
    · rw [List.length_nil, Nat.zero_add]
  | @sized head missing body h hcl hpos hlen hrest hlast =>
    have hlengths : c.lengths = head.lengths := congrArg Message.Head.lengths h.head_eq
    have hchunked : c.lengths.chunked = false := by
      rw [hlengths]
      by_contra htrue
      rw [h.exclusive (by simpa using htrue)] at hcl
      cases hcl
    have hcl' : c.lengths.contentLength = some (body.length + missing) := hlengths ▸ hcl
    have hne : ¬ c.bodyLen = 0 := by omega
    apply readBody_length (.inl (by rw [hcl']; rfl))
    rw [hk, readChunks_sized hchunked hcl' ((if_neg hne).trans hrest) hpos (.inr hlen)]
    apply sized_served hs ?_ hcl rfl rfl hlast hu hn
    exact ⟨h.headerDone, h.head_eq, h.code, h.exclusive, h.content, h.kept, h.body⟩
  | @chunks head body h hchunked hlen hrest =>
    have hlengths : c.lengths = head.lengths := congrArg Message.Head.lengths h.head_eq
    apply readBody_length (.inr (hlengths ▸ hchunked))
    exact readChunks_chunked lawful w hn hchunked _ s c body hs h hlen hrest (Nat.lt_succ_self _)
  | @chunk head missing body h hchunked hpos hlen hrest hlast =>
    have hlengths : c.lengths = head.lengths := congrArg Message.Head.lengths h.head_eq
    have hnone : c.lengths.contentLength = none := by
      rw [hlengths]
      exact h.exclusive hchunked
    apply readBody_length (.inr (hlengths ▸ hchunked))
    rw [readChunks_chunk hnone (by rw [hrest]; exact hpos)]
    apply chunk_served hs h hchunked hpos hlen hrest hlast hu hn
    intro s' c' hs' hin hlen' hrest' hlt
    exact readChunks_chunked lawful w hn hchunked _ s' c' _ hs' hin hlen' hrest' hlt
  | @unframed head h hchunked hcl hlen =>
    have hlengths : c.lengths = head.lengths := congrArg Message.Head.lengths h.head_eq
    have hnot : ¬ (c.lengths.contentLength.isSome = true ∨ c.lengths.chunked = true) := by
      rw [hlengths, hcl, hchunked]
      simp
    rw [readBody, if_neg hnot, copyBody, if_pos hlen]
    exact ⟨_, .unframed, h.head_eq, h.body, hlen⟩

/-- The body that begins in the buffer of the last header line. -/
theorem AtBody.served (lawful : Lawful ng) {s : Sock} {c : Ctx σ κ} {head : Message.Head}
    (hs : Buffered s) (h : AtBody ng s c head) (hu : s.unread ≠ []) {n : ℕ} (hn : 0 < n)
    (w : Bytes) : Served ng (bodyPhase ng head) (s.unread ++ w) n w (readBody ng s c) := by
  have hlengths : c.lengths = head.lengths := congrArg Message.Head.lengths h.inBody.head_eq
  by_cases hzero : head.lengths.contentLength = some 0
  · have hchunked : head.lengths.chunked = false := by
      by_contra htrue
      rw [h.inBody.exclusive (by simpa using htrue)] at hzero
      cases hzero
    have hcl : c.lengths.contentLength = some 0 := hlengths ▸ hzero
    apply readBody_length (.inl (by rw [hcl]; rfl))
    rw [readChunks_sized_done (hlengths ▸ hchunked) hcl h.bodyLen h.rest]
    refine ⟨head, [], h.inBody, h.bodyLen, ?_⟩
    rw [bodyPhase, if_neg (by simp [hchunked]), hzero]
    exact .sized_whole (Nat.zero_le _)
  · exact readBody_served lawful hs (h.stands hzero) h.inBody.headerDone hu hn w

end NgxWasm.Socket.ReadBody
