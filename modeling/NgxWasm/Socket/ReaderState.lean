import NgxWasm.Socket.Reading

/-!
# The state of the reader

How the buffers and the pointers of the reader stand for a phase of the reading: what the
parser of a line has seen is at the end of what the buffer holds in front of `pos`, and
the pointers point where its marks say; a large buffer may have taken the line from its
name on. The chunks of the body lie in buffers that are not written over.
-/

namespace NgxWasm.Socket.ReaderState

open NgxWasm NgxWasm.Lib.Parsers NgxWasm.Socket.HttpReader NgxWasm.Socket.Message
open NgxWasm.Socket.Reading

variable {σ κ : Type}

def headOf (c : Ctx σ κ) : Message.Head := ⟨c.statusCode, c.statusLine, c.headers, c.lengths⟩

structure Buffered (s : Sock) : Prop where
  pos_le : s.buffer.pos ≤ s.data.length
  len_le : s.data.length ≤ s.buffer.size
  id_lt : s.buffer.id < s.nextBuf

/-- Nothing of the body was read. -/
structure NoBody (ng : Nginx σ κ) (c : Ctx σ κ) : Prop where
  headerDone : c.headerDone = false
  rest : c.rest = 0
  bodyLen : c.bodyLen = 0
  chunks : c.chunks = []
  chunked : c.chunked = ng.unchunked
  body : c.body = none

/-- The pointers are those of the marks in a line that ends at `pos`. -/
def Points {ι : Type} (s : Sock) (line : Bytes) (m : ι → Option ℤ) (ptr : ι → Option Ptr) : Prop :=
  ∀ i a, m i = some a → ptr i = some ⟨s.buffer.id, s.buffer.pos - line.length + a⟩

structure AtStatus (ng : Nginx σ κ) (s : Sock) (c : Ctx σ κ) (p : σ) (t line : Bytes) : Prop where
  head : headOf c = noHead t
  noBody : NoBody ng c
  first : ng.state p = 0
  fresh : line = [] → c.r = p
  waits : ∃ m, Waits ng.statusLine p line c.r m ∧ Points s line m c.statusPtr
  asked : line ≠ [] → ng.state c.r ≠ 0
  text : line <:+ s.data.take s.buffer.pos
  started : line ≠ [] → c.requestStart ≠ none
  start : ∀ o, c.requestStart = some o → o.buf < s.nextBuf ∧
    (o.buf = s.buffer.id → 0 ≤ o.off ∧ o.off ≤ s.buffer.pos - line.length)

/-- Of the line, `dropped` lies in front of the name and may be gone from the buffer. -/
structure Named (ng : Nginx σ κ) (s : Sock) (c : Ctx σ κ) (p : σ) (line : Bytes)
    (m : HeaderMark → Option ℤ) (dropped kept : Bytes) : Prop where
  waits : Waits ng.headerLine p line c.r m
  points : Points s line m c.headerPtr
  split : line = dropped ++ kept
  text : kept <:+ s.data.take s.buffer.pos
  name : ng.state c.r ≠ 0 →
    ∃ a, m .nameStart = some a ∧ dropped.length ≤ a ∧ a ≤ line.length

structure AtHeader (ng : Nginx σ κ) (s : Sock) (c : Ctx σ κ) (p : σ) (head : Message.Head)
    (line : Bytes) : Prop where
  head_eq : headOf c = head
  code : head.code ≠ 0
  noBody : NoBody ng c
  exclusive : head.lengths.chunked = true → head.lengths.contentLength = none
  first : ng.state p = 0
  asked : (line = [] ∧ c.r = p) ∨ line ≠ [] ∧ ng.state c.r ≠ 0
  named : ∃ m dropped kept, Named ng s c p line m dropped kept

structure InBody (s : Sock) (c : Ctx σ κ) (head : Message.Head) (body : Bytes) : Prop where
  headerDone : c.headerDone = true
  head_eq : headOf c = head
  code : head.code ≠ 0
  exclusive : head.lengths.chunked = true → head.lengths.contentLength = none
  content : copyChunks s.mem c.chunks = some body
  kept : ∀ chunk ∈ c.chunks, chunk.1.buf < s.nextBuf
  body : c.body = none

/-- The reader stands for a phase whose parser has seen `line`. -/
inductive Stands (ng : Nginx σ κ) (s : Sock) (c : Ctx σ κ) : Phase σ κ → Bytes → Prop
  | status {p t line} (h : AtStatus ng s c p t line) : Stands ng s c (.status p t) line
  | headers {p head line} (h : AtHeader ng s c p head line) :
    Stands ng s c (.headers p head) line
  | unsized {head missing} (h : InBody s c head []) (len : head.lengths.contentLength = some missing)
    (pos : 0 < missing) (bodyLen : c.bodyLen = 0) (rest : c.rest = 0) (last : s.inLast = s.here) :
    Stands ng s c (.sized head missing []) []
  | sized {head missing body} (h : InBody s c head body)
    (len : head.lengths.contentLength = some (body.length + missing)) (pos : 0 < missing)
    (bodyLen : c.bodyLen = body.length + missing) (rest : c.rest = missing)
    (last : s.inLast = s.here) : Stands ng s c (.sized head missing body) []
  | chunks {head body} (h : InBody s c head body) (chunked : head.lengths.chunked = true)
    (bodyLen : c.bodyLen = body.length) (rest : c.rest = 0) :
    Stands ng s c (.chunks head c.chunked body) []
  | chunk {head missing body} (h : InBody s c head body) (chunked : head.lengths.chunked = true)
    (pos : 0 < missing) (bodyLen : c.bodyLen = body.length + missing) (rest : c.rest = missing)
    (last : s.inLast = s.here) : Stands ng s c (.chunk head c.chunked missing body) []
  | unframed {head} (h : InBody s c head []) (chunked : head.lengths.chunked = false)
    (len : head.lengths.contentLength = none) (bodyLen : c.bodyLen = 0) :
    Stands ng s c (.unframed head) []

/-- Between two calls; a buffer that is full has no part of a line. -/
structure Ready (ng : Nginx σ κ) (s : Sock) (c : Ctx σ κ) (phase : Phase σ κ) (line : Bytes) :
    Prop where
  stands : Stands ng s c phase line
  buffered : Buffered s
  room : line ≠ [] → s.unread = [] → s.full = false

/-! ### Buffers -/

theorem unread_length (s : Sock) : s.unread.length = s.data.length - s.buffer.pos :=
  List.length_drop

theorem take_append_unread (s : Sock) : s.data.take s.buffer.pos ++ s.unread = s.data :=
  List.take_append_drop _ _

@[simp] theorem data_advance (s : Sock) (n : ℕ) : (s.advance n).data = s.data := rfl

@[simp] theorem data_consume (s : Sock) (n : ℕ) : (s.consume n).data = s.data := rfl

@[simp] theorem pos_advance (s : Sock) (n : ℕ) : (s.advance n).buffer.pos = s.buffer.pos + n := rfl

@[simp] theorem pos_consume (s : Sock) (n : ℕ) : (s.consume n).buffer.pos = s.buffer.pos + n := rfl

@[simp] theorem id_advance (s : Sock) (n : ℕ) : (s.advance n).buffer.id = s.buffer.id := rfl

@[simp] theorem id_consume (s : Sock) (n : ℕ) : (s.consume n).buffer.id = s.buffer.id := rfl

theorem unread_advance (s : Sock) (n : ℕ) : (s.advance n).unread = s.unread.drop n := by
  simp only [Sock.unread, data_advance, pos_advance, List.drop_drop]

theorem unread_consume (s : Sock) (n : ℕ) : (s.consume n).unread = s.unread.drop n :=
  unread_advance s n

theorem Buffered.advance {s : Sock} (h : Buffered s) {n : ℕ} (hn : n ≤ s.unread.length) :
    Buffered (s.advance n) where
  pos_le := by
    have := h.pos_le
    rw [unread_length] at hn
    rw [data_advance, pos_advance]
    omega
  len_le := h.len_le
  id_lt := h.id_lt

theorem Buffered.consume {s : Sock} (h : Buffered s) {n : ℕ} (hn : n ≤ s.unread.length) :
    Buffered (s.consume n) where
  pos_le := (h.advance hn).pos_le
  len_le := h.len_le
  id_lt := h.id_lt

theorem take_advance (s : Sock) (n : ℕ) :
    s.data.take (s.buffer.pos + n) = s.data.take s.buffer.pos ++ s.unread.take n :=
  List.take_add

/-- The line grows by what the parser took. -/
theorem suffix_advance {s : Sock} {line : Bytes} (h : line <:+ s.data.take s.buffer.pos) (n : ℕ) :
    line ++ s.unread.take n <:+ s.data.take (s.buffer.pos + n) := by
  rw [take_advance]
  obtain ⟨before, hb⟩ := h
  exact ⟨before, by rw [← hb, List.append_assoc]⟩

theorem data_store (s : Sock) (bytes : Bytes) : (s.store s.buffer.id bytes).data = bytes := by
  simp [Sock.data, Sock.store]

/-- Marks in a line, read in the buffer. -/
theorem span_line {s : Sock} {line dropped kept : Bytes} (hline : line = dropped ++ kept)
    (hsuffix : kept <:+ s.data.take s.buffer.pos) (hpos : s.buffer.pos ≤ s.data.length) {a b : ℤ}
    (ha : dropped.length ≤ a) (hab : a ≤ b) (hb : b ≤ (line ++ s.unread).length) :
    span s.mem (some ⟨s.buffer.id, s.buffer.pos - line.length + a⟩)
        (some ⟨s.buffer.id, s.buffer.pos - line.length + b⟩) =
      some (between (line ++ s.unread) (some a) (some b)) := by
  obtain ⟨before, hbefore⟩ := hsuffix
  have hlen : before.length + kept.length = s.buffer.pos := by
    have := congrArg List.length hbefore
    rw [List.length_append, List.length_take] at this
    omega
  have hdata : s.mem s.buffer.id = before ++ (kept ++ s.unread) := by
    rw [← List.append_assoc, hbefore, take_append_unread]
    rfl
  have hdatalen := congrArg List.length hdata
  simp only [List.length_append] at hdatalen hb
  have hll : line.length = dropped.length + kept.length := by rw [hline, List.length_append]
  have hcond : 0 ≤ (s.buffer.pos : ℤ) - line.length + a ∧
      (s.buffer.pos : ℤ) - line.length + a ≤ s.buffer.pos - line.length + b ∧
      (s.buffer.pos : ℤ) - line.length + b ≤ (s.mem s.buffer.id).length := by
    refine ⟨by omega, by omega, by omega⟩
  simp only [span, hcond, and_self, if_true, between, Option.some.injEq]
  have hdrop : (s.mem s.buffer.id).drop ((s.buffer.pos : ℤ) - line.length + a).toNat =
      (line ++ s.unread).drop a.toNat := by
    have h1 : ((s.buffer.pos : ℤ) - line.length + a).toNat =
        before.length + (a.toNat - dropped.length) := by omega
    have h2 : a.toNat = dropped.length + (a.toNat - dropped.length) := by omega
    rw [hdata, h1, ← List.drop_drop, List.drop_left, hline, List.append_assoc]
    conv_rhs => rw [h2, ← List.drop_drop, List.drop_left]
  have hlen' : ((s.buffer.pos : ℤ) - line.length + b - (s.buffer.pos - line.length + a)).toNat =
      (b - a).toNat := by omega
  rw [hdrop, hlen']

end NgxWasm.Socket.ReaderState
