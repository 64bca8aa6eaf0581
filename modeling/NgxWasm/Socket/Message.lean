import NgxWasm.Socket.HttpReader

/-!
# What a received stream says

The reading of a whole byte stream, without buffers and receives: the status line, the
header lines and the body that the parsers find in it, and how it ends. A stream that
ends before the message does is short.
-/

namespace NgxWasm.Socket.Message

open NgxWasm NgxWasm.Lib.Parsers NgxWasm.Socket.HttpReader

/-- `unframed` is a response without a length: its body lasts to the end of file. -/
inductive Ending where
  | whole
  | unframed
  | short
  | malformed
  deriving DecidableEq

structure Head where
  code : ℕ
  statusLine : Bytes
  headers : List Header
  lengths : Lengths
  deriving DecidableEq

structure Report where
  ending : Ending
  head : Head
  body : Bytes
  deriving DecidableEq

/-- Where the reading of a stream stands, at the beginning of what is still to parse;
`sized` and `chunk` miss a number of bytes of the body. -/
inductive Phase (σ κ : Type) where
  | status (p : σ) (statusLine : Bytes)
  | headers (p : σ) (head : Head)
  | sized (head : Head) (missing : ℕ) (body : Bytes)
  | chunks (head : Head) (k : κ) (body : Bytes)
  | chunk (head : Head) (k : κ) (missing : ℕ) (body : Bytes)
  | unframed (head : Head)

/-- The bytes between two marks. -/
def between (bs : Bytes) : Option ℤ → Option ℤ → Bytes
  | some a, some b => (bs.drop a.toNat).take (b - a).toNat
  | _, _ => []

section
variable {σ κ : Type} (ng : Nginx σ κ)

def startOf (p : σ) : Phase σ κ := .status p []

/-- Without a code yet the lengths are those of no header. -/
def noHead (statusLine : Bytes) : Head := ⟨0, statusLine, [], ⟨none, false⟩⟩

/-- A line with the code 0 does not count as the status line. -/
def afterStatus (p : σ) (code : ℕ) (statusLine : Bytes) : Phase σ κ :=
  if code = 0 then .status p statusLine else .headers p ⟨code, statusLine, [], ⟨none, false⟩⟩

def bodyPhase (head : Head) : Phase σ κ :=
  if head.lengths.chunked then .chunks head ng.unchunked []
  else
    match head.lengths.contentLength with
    | some n => .sized head n []
    | none => .unframed head

def lineText (r : Reply σ StatusMark StatusResult) (bs : Bytes) : Bytes :=
  between bs (r.mark .start) (r.mark .stop)

def lineHeader (r : Reply σ HeaderMark HeaderResult) (bs : Bytes) (hash : ℕ) (lowcase : Bytes) :
    Header :=
  newHeader hash lowcase (between bs (r.mark .nameStart) (r.mark .nameEnd))
    (between bs (r.mark .start) (r.mark .stop))

/-- A head that follows `head` with one more header. -/
def Head.add (head : Head) (h : Header) (lengths : Lengths) : Head :=
  { head with headers := head.headers ++ [h], lengths }

/-- The bytes to the end of file, read from a phase on, give a report. -/
inductive Reads : Phase σ κ → Bytes → Report → Prop
  | status_error {p t bs} (h : (ng.statusLine p bs).result = some .error) :
    Reads (.status p t) bs ⟨.malformed, noHead t, []⟩
  | status_short {p t bs} (h : (ng.statusLine p bs).result = none) :
    Reads (.status p t) bs ⟨.short, noHead t, []⟩
  | status_ok {p t bs code report} (h : (ng.statusLine p bs).result = some (.ok code))
    (rest : Reads (afterStatus (ng.statusLine p bs).next code (lineText (ng.statusLine p bs) bs))
      (bs.drop (ng.statusLine p bs).used) report) :
    Reads (.status p t) bs report
  | header_invalid {p head bs} (h : (ng.headerLine p bs).result = some .invalid) :
    Reads (.headers p head) bs ⟨.malformed, head, []⟩
  | header_short {p head bs} (h : (ng.headerLine p bs).result = none) :
    Reads (.headers p head) bs ⟨.short, head, []⟩
  | header_refused {p head bs hash lowcase}
    (h : (ng.headerLine p bs).result = some (.ok hash lowcase))
    (refused : ng.handler head.headers head.lengths
      (lineHeader (ng.headerLine p bs) bs hash lowcase) = none) :
    Reads (.headers p head) bs
      ⟨.malformed, head.add (lineHeader (ng.headerLine p bs) bs hash lowcase) head.lengths, []⟩
  | header_ok {p head bs hash lowcase lengths report}
    (h : (ng.headerLine p bs).result = some (.ok hash lowcase))
    (handled : ng.handler head.headers head.lengths
      (lineHeader (ng.headerLine p bs) bs hash lowcase) = some lengths)
    (rest : Reads (.headers (ng.headerLine p bs).next
        (head.add (lineHeader (ng.headerLine p bs) bs hash lowcase) lengths))
      (bs.drop (ng.headerLine p bs).used) report) :
    Reads (.headers p head) bs report
  | header_done {p head bs report} (h : (ng.headerLine p bs).result = some .done)
    (rest : Reads (bodyPhase ng head) (bs.drop (ng.headerLine p bs).used) report) :
    Reads (.headers p head) bs report
  | sized_whole {head missing body bs} (h : missing ≤ bs.length) :
    Reads (.sized head missing body) bs ⟨.whole, head, body ++ bs.take missing⟩
  | sized_short {head missing body bs} (h : bs.length < missing) :
    Reads (.sized head missing body) bs ⟨.short, head, body ++ bs⟩
  | chunks_error {head k body bs} (h : (ng.parseChunked k bs).result = some .error) :
    Reads (.chunks head k body) bs ⟨.malformed, head, body⟩
  | chunks_short {head k body bs} (h : (ng.parseChunked k bs).result = none) :
    Reads (.chunks head k body) bs ⟨.short, head, body⟩
  | chunks_done {head k body bs} (h : (ng.parseChunked k bs).result = some .done) :
    Reads (.chunks head k body) bs ⟨.whole, head, body⟩
  | chunks_ok {head k body bs report} (h : (ng.parseChunked k bs).result = some .ok)
    (rest : Reads (.chunk head (ng.parseChunked k bs).next (ng.size (ng.parseChunked k bs).next)
      body) (bs.drop (ng.parseChunked k bs).used) report) :
    Reads (.chunks head k body) bs report
  | chunk_short {head k missing body bs} (h : bs.length < missing) :
    Reads (.chunk head k missing body) bs ⟨.short, head, body ++ bs⟩
  | chunk_whole {head k missing body bs report} (h : missing ≤ bs.length)
    (rest : Reads (.chunks head (ng.clearSize k) (body ++ bs.take missing)) (bs.drop missing)
      report) :
    Reads (.chunk head k missing body) bs report
  | unframed {head bs} : Reads (.unframed head) bs ⟨.unframed, head, bs⟩

variable {ng}

/-- A stream has one reading. -/
theorem Reads.unique {phase : Phase σ κ} {bs : Bytes} {a b : Report} (ha : Reads ng phase bs a)
    (hb : Reads ng phase bs b) : a = b := by
  induction ha with
  | status_error h => cases hb <;> simp_all
  | status_short h => cases hb <;> simp_all
  | status_ok h rest ih =>
    cases hb with
    | status_error h' => rw [h] at h'; cases h'
    | status_short h' => rw [h] at h'; cases h'
    | status_ok h' rest' =>
      rw [h] at h'
      cases h'
      exact ih rest'
  | header_invalid h => cases hb <;> simp_all
  | header_short h => cases hb <;> simp_all
  | header_refused h refused => cases hb <;> simp_all
  | header_ok h handled rest ih =>
    cases hb with
    | header_invalid h' => rw [h] at h'; cases h'
    | header_short h' => rw [h] at h'; cases h'
    | header_refused h' refused =>
      rw [h] at h'
      cases h'
      rw [handled] at refused
      cases refused
    | header_ok h' handled' rest' =>
      rw [h] at h'
      cases h'
      rw [handled] at handled'
      cases handled'
      exact ih rest'
    | header_done h' rest' => rw [h] at h'; cases h'
  | header_done h rest ih =>
    cases hb with
    | header_invalid h' => rw [h] at h'; cases h'
    | header_short h' => rw [h] at h'; cases h'
    | header_refused h' refused => rw [h] at h'; cases h'
    | header_ok h' handled' rest' => rw [h] at h'; cases h'
    | header_done h' rest' => exact ih rest'
  | sized_whole h =>
    cases hb with
    | sized_whole h' => rfl
    | sized_short h' => omega
  | sized_short h =>
    cases hb with
    | sized_whole h' => omega
    | sized_short h' => rfl
  | chunks_error h => cases hb <;> simp_all
  | chunks_short h => cases hb <;> simp_all
  | chunks_done h => cases hb <;> simp_all
  | chunks_ok h rest ih =>
    cases hb with
    | chunks_error h' => rw [h] at h'; cases h'
    | chunks_short h' => rw [h] at h'; cases h'
    | chunks_done h' => rw [h] at h'; cases h'
    | chunks_ok h' rest' => exact ih rest'
  | chunk_short h =>
    cases hb with
    | chunk_short h' => rfl
    | chunk_whole h' rest' => omega
  | chunk_whole h rest ih =>
    cases hb with
    | chunk_short h' => omega
    | chunk_whole h' rest' => exact ih rest'
  | unframed => cases hb; rfl

end

end NgxWasm.Socket.Message
