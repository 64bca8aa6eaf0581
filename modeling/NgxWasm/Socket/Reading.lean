import NgxWasm.Socket.Message

/-!
# Reading on

What the parsers are relied upon for, and how the reading of a stream goes on when the
parser of a line, of a chunk size or of a chunk has seen a part of it.
-/

namespace NgxWasm.Socket.Reading

open NgxWasm NgxWasm.Lib.Parsers NgxWasm.Socket.HttpReader NgxWasm.Socket.Message

variable {σ κ : Type}

/-- The parsers are resumable; in the middle of a line their state is not 0, the marks of a
line that is answered lie in it, a chunk size is answered with data behind it, and a response that is accepted has
not both a content length and chunks. -/
structure Lawful (ng : Nginx σ κ) : Prop where
  status : Resumable ng.statusLine
  header : Resumable ng.headerLine
  chunk : Resumable ng.parseChunked
  zeroed : ng.state ng.zeroed = 0
  status_asks : ∀ p xs, xs ≠ [] → (ng.statusLine p xs).result = none →
    ng.state (ng.statusLine p xs).next ≠ 0
  status_used : ∀ p xs code, (ng.statusLine p xs).result = some (.ok code) →
    0 < (ng.statusLine p xs).used
  status_ok : ∀ p xs code, ng.state p = 0 → (ng.statusLine p xs).result = some (.ok code) →
    ng.state (ng.statusLine p xs).next = 0 ∧
      ∃ a b, (ng.statusLine p xs).mark .start = some a ∧
        (ng.statusLine p xs).mark .stop = some b ∧ 0 ≤ a ∧ a ≤ b ∧ b ≤ (ng.statusLine p xs).used
  header_nil : ∀ p, (ng.headerLine p []).next = p
  header_marks : ∀ p xs i a, (ng.headerLine p xs).mark i = some a → 0 ≤ a
  header_asks : ∀ p xs, ng.state p = 0 → (ng.headerLine p xs).result = none →
    ng.state (ng.headerLine p xs).next ≠ 0 →
      ∃ a, (ng.headerLine p xs).mark .nameStart = some a ∧ a ≤ xs.length
  header_used : ∀ p xs result, (ng.headerLine p xs).result = some result → result ≠ .invalid →
    0 < (ng.headerLine p xs).used
  header_ok : ∀ p xs hash lowcase, ng.state p = 0 →
    (ng.headerLine p xs).result = some (.ok hash lowcase) →
      ng.state (ng.headerLine p xs).next = 0 ∧
        ∃ a b v w, (ng.headerLine p xs).mark .nameStart = some a ∧
          (ng.headerLine p xs).mark .nameEnd = some b ∧
          (ng.headerLine p xs).mark .start = some v ∧ (ng.headerLine p xs).mark .stop = some w ∧
          a ≤ b ∧ b ≤ (ng.headerLine p xs).used ∧ a ≤ v ∧ v ≤ w ∧ w ≤ (ng.headerLine p xs).used
  chunk_ok : ∀ k xs, (ng.parseChunked k xs).result = some .ok →
    0 < ng.size (ng.parseChunked k xs).next ∧ (ng.parseChunked k xs).used < xs.length
  exclusive : ∀ headers lengths h lengths', ng.handler headers lengths h = some lengths' →
    lengths'.chunked = true → lengths'.contentLength = none

variable {ng : Nginx σ κ}

theorem between_append (xs ys : Bytes) (a b : ℤ) (ha : 0 ≤ a) :
    between (xs ++ ys) (some (xs.length + a)) (some (xs.length + b)) =
      between ys (some a) (some b) := by
  have hstart : ((xs.length : ℤ) + a).toNat = xs.length + a.toNat := by omega
  have hlen : ((xs.length : ℤ) + b - (xs.length + a)).toNat = (b - a).toNat := by omega
  simp only [between, hstart, hlen, List.drop_append, Nat.add_sub_cancel_left]
  rw [List.drop_eq_nil_of_le (by omega), List.nil_append]

/-- A header line may begin anew where the parser is back at its first state. -/
theorem Reads.restart (lawful : Lawful ng) {p q : σ} {line rest : Bytes}
    {m : HeaderMark → Option ℤ} (waits : Waits ng.headerLine p line q m) (hq : ng.state q = 0)
    {head : Head} {report : Report} (h : Reads ng (.headers q head) rest report) :
    Reads ng (.headers p head) (line ++ rest) report := by
  have hparse : ng.headerLine p (line ++ rest) = (ng.headerLine q rest).after line.length m :=
    waits rest
  have hnext : (ng.headerLine p (line ++ rest)).next = (ng.headerLine q rest).next := by
    rw [hparse]
    rfl
  have hheader : ∀ hash lowcase, (ng.headerLine q rest).result = some (.ok hash lowcase) →
      lineHeader (ng.headerLine p (line ++ rest)) (line ++ rest) hash lowcase =
        lineHeader (ng.headerLine q rest) rest hash lowcase := by
    intro hash lowcase hok
    obtain ⟨-, a, b, v, w, ha, hb, hv, hw, -⟩ := lawful.header_ok q rest hash lowcase hq hok
    have ha0 := lawful.header_marks q rest _ a ha
    have hv0 := lawful.header_marks q rest _ v hv
    simp only [lineHeader, hparse, after_mark, ha, hb, hv, hw, Option.map_some, Option.some_or,
      between_append _ _ _ _ ha0, between_append _ _ _ _ hv0]
  have hdrop : (line ++ rest).drop (ng.headerLine p (line ++ rest)).used =
      rest.drop (ng.headerLine q rest).used := by
    rw [hparse, after_used, List.drop_append, List.drop_eq_nil_of_le (by omega),
      List.nil_append, Nat.add_sub_cancel_left]
  cases h with
  | header_invalid h => exact .header_invalid (by rw [hparse]; exact h)
  | header_short h => exact .header_short (by rw [hparse]; exact h)
  | header_refused h refused =>
    rw [← hheader _ _ h] at refused ⊢
    exact .header_refused (by rw [hparse]; exact h) refused
  | header_ok h handled rest' =>
    rw [← hheader _ _ h] at handled rest'
    refine .header_ok (by rw [hparse]; exact h) handled ?_
    rw [hdrop, hnext]
    exact rest'
  | header_done h rest' =>
    refine .header_done (by rw [hparse]; exact h) ?_
    rw [hdrop]
    exact rest'

/-- The part of a chunk size that was parsed is in the state of the parser. -/
theorem Reads.resume_size (lawful : Lawful ng) {k : κ} {line rest : Bytes}
    (hask : (ng.parseChunked k line).result = none) {head : Head} {body : Bytes} {report : Report}
    (h : Reads ng (.chunks head (ng.parseChunked k line).next body) rest report) :
    Reads ng (.chunks head k body) (line ++ rest) report := by
  have hparse := lawful.chunk.append k line rest hask
  have hdrop : (line ++ rest).drop (ng.parseChunked k (line ++ rest)).used =
      rest.drop (ng.parseChunked (ng.parseChunked k line).next rest).used := by
    rw [hparse, after_used, List.drop_append, List.drop_eq_nil_of_le (by omega),
      List.nil_append, Nat.add_sub_cancel_left]
  cases h with
  | chunks_error h => exact .chunks_error (by rw [hparse]; exact h)
  | chunks_short h => exact .chunks_short (by rw [hparse]; exact h)
  | chunks_done h => exact .chunks_done (by rw [hparse]; exact h)
  | chunks_ok h rest' =>
    refine .chunks_ok (by rw [hparse]; exact h) ?_
    rw [hdrop, hparse]
    exact rest'

theorem Reads.resume_chunk {head : Head} {k : κ} {missing : ℕ} {body part rest : Bytes}
    {report : Report} (hlt : part.length < missing)
    (h : Reads ng (.chunk head k (missing - part.length) (body ++ part)) rest report) :
    Reads ng (.chunk head k missing body) (part ++ rest) report := by
  cases h with
  | chunk_short h =>
    rw [List.append_assoc]
    exact .chunk_short (by rw [List.length_append]; omega)
  | chunk_whole h rest' =>
    have htake : (part ++ rest).take missing = part ++ rest.take (missing - part.length) := by
      rw [List.take_append, List.take_of_length_le (by omega)]
    have hdrop : (part ++ rest).drop missing = rest.drop (missing - part.length) := by
      rw [List.drop_append, List.drop_eq_nil_of_le (by omega), List.nil_append]
    refine .chunk_whole (by rw [List.length_append]; omega) ?_
    rw [htake, hdrop, ← List.append_assoc]
    exact rest'

theorem Reads.resume_sized {head : Head} {missing : ℕ} {body part rest : Bytes}
    {report : Report} (hlt : part.length < missing)
    (h : Reads ng (.sized head (missing - part.length) (body ++ part)) rest report) :
    Reads ng (.sized head missing body) (part ++ rest) report := by
  cases h with
  | sized_whole h =>
    have htake : (part ++ rest).take missing = part ++ rest.take (missing - part.length) := by
      rw [List.take_append, List.take_of_length_le (by omega)]
    rw [List.append_assoc, ← htake]
    exact .sized_whole (by rw [List.length_append]; omega)
  | sized_short h =>
    rw [List.append_assoc]
    exact .sized_short (by rw [List.length_append]; omega)

end NgxWasm.Socket.Reading
