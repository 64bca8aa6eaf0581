import NgxWasm.Socket.LargeBuffer

/-!
# The status line and the header lines

A call of the reader either stands for a later phase of the same reading, or it has
delivered what the whole stream says.
-/

namespace NgxWasm.Socket.ReadLines

open NgxWasm NgxWasm.Lib.Parsers NgxWasm.Socket.HttpReader NgxWasm.Socket.Message
open NgxWasm.Socket.Reading NgxWasm.Socket.ReaderState NgxWasm.Socket.LargeBuffer

variable {σ κ : Type} {ng : Nginx σ κ} {conf : Conf}

/-- What the reader leaves with an answer agrees with a report: the body is there when it
is whole, and a stream that is cut short is answered like one without a body. -/
def Delivered (answer : Answer) (c : Ctx σ κ) (report : Report) : Prop :=
  headOf c = report.head ∧
    match answer, report.ending with
    | .ok, .whole => c.body.getD [] = report.body ∧ c.bodyLen = report.body.length
    | .ok, .unframed => c.body = none ∧ c.bodyLen = 0
    | .ok, .short => c.body = none
    | .error, .malformed => c.body = none
    | _, _ => False

/-- Whatever is read from the second phase on is read from the first one on. -/
def Leads (ng : Nginx σ κ) (phase : Phase σ κ) (bs : Bytes) (phase' : Phase σ κ) (bs' : Bytes) :
    Prop :=
  ∀ report, Reads ng phase' bs' report → Reads ng phase bs report

/-- After a call that read a part of the `n` bytes in the buffer, with `w` to come. -/
def Served (ng : Nginx σ κ) (phase : Phase σ κ) (bs : Bytes) (n : ℕ) (w : Bytes)
    (r : Sock × Ctx σ κ × Answer) : Prop :=
  match r.2.2 with
  | .again => ∃ phase' line, Ready ng r.1 r.2.1 phase' line ∧ r.1.unread.length < n ∧ Leads ng phase bs phase' (line ++ r.1.unread ++ w)
  | .ok => ∃ report, Reads ng phase bs report ∧ Delivered .ok r.2.1 report
  | .error => ∃ report, Reads ng phase bs report ∧ Delivered .error r.2.1 report
  | .large => True
  | .stray => False
  | .loops => False

theorem Leads.served {phase phase' : Phase σ κ} {bs bs' w : Bytes} {n n' : ℕ}
    (hleads : Leads ng phase bs phase' bs') (hn : n' ≤ n) {r : Sock × Ctx σ κ × Answer}
    (h : Served ng phase' bs' n' w r) : Served ng phase bs n w r := by
  obtain ⟨s, c, a⟩ := r
  cases a with
  | again =>
    obtain ⟨phase'', line, hready, hlt, hleads'⟩ := h
    exact ⟨phase'', line, hready, Nat.lt_of_lt_of_le hlt hn,
      fun report hr => hleads report (hleads' report hr)⟩
  | ok =>
    obtain ⟨report, hr, hd⟩ := h
    exact ⟨report, hleads report hr, hd⟩
  | error =>
    obtain ⟨report, hr, hd⟩ := h
    exact ⟨report, hleads report hr, hd⟩
  | large => trivial
  | stray => exact h.elim
  | loops => exact h.elim

theorem between_left (xs ys : Bytes) {a b : ℤ} (ha : 0 ≤ a) (hb : b ≤ xs.length) :
    between (xs ++ ys) (some a) (some b) = between xs (some a) (some b) := by
  simp only [between, List.drop_append]
  rw [List.take_append_of_le_length]
  rw [List.length_drop]
  omega

/-- The pointers after a call are those of the marks in the whole line. -/
theorem place_points {ι ρ : Type} {s : Sock} {line : Bytes} {m : ι → Option ℤ}
    {ptr : ι → Option Ptr} (h : Points s line m ptr) (r : Reply σ ι ρ) (i : ι) (a : ℤ)
    (ha : (r.after line.length m).mark i = some a) :
    place s.here r.mark ptr i = some ⟨s.buffer.id, s.buffer.pos - line.length + a⟩ := by
  rw [after_mark] at ha
  unfold place
  cases hr : r.mark i with
  | none =>
    rw [hr] at ha
    exact h i a ha
  | some b =>
    rw [hr] at ha
    have hab : (line.length : ℤ) + b = a := Option.some.inj ha
    have hoff : (s.buffer.pos : ℤ) + b = s.buffer.pos - line.length + a := by omega
    simp only [Sock.here, hoff]

/-- The line took all that was unread. -/
theorem points_advance {ι ρ : Type} {s : Sock} {line : Bytes} {m : ι → Option ℤ}
    {ptr : ι → Option Ptr} (hs : Buffered s) (h : Points s line m ptr) (r : Reply σ ι ρ)
    (hused : r.used = s.unread.length) :
    Points (s.advance r.used) (line ++ s.unread) (r.after line.length m).mark
      (place s.here r.mark ptr) := by
  intro i a ha
  rw [place_points h r i a ha]
  have hpos := hs.pos_le
  simp only [id_advance, pos_advance, List.length_append, hused, Option.some.injEq, Ptr.mk.injEq,
    true_and]
  omega

theorem text_advance {s : Sock} {line : Bytes} (h : line <:+ s.data.take s.buffer.pos) {n : ℕ}
    (hn : n = s.unread.length) : line ++ s.unread <:+ (s.advance n).data.take (s.advance n).buffer.pos := by
  have := suffix_advance h n
  rw [hn, List.take_length] at this
  rw [hn]
  exact this

theorem noBody_of {c c' : Ctx σ κ} (h : NoBody ng c) (hdone : c'.headerDone = c.headerDone)
    (hrest : c'.rest = c.rest) (hlen : c'.bodyLen = c.bodyLen) (hchunks : c'.chunks = c.chunks)
    (hchunked : c'.chunked = c.chunked) (hbody : c'.body = c.body) : NoBody ng c' where
  headerDone := hdone.trans h.headerDone
  rest := hrest.trans h.rest
  bodyLen := hlen.trans h.bodyLen
  chunks := hchunks.trans h.chunks
  chunked := hchunked.trans h.chunked
  body := hbody.trans h.body

/-- The reader is to parse a part of a status line that fills a buffer other than the one
where it saw its first byte. -/
def StraysAt (ng : Nginx σ κ) (s : Sock) (c : Ctx σ κ) : Prop :=
  c.headerDone = false ∧ c.statusCode = 0 ∧ (ng.statusLine c.r s.unread).result = none ∧
    Strayed s c

theorem readStatusLine_none {s : Sock} {c : Ctx σ κ}
    (hr : (ng.statusLine c.r s.unread).result = none) :
    readStatusLine ng conf s c = askMore ng conf (s.advance (ng.statusLine c.r s.unread).used)
      (c.status s (ng.statusLine c.r s.unread)) := by
  simp only [readStatusLine, hr]

theorem readStatusLine_error {s : Sock} {c : Ctx σ κ}
    (hr : (ng.statusLine c.r s.unread).result = some .error) :
    readStatusLine ng conf s c = (s, c.status s (ng.statusLine c.r s.unread), .error) := by
  simp only [readStatusLine, hr]

theorem readStatusLine_ok {s : Sock} {c : Ctx σ κ} {code : ℕ} {text : Bytes}
    (hr : (ng.statusLine c.r s.unread).result = some (.ok code))
    (htext : span s.mem (place s.here (ng.statusLine c.r s.unread).mark c.statusPtr .start)
      (place s.here (ng.statusLine c.r s.unread).mark c.statusPtr .stop) = some text) :
    readStatusLine ng conf s c = (s.consume (ng.statusLine c.r s.unread).used,
      { c.status s (ng.statusLine c.r s.unread) with statusCode := code, statusLine := text },
      .again) := by
  have hmem : ∀ n, (s.consume n).mem = s.mem := fun _ => rfl
  simp only [readStatusLine, hr, hmem, Ctx.status, htext]

/-- A part of a status line. -/
theorem status_part (lawful : Lawful ng) {s : Sock} {c : Ctx σ κ} {p : σ} {t line : Bytes}
    (h : AtStatus ng s c p t line) (hs : Buffered s) (hstart : c.requestStart ≠ none)
    (hu : s.unread ≠ []) (hr : (ng.statusLine c.r s.unread).result = none) :
    AtStatus ng (s.advance (ng.statusLine c.r s.unread).used)
      (c.status s (ng.statusLine c.r s.unread)) p t (line ++ s.unread) := by
  obtain ⟨m, hwaits, hpoints⟩ := h.waits
  have hused : (ng.statusLine c.r s.unread).used = s.unread.length := lawful.status.asks _ _ hr
  refine ⟨h.head, noBody_of h.noBody rfl rfl rfl rfl rfl rfl, h.first,
    fun hnil => absurd (List.append_eq_nil_iff.mp hnil).2 hu, ⟨_, hwaits.append lawful.status hr, points_advance hs hpoints _ hused⟩, ?_,
    text_advance h.text hused, fun _ => hstart, ?_⟩
  · intro _
    exact lawful.status_asks c.r s.unread hu hr
  · intro o ho
    obtain ⟨hlt, hin⟩ := h.start o ho
    refine ⟨hlt, fun hbuf => ?_⟩
    obtain ⟨h0, hle⟩ := hin hbuf
    refine ⟨h0, ?_⟩
    simp only [pos_advance, List.length_append, hused]
    omega

/-- The text of a status line is found in the buffer. -/
theorem status_text (lawful : Lawful ng) {s : Sock} {c : Ctx σ κ} {p : σ} {t line : Bytes}
    (h : AtStatus ng s c p t line) (hs : Buffered s) {code : ℕ}
    (hr : (ng.statusLine c.r s.unread).result = some (.ok code)) (w : Bytes) :
    span s.mem (place s.here (ng.statusLine c.r s.unread).mark c.statusPtr .start)
        (place s.here (ng.statusLine c.r s.unread).mark c.statusPtr .stop) =
      some (lineText (ng.statusLine p (line ++ s.unread ++ w)) (line ++ s.unread ++ w)) := by
  obtain ⟨m, hwaits, hpoints⟩ := h.waits
  have hne : (ng.statusLine c.r s.unread).result ≠ none := by
    rw [hr]
    exact Option.some_ne_none _
  have hall : ng.statusLine p (line ++ s.unread ++ w) =
      (ng.statusLine c.r s.unread).after line.length m := by
    rw [List.append_assoc, hwaits (s.unread ++ w), lawful.status.answers _ _ w hne]
  have hpart : ng.statusLine p (line ++ s.unread) =
      (ng.statusLine c.r s.unread).after line.length m := hwaits s.unread
  have hok : (ng.statusLine p (line ++ s.unread)).result = some (.ok code) := by
    rw [hpart]
    exact hr
  obtain ⟨-, a, b, ha, hb, ha0, hab, hbu⟩ := lawful.status_ok p _ code h.first hok
  have hle := lawful.status.used_le p (line ++ s.unread)
  rw [hpart] at ha hb
  have hspan : span s.mem (some ⟨s.buffer.id, s.buffer.pos - line.length + a⟩)
      (some ⟨s.buffer.id, s.buffer.pos - line.length + b⟩) =
        some (between (line ++ s.unread) (some a) (some b)) :=
    span_line (List.nil_append line).symm h.text hs.pos_le ha0 hab (by omega)
  rw [place_points hpoints _ _ a ha, place_points hpoints _ _ b hb, hspan, lineText, hall, ha, hb,
    between_left _ w ha0 (by omega)]

theorem readStatusLine_served (lawful : Lawful ng) {s : Sock} {c : Ctx σ κ} {p : σ}
    {t line : Bytes} (hs : Buffered s) (h : AtStatus ng s c p t line)
    (hstart : c.requestStart ≠ none) (hu : s.unread ≠ []) (w : Bytes) :
    (¬ StraysAt ng s c → Served ng (.status p t) (line ++ s.unread ++ w) s.unread.length w
        (readStatusLine ng conf s c)) ∧
      (StraysAt ng s c → (readStatusLine ng conf s c).2.2 = .stray) := by
  have hcode : c.statusCode = 0 := congrArg Message.Head.code h.head
  have hdone : c.headerDone = false := h.noBody.headerDone
  have hlen : 0 < s.unread.length := List.length_pos_iff.mpr hu
  have hused := lawful.status.used_le c.r s.unread
  cases hr : (ng.statusLine c.r s.unread).result with
  | none =>
    have hall := lawful.status.asks _ _ hr
    have hempty : (s.advance (ng.statusLine c.r s.unread).used).unread = [] := by
      rw [unread_advance, hall]
      exact List.drop_length
    have hstrays : StraysAt ng s c ↔ Strayed (s.advance (ng.statusLine c.r s.unread).used)
        (c.status s (ng.statusLine c.r s.unread)) :=
      ⟨fun hst => hst.2.2.2, fun hst => ⟨hdone, hcode, hr, hst⟩⟩
    rw [readStatusLine_none hr, hstrays]
    rcases askMore_status conf (hs.advance (Nat.le_of_eq hall))
        (status_part lawful h hs hstart hu hr) (List.append_ne_nil_of_right_ne_nil _ hu) hempty with
      ⟨hnot, hagain, hready, hread⟩ | ⟨hnot, hlarge⟩ | ⟨hstray, hans⟩
    · refine ⟨fun _ => ?_, fun hst => absurd hst hnot⟩
      simp only [Served, hagain]
      refine ⟨_, _, hready, ?_, ?_⟩
      · rw [hread]
        exact hlen
      · intro report hreport
        rw [hread, List.append_nil] at hreport
        exact hreport
    · refine ⟨fun _ => ?_, fun hst => absurd hst hnot⟩
      simp only [Served, hlarge]
    · exact ⟨fun hno => absurd hstray hno, fun _ => hans⟩
  | some result =>
    have hnot : ¬ StraysAt ng s c := by
      rintro ⟨-, -, hnone, -⟩
      rw [hr] at hnone
      cases hnone
    refine ⟨fun _ => ?_, fun hst => absurd hst hnot⟩
    obtain ⟨m, hwaits, hpoints⟩ := h.waits
    have hne : (ng.statusLine c.r s.unread).result ≠ none := by
      rw [hr]
      exact Option.some_ne_none result
    have hall : ng.statusLine p (line ++ s.unread ++ w) =
        (ng.statusLine c.r s.unread).after line.length m := by
      rw [List.append_assoc, hwaits (s.unread ++ w), lawful.status.answers _ _ w hne]
    cases result with
    | error =>
      rw [readStatusLine_error hr]
      exact ⟨⟨.malformed, noHead t, []⟩, .status_error (by rw [hall]; exact hr), h.head,
        h.noBody.body⟩
    | ok code =>
      rw [readStatusLine_ok hr (status_text lawful h hs hr w)]
      have hpos := lawful.status_used _ _ _ hr
      have hpart : ng.statusLine p (line ++ s.unread) =
          (ng.statusLine c.r s.unread).after line.length m := hwaits s.unread
      have hnext : ng.state (ng.statusLine c.r s.unread).next = 0 := by
        have hok : (ng.statusLine p (line ++ s.unread)).result = some (.ok code) := by
          rw [hpart]
          exact hr
        have := (lawful.status_ok p _ code h.first hok).1
        rw [hpart] at this
        exact this
      have hrest : (line ++ s.unread ++ w).drop (ng.statusLine p (line ++ s.unread ++ w)).used =
          [] ++ (s.consume (ng.statusLine c.r s.unread).used).unread ++ w := by
        rw [hall, after_used, unread_consume, List.append_assoc, ← List.drop_drop,
          List.drop_left, List.drop_append_of_le_length hused, List.nil_append]
      refine ⟨afterStatus (ng.statusLine c.r s.unread).next code
        (lineText (ng.statusLine p (line ++ s.unread ++ w)) (line ++ s.unread ++ w)), [],
        ⟨?_, hs.consume hused, fun hnil => absurd rfl hnil⟩, ?_, ?_⟩
      · have hbody : NoBody ng c := h.noBody
        have hheaders : c.headers = [] := congrArg Message.Head.headers h.head
        have hlengths : c.lengths = ⟨none, false⟩ := congrArg Message.Head.lengths h.head
        by_cases hzero : code = 0
        · subst hzero
          rw [afterStatus, if_pos rfl]
          refine .status ⟨?_, noBody_of hbody rfl rfl rfl rfl rfl rfl, hnext, fun _ => rfl,
            ⟨fun _ => none, waits_nil _ _, ?_⟩, ?_, List.nil_suffix, ?_, ?_⟩
          · simp only [headOf, Ctx.status, hheaders, hlengths]
            rfl
          · intro i a ha
            cases ha
          · intro hnil
            exact absurd rfl hnil
          · intro hnil
            exact absurd rfl hnil
          · intro o ho
            obtain ⟨hlt, hin⟩ := h.start o ho
            refine ⟨hlt, fun hbuf => ?_⟩
            obtain ⟨h0, hle⟩ := hin hbuf
            refine ⟨h0, ?_⟩
            simp only [pos_consume, List.length_nil]
            omega
        · rw [afterStatus, if_neg hzero]
          refine .headers ⟨?_, hzero, noBody_of hbody rfl rfl rfl rfl rfl rfl, ?_, hnext,
            .inl ⟨rfl, rfl⟩, fun _ => none, [], [], named_nil rfl hnext⟩
          · simp only [headOf, Ctx.status, hheaders, hlengths]
          · intro hchunked
            cases hchunked
      · rw [unread_consume, List.length_drop]
        omega
      · intro report hreport
        apply Reads.status_ok (by rw [hall]; exact hr)
        rw [hrest, hall]
        rw [hall] at hreport
        exact hreport

/-! ### Header lines -/

/-- The body may begin in the buffer. -/
structure AtBody (ng : Nginx σ κ) (s : Sock) (c : Ctx σ κ) (head : Message.Head) : Prop where
  inBody : InBody s c head []
  rest : c.rest = 0
  bodyLen : c.bodyLen = 0
  chunks : c.chunks = []
  chunked : c.chunked = ng.unchunked
  last : s.inLast = s.here

theorem AtBody.stands {s : Sock} {c : Ctx σ κ} {head : Message.Head} (h : AtBody ng s c head)
    (hlen : head.lengths.contentLength ≠ some 0) : Stands ng s c (bodyPhase ng head) [] := by
  unfold bodyPhase
  by_cases hchunked : head.lengths.chunked = true
  · rw [if_pos hchunked, ← h.chunked]
    exact .chunks h.inBody hchunked h.bodyLen h.rest
  · rw [if_neg hchunked]
    cases hn : head.lengths.contentLength with
    | none => exact .unframed h.inBody (by simpa using hchunked) hn h.bodyLen
    | some n =>
      have hpos : 0 < n := by
        rw [hn] at hlen
        exact Nat.pos_of_ne_zero fun hzero => hlen (by rw [hzero])
      exact .unsized h.inBody hn hpos h.bodyLen h.rest h.last

/-- The loop over the lines answers, or the body follows in the buffer. -/
def LinesServed (ng : Nginx σ κ) (phase : Phase σ κ) (bs : Bytes) (n : ℕ) (w : Bytes)
    (r : Sock × Ctx σ κ × Option Answer) : Prop :=
  match r.2.2 with
  | some answer => Served ng phase bs n w (r.1, r.2.1, answer)
  | none => ∃ head, AtBody ng r.1 r.2.1 head ∧ Buffered r.1 ∧ r.1.unread ≠ [] ∧
      r.1.unread.length < n ∧ Leads ng phase bs (bodyPhase ng head) (r.1.unread ++ w)

theorem Leads.lines {phase phase' : Phase σ κ} {bs bs' w : Bytes} {n : ℕ}
    (hleads : Leads ng phase bs phase' bs') {r : Sock × Ctx σ κ × Option Answer}
    (h : LinesServed ng phase' bs' n w r) : LinesServed ng phase bs n w r := by
  obtain ⟨s, c, a⟩ := r
  cases a with
  | some answer => exact hleads.served (Nat.le_refl n) h
  | none =>
    obtain ⟨head, hat, hs, hne, hlt, hleads'⟩ := h
    exact ⟨head, hat, hs, hne, hlt, fun report hr => hleads report (hleads' report hr)⟩

theorem marks_after (lawful : Lawful ng) {p q : σ} {line xs : Bytes} {m : HeaderMark → Option ℤ}
    (hw : Waits ng.headerLine p line q m) (i : HeaderMark) (a : ℤ)
    (ha : ((ng.headerLine q xs).after line.length m).mark i = some a) : 0 ≤ a := by
  rw [← hw xs] at ha
  exact lawful.header_marks _ _ _ a ha

/-- The name of the header begins in what the buffer still holds of the line. -/
theorem name_kept (lawful : Lawful ng) {s : Sock} {c : Ctx σ κ} {p : σ} {line dropped kept : Bytes}
    {m : HeaderMark → Option ℤ} (hn : Named ng s c p line m dropped kept)
    (hasked : line = [] ∨ ng.state c.r ≠ 0) {a : ℤ}
    (ha : ((ng.headerLine c.r s.unread).after line.length m).mark .nameStart = some a) :
    dropped.length ≤ a := by
  have hsplit := congrArg List.length hn.split
  have ha0 := marks_after lawful hn.waits _ a ha
  rw [List.length_append] at hsplit
  rw [after_mark] at ha
  cases hr : (ng.headerLine c.r s.unread).mark .nameStart with
  | some b =>
    have hb := lawful.header_marks _ _ _ b hr
    rw [hr] at ha
    have hab : (line.length : ℤ) + b = a := Option.some.inj ha
    omega
  | none =>
    rw [hr] at ha
    have hma : m .nameStart = some a := ha
    rcases hasked with hnil | hstate
    · rw [hnil, List.length_nil] at hsplit
      omega
    · obtain ⟨a', ha', hle, -⟩ := hn.name hstate
      rw [hma] at ha'
      cases ha'
      exact hle

/-- A part of a header line. -/
theorem header_part (lawful : Lawful ng) {s : Sock} {c : Ctx σ κ} {p : σ} {head : Message.Head}
    {line : Bytes} (hs : Buffered s) (h : AtHeader ng s c p head line)
    (hr : (ng.headerLine c.r s.unread).result = none) (w : Bytes) :
    ∃ p' line', AtHeader ng (s.advance (ng.headerLine c.r s.unread).used)
        (c.header s (ng.headerLine c.r s.unread)) p' head line' ∧
      Leads ng (.headers p head) (line ++ s.unread ++ w) (.headers p' head) (line' ++ w) := by
  obtain ⟨m, dropped, kept, hn⟩ := h.named
  have hused := lawful.header.asks _ _ hr
  have hwaits := hn.waits.append lawful.header hr
  have hbody : NoBody ng (c.header s (ng.headerLine c.r s.unread)) :=
    noBody_of h.noBody rfl rfl rfl rfl rfl rfl
  by_cases hzero : ng.state (ng.headerLine c.r s.unread).next = 0
  · refine ⟨(ng.headerLine c.r s.unread).next, [], ⟨h.head_eq, h.code, hbody, h.exclusive, hzero,
      .inl ⟨rfl, rfl⟩, fun _ => none, [], [], named_nil rfl hzero⟩, ?_⟩
    intro report hreport
    exact Reads.restart lawful hwaits hzero hreport
  · have hne : line ++ s.unread ≠ [] := by
      intro hnil
      obtain ⟨hline, hu⟩ := List.append_eq_nil_iff.mp hnil
      rcases h.asked with ⟨-, hr⟩ | ⟨hline', -⟩
      · rw [hu, lawful.header_nil, hr] at hzero
        exact hzero h.first
      · exact hline' hline
    refine ⟨p, line ++ s.unread, ⟨h.head_eq, h.code, hbody, h.exclusive, h.first, .inr ⟨hne, hzero⟩,
      _, dropped, kept ++ s.unread, ⟨hwaits, points_advance hs hn.points _ hused, ?_,
        text_advance hn.text hused, ?_⟩⟩, ?_⟩
    · rw [hn.split, List.append_assoc]
    · intro _
      have hpart : ng.headerLine p (line ++ s.unread) =
          (ng.headerLine c.r s.unread).after line.length m := hn.waits s.unread
      have hnone : (ng.headerLine p (line ++ s.unread)).result = none := by
        rw [hpart]
        exact hr
      have hstate : ng.state (ng.headerLine p (line ++ s.unread)).next ≠ 0 := by
        rw [hpart]
        exact hzero
      obtain ⟨a, ha, hle⟩ := lawful.header_asks p _ h.first hnone hstate
      rw [hpart] at ha
      exact ⟨a, ha, name_kept lawful hn (h.asked.imp And.left And.right) ha, hle⟩
    · intro report hreport
      exact hreport

/-- The key and the value of a header line are found in the buffer. -/
theorem header_text (lawful : Lawful ng) {s : Sock} {c : Ctx σ κ} {p : σ} {head : Message.Head}
    {line : Bytes} (hs : Buffered s) (h : AtHeader ng s c p head line) {hash : ℕ} {lowcase : Bytes}
    (hr : (ng.headerLine c.r s.unread).result = some (.ok hash lowcase)) (w : Bytes) :
    ∃ key value,
      span s.mem (place s.here (ng.headerLine c.r s.unread).mark c.headerPtr .nameStart)
          (place s.here (ng.headerLine c.r s.unread).mark c.headerPtr .nameEnd) = some key ∧
        span s.mem (place s.here (ng.headerLine c.r s.unread).mark c.headerPtr .start)
          (place s.here (ng.headerLine c.r s.unread).mark c.headerPtr .stop) = some value ∧
        newHeader hash lowcase key value =
          lineHeader (ng.headerLine p (line ++ s.unread ++ w)) (line ++ s.unread ++ w) hash
            lowcase := by
  obtain ⟨m, dropped, kept, hn⟩ := h.named
  have hne : (ng.headerLine c.r s.unread).result ≠ none := by
    rw [hr]
    exact Option.some_ne_none _
  have hall : ng.headerLine p (line ++ s.unread ++ w) =
      (ng.headerLine c.r s.unread).after line.length m := by
    rw [List.append_assoc, hn.waits (s.unread ++ w), lawful.header.answers _ _ w hne]
  have hpart : ng.headerLine p (line ++ s.unread) =
      (ng.headerLine c.r s.unread).after line.length m := hn.waits s.unread
  have hok : (ng.headerLine p (line ++ s.unread)).result = some (.ok hash lowcase) := by
    rw [hpart]
    exact hr
  obtain ⟨-, a, b, v, z, ha, hb, hv, hz, hab, hbu, hav, hvz, hzu⟩ :=
    lawful.header_ok p _ hash lowcase h.first hok
  have hle := lawful.header.used_le p (line ++ s.unread)
  rw [hpart] at ha hb hv hz
  have hda := name_kept lawful hn (h.asked.imp And.left And.right) ha
  have ha0 : 0 ≤ a := marks_after lawful hn.waits _ a ha
  have hkey : span s.mem (some ⟨s.buffer.id, s.buffer.pos - line.length + a⟩)
      (some ⟨s.buffer.id, s.buffer.pos - line.length + b⟩) =
        some (between (line ++ s.unread) (some a) (some b)) :=
    span_line hn.split hn.text hs.pos_le hda hab (by omega)
  have hvalue : span s.mem (some ⟨s.buffer.id, s.buffer.pos - line.length + v⟩)
      (some ⟨s.buffer.id, s.buffer.pos - line.length + z⟩) =
        some (between (line ++ s.unread) (some v) (some z)) :=
    span_line hn.split hn.text hs.pos_le (by omega) hvz (by omega)
  refine ⟨between (line ++ s.unread) (some a) (some b), between (line ++ s.unread) (some v) (some z),
    ?_, ?_, ?_⟩
  · rw [place_points hn.points _ _ a ha, place_points hn.points _ _ b hb]
    exact hkey
  · rw [place_points hn.points _ _ v hv, place_points hn.points _ _ z hz]
    exact hvalue
  · rw [lineHeader, hall, ha, hb, hv, hz, between_left _ w ha0 (by omega),
      between_left _ w (by omega) (by omega)]

section
variable {s : Sock} {c : Ctx σ κ} {bytes fuel : ℕ}

theorem readHeaderLines_none (hr : (ng.headerLine c.r s.unread).result = none) :
    readHeaderLines ng conf bytes (fuel + 1) s c =
      ((askMore ng conf (s.advance (ng.headerLine c.r s.unread).used)
          (c.header s (ng.headerLine c.r s.unread))).1,
        (askMore ng conf (s.advance (ng.headerLine c.r s.unread).used)
          (c.header s (ng.headerLine c.r s.unread))).2.1,
        some (askMore ng conf (s.advance (ng.headerLine c.r s.unread).used)
          (c.header s (ng.headerLine c.r s.unread))).2.2) := by
  simp only [readHeaderLines, hr]

theorem readHeaderLines_invalid (hr : (ng.headerLine c.r s.unread).result = some .invalid) :
    readHeaderLines ng conf bytes (fuel + 1) s c =
      (s, c.header s (ng.headerLine c.r s.unread), some .error) := by
  simp only [readHeaderLines, hr]

theorem readHeaderLines_done (hr : (ng.headerLine c.r s.unread).result = some .done) :
    readHeaderLines ng conf bytes (fuel + 1) s c =
      (s.consume (ng.headerLine c.r s.unread).used,
        { c.header s (ng.headerLine c.r s.unread) with headerDone := true },
        if bytes ≤ s.buffer.pos + (ng.headerLine c.r s.unread).used then
          some (if c.lengths.contentLength = some 0 then .ok else .again)
        else none) := by
  simp only [readHeaderLines, hr, Ctx.header]
  by_cases hcond : bytes ≤ (s.consume (ng.headerLine c.r s.unread).used).buffer.pos
  · rw [if_pos hcond, if_pos (show bytes ≤ s.buffer.pos + _ from hcond)]
    rfl
  · rw [if_neg hcond, if_neg (show ¬ bytes ≤ s.buffer.pos + _ from hcond)]

theorem readHeaderLines_ok {hash : ℕ} {lowcase key value : Bytes}
    (hr : (ng.headerLine c.r s.unread).result = some (.ok hash lowcase))
    (hkey : span s.mem (place s.here (ng.headerLine c.r s.unread).mark c.headerPtr .nameStart)
      (place s.here (ng.headerLine c.r s.unread).mark c.headerPtr .nameEnd) = some key)
    (hvalue : span s.mem (place s.here (ng.headerLine c.r s.unread).mark c.headerPtr .start)
      (place s.here (ng.headerLine c.r s.unread).mark c.headerPtr .stop) = some value) :
    readHeaderLines ng conf bytes (fuel + 1) s c =
      match ng.handler c.headers c.lengths (newHeader hash lowcase key value) with
      | some lengths =>
        readHeaderLines ng conf bytes fuel (s.consume (ng.headerLine c.r s.unread).used)
          { c.header s (ng.headerLine c.r s.unread) with
            headers := c.headers ++ [newHeader hash lowcase key value], lengths }
      | none => (s.consume (ng.headerLine c.r s.unread).used,
          { c.header s (ng.headerLine c.r s.unread) with
            headers := c.headers ++ [newHeader hash lowcase key value] }, some .error) := by
  have hmem : ∀ n, (s.consume n).mem = s.mem := fun _ => rfl
  cases hh : ng.handler c.headers c.lengths (newHeader hash lowcase key value) with
  | none => simp only [readHeaderLines, hr, hmem, Ctx.header, hkey, hvalue, hh]
  | some lengths => simp only [readHeaderLines, hr, hmem, Ctx.header, hkey, hvalue, hh]

end

theorem readHeaderLines_served (lawful : Lawful ng) (w : Bytes) (bytes n : ℕ) (hn : 0 < n)
    (fuel : ℕ) : ∀ (s : Sock) (c : Ctx σ κ) (p : σ) (head : Message.Head) (line : Bytes),
      Buffered s → AtHeader ng s c p head line → s.unread.length < fuel → s.unread.length ≤ n →
        bytes ≤ s.data.length →
        LinesServed ng (.headers p head) (line ++ s.unread ++ w) n w
          (readHeaderLines ng conf bytes fuel s c) := by
  induction fuel with
  | zero =>
    intro s c p head line _ _ hlt _ _
    exact absurd hlt (Nat.not_lt_zero _)
  | succ fuel ih =>
    intro s c p head line hs h hlt hle hbytes
    have hused := lawful.header.used_le c.r s.unread
    have hheaders : c.headers = head.headers := congrArg Message.Head.headers h.head_eq
    have hlengths : c.lengths = head.lengths := congrArg Message.Head.lengths h.head_eq
    cases hr : (ng.headerLine c.r s.unread).result with
    | none =>
      have hall := lawful.header.asks _ _ hr
      have hempty : (s.advance (ng.headerLine c.r s.unread).used).unread = [] := by
        rw [unread_advance, hall]
        exact List.drop_length
      obtain ⟨p', line', hat, hleads⟩ := header_part lawful hs h hr w
      rw [readHeaderLines_none hr]
      refine hleads.served (Nat.le_refl n) ?_
      rcases askMore_header conf (hs.advance hused) hat hempty with
        ⟨hagain, hready, hread⟩ | hlarge
      · simp only [Served, hagain]
        refine ⟨_, _, hready, ?_, ?_⟩
        · rw [hread]
          exact hn
        · intro report hreport
          rw [hread, List.append_nil] at hreport
          exact hreport
      · simp only [Served, hlarge]
    | some result =>
      obtain ⟨m, dropped, kept, hnamed⟩ := h.named
      have hne : (ng.headerLine c.r s.unread).result ≠ none := by
        rw [hr]
        exact Option.some_ne_none result
      have hwhole : ng.headerLine p (line ++ s.unread ++ w) =
          (ng.headerLine c.r s.unread).after line.length m := by
        rw [List.append_assoc, hnamed.waits (s.unread ++ w), lawful.header.answers _ _ w hne]
      have hresult : (ng.headerLine p (line ++ s.unread ++ w)).result = some result := by
        rw [hwhole]
        exact hr
      have hrest : (line ++ s.unread ++ w).drop (ng.headerLine p (line ++ s.unread ++ w)).used =
          (s.consume (ng.headerLine c.r s.unread).used).unread ++ w := by
        rw [hwhole, after_used, unread_consume, List.append_assoc, ← List.drop_drop,
          List.drop_left, List.drop_append_of_le_length hused]
      have hnext : (ng.headerLine p (line ++ s.unread ++ w)).next =
          (ng.headerLine c.r s.unread).next := by
        rw [hwhole]
        rfl
      cases result with
      | invalid =>
        rw [readHeaderLines_invalid hr]
        exact ⟨⟨.malformed, head, []⟩, .header_invalid hresult, h.head_eq, h.noBody.body⟩
      | done =>
        have hpos := lawful.header_used _ _ _ hr (by decide)
        have hshorter : (s.consume (ng.headerLine c.r s.unread).used).unread.length < n := by
          rw [unread_consume, List.length_drop]
          omega
        rw [readHeaderLines_done hr]
        have hat : AtBody ng (s.consume (ng.headerLine c.r s.unread).used)
            { c.header s (ng.headerLine c.r s.unread) with headerDone := true } head := by
          refine ⟨⟨rfl, h.head_eq, h.code, h.exclusive, ?_, ?_, h.noBody.body⟩, h.noBody.rest,
            h.noBody.bodyLen, h.noBody.chunks, h.noBody.chunked, rfl⟩
          · simp only [Ctx.header, h.noBody.chunks]
            rfl
          · intro chunk hmem
            simp only [Ctx.header, h.noBody.chunks] at hmem
            cases hmem
        have hleads : Leads ng (.headers p head) (line ++ s.unread ++ w) (bodyPhase ng head)
            ((s.consume (ng.headerLine c.r s.unread).used).unread ++ w) := by
          intro report hreport
          refine .header_done hresult ?_
          rw [hrest]
          exact hreport
        by_cases hcond : bytes ≤ s.buffer.pos + (ng.headerLine c.r s.unread).used
        · rw [if_pos hcond]
          by_cases hzero : c.lengths.contentLength = some 0
          · rw [if_pos hzero]
            rw [hlengths] at hzero
            have hnot : ¬ head.lengths.chunked = true := by
              intro hchunked
              rw [h.exclusive hchunked] at hzero
              cases hzero
            refine ⟨⟨.whole, head, []⟩, hleads _ ?_, h.head_eq, ?_, hat.bodyLen⟩
            · rw [bodyPhase, if_neg hnot, hzero]
              exact .sized_whole (Nat.zero_le _)
            · simp only [Ctx.header, h.noBody.body]
              rfl
          · rw [if_neg hzero]
            rw [hlengths] at hzero
            exact ⟨_, [], ⟨hat.stands hzero, hs.consume hused, fun hnil => absurd rfl hnil⟩,
              hshorter, hleads⟩
        · rw [if_neg hcond]
          refine ⟨head, hat, hs.consume hused, ?_, hshorter, hleads⟩
          apply List.ne_nil_of_length_pos
          rw [unread_consume, List.length_drop, unread_length]
          omega
      | ok hash lowcase =>
        have hpos := lawful.header_used _ _ _ hr (by simp)
        obtain ⟨key, value, hkey, hvalue, hheader⟩ := header_text lawful hs h hr w
        rw [readHeaderLines_ok hr hkey hvalue, hheader, hheaders, hlengths]
        cases hhandler : ng.handler head.headers head.lengths
            (lineHeader (ng.headerLine p (line ++ s.unread ++ w)) (line ++ s.unread ++ w) hash
              lowcase) with
        | none =>
          refine ⟨⟨.malformed, head.add _ head.lengths, []⟩, .header_refused hresult hhandler, ?_,
            h.noBody.body⟩
          rw [← h.head_eq]
          rfl
        | some lengths =>
          have hfirst : ng.state (ng.headerLine c.r s.unread).next = 0 := by
            have hpart : ng.headerLine p (line ++ s.unread) =
                (ng.headerLine c.r s.unread).after line.length m := hnamed.waits s.unread
            have hok : (ng.headerLine p (line ++ s.unread)).result = some (.ok hash lowcase) := by
              rw [hpart]
              exact hr
            have := (lawful.header_ok p _ hash lowcase h.first hok).1
            rw [hpart] at this
            exact this
          have hleads : Leads ng (.headers p head) (line ++ s.unread ++ w)
              (.headers (ng.headerLine c.r s.unread).next (head.add
                (lineHeader (ng.headerLine p (line ++ s.unread ++ w)) (line ++ s.unread ++ w) hash
                  lowcase) lengths))
              ([] ++ (s.consume (ng.headerLine c.r s.unread).used).unread ++ w) := by
            intro report hreport
            refine .header_ok hresult hhandler ?_
            rw [hrest, hnext]
            exact hreport
          refine hleads.lines (ih _ _ _ _ _ (hs.consume hused) ?_ ?_ ?_ hbytes)
          · refine ⟨?_, h.code, noBody_of h.noBody rfl rfl rfl rfl rfl rfl,
              lawful.exclusive _ _ _ _ hhandler, hfirst, .inl ⟨rfl, rfl⟩, fun _ => none, [], [],
              named_nil rfl hfirst⟩
            rw [← h.head_eq]
            rfl
          · rw [unread_consume, List.length_drop]
            omega
          · rw [unread_consume, List.length_drop]
            omega

end NgxWasm.Socket.ReadLines
