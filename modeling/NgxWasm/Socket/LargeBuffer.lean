import NgxWasm.Socket.ReaderState

/-!
# A line that goes on in a large buffer

When a buffer is full in the middle of a line, the line moves to a large buffer from the
start of the status line or of the header name on, and the pointers move with it.
-/

namespace NgxWasm.Socket.LargeBuffer

open NgxWasm NgxWasm.Lib.Parsers NgxWasm.Socket.HttpReader NgxWasm.Socket.Message
open NgxWasm.Socket.Reading NgxWasm.Socket.ReaderState

variable {σ κ : Type} {ng : Nginx σ κ} {conf : Conf}

/-- The buffer is full and the status line that `request_start` points to began in another. -/
def Strayed (s : Sock) (c : Ctx σ κ) : Prop :=
  s.full = true ∧ ∃ old, c.requestStart = some old ∧ old.buf ≠ s.buffer.id

/-- `old` lies in the buffer, and what follows it fits into a large buffer. -/
structure Fits (conf : Conf) (s : Sock) (old : Ptr) : Prop where
  buf : old.buf = s.buffer.id
  nonneg : 0 ≤ old.off
  le : old.off ≤ s.buffer.pos
  size : (s.buffer.pos : ℤ) - old.off < conf.largeSize

section
variable {s : Sock} {c : Ctx σ κ} {old : Ptr}

theorem moveLine_data : (moveLine conf s c old).1.data =
    (s.data.take s.buffer.pos).drop old.off.toNat := by
  simp [moveLine, Sock.data, Sock.store]

theorem moveLine_id : (moveLine conf s c old).1.buffer.id = s.nextBuf := rfl

theorem moveLine_pos (hs : Buffered s) (fits : Fits conf s old) :
    ((moveLine conf s c old).1.buffer.pos : ℤ) = s.buffer.pos - old.off := by
  have hpos := hs.pos_le
  have h0 := fits.nonneg
  have hle := fits.le
  simp only [moveLine, List.length_drop, List.length_take]
  omega

theorem moveLine_take : (moveLine conf s c old).1.data.take (moveLine conf s c old).1.buffer.pos =
    (moveLine conf s c old).1.data := by
  rw [moveLine_data]
  exact List.take_length

theorem moveLine_unread : (moveLine conf s c old).1.unread = [] := by
  rw [Sock.unread, moveLine_data]
  exact List.drop_length

theorem moveLine_buffered (hs : Buffered s) (fits : Fits conf s old) :
    Buffered (moveLine conf s c old).1 where
  pos_le := by
    rw [moveLine_data]
    exact Nat.le_refl _
  len_le := by
    have hpos := moveLine_pos (c := c) hs fits
    have hsize := fits.size
    rw [moveLine_data]
    have hlen : ((s.data.take s.buffer.pos).drop old.off.toNat).length =
        (moveLine conf s c old).1.buffer.pos := rfl
    have hend : (moveLine conf s c old).1.buffer.size = conf.largeSize := rfl
    omega
  id_lt := Nat.lt_succ_self _

/-- What is in front of `pos` and not in front of `old` is all that moves. -/
theorem moveLine_text (hs : Buffered s) (fits : Fits conf s old) {text : Bytes}
    (hsuffix : text <:+ s.data.take s.buffer.pos)
    (hlen : (text.length : ℤ) ≤ s.buffer.pos - old.off) :
    text <:+ (moveLine conf s c old).1.data.take (moveLine conf s c old).1.buffer.pos := by
  rw [moveLine_take, moveLine_data]
  apply List.suffix_of_suffix_length_le hsuffix (List.drop_suffix _ _)
  have hpos := hs.pos_le
  have h0 := fits.nonneg
  rw [List.length_drop, List.length_take]
  omega

theorem moveLine_full (hs : Buffered s) (fits : Fits conf s old) :
    (moveLine conf s c old).1.full = false := by
  have hpos := moveLine_pos (c := c) hs fits
  have hsize := fits.size
  have hdata : (moveLine conf s c old).1.data.length = (moveLine conf s c old).1.buffer.pos := by
    rw [moveLine_data]
    rfl
  have hend : (moveLine conf s c old).1.buffer.size = conf.largeSize := rfl
  simp only [Sock.full, beq_eq_false_iff_ne, ne_eq]
  omega

theorem moveLine_points {ι : Type} (hs : Buffered s) (fits : Fits conf s old) {line : Bytes}
    {m : ι → Option ℤ} {ptr : ι → Option Ptr} (h : Points s line m ptr) :
    Points (moveLine conf s c old).1 line m fun i => relocate old s.nextBuf (ptr i) := by
  intro i a ha
  have hrelocate : relocate old s.nextBuf
      (some ⟨s.buffer.id, s.buffer.pos - line.length + a⟩) =
        some ⟨s.nextBuf, s.buffer.pos - line.length + a - old.off⟩ := if_pos fits.buf.symm
  have hoff : (s.buffer.pos : ℤ) - line.length + a - old.off =
      (moveLine conf s c old).1.buffer.pos - line.length + a := by
    rw [moveLine_pos hs fits]
    omega
  simp only [h i a ha, hrelocate, moveLine_id, hoff]

end

/-- An incomplete status line. -/
theorem askMore_status (conf : Conf) {s : Sock} {c : Ctx σ κ} {p : σ} {t line : Bytes} (hs : Buffered s)
    (h : AtStatus ng s c p t line) (hline : line ≠ []) (hunread : s.unread = []) :
    (¬ Strayed s c ∧ (askMore ng conf s c).2.2 = .again ∧
        Ready ng (askMore ng conf s c).1 (askMore ng conf s c).2.1 (.status p t) line ∧
        (askMore ng conf s c).1.unread = []) ∨
      (¬ Strayed s c ∧ (askMore ng conf s c).2.2 = .large) ∨
      Strayed s c ∧ (askMore ng conf s c).2.2 = .stray := by
  have hstate := h.asked hline
  have hcode : c.statusCode = 0 := congrArg Message.Head.code h.head
  unfold askMore
  by_cases hfull : s.full = true
  · obtain ⟨old, hold⟩ := Option.ne_none_iff_exists'.mp (h.started hline)
    simp only [hfull, if_true, allocLargeBuffer, hcode, hstate, and_false, if_false, ne_eq,
      not_true_eq_false, hold]
    by_cases hbuf : old.buf = s.buffer.id
    · have hnot : ¬ Strayed s c := by
        rintro ⟨-, o, ho, hne⟩
        rw [hold] at ho
        cases ho
        exact hne hbuf
      obtain ⟨hoff0, hoff⟩ := (h.start old hold).2 hbuf
      have hle : old.off ≤ s.buffer.pos := by omega
      have hcond : ¬ (¬ old.buf = s.buffer.id ∨ old.off < 0 ∨ (s.buffer.pos : ℤ) < old.off) := by
        omega
      simp only [if_neg hcond]
      by_cases hsize : (conf.largeSize : ℤ) ≤ s.buffer.pos - old.off
      · simp [hsize, hnot]
      · simp only [hsize, if_false]
        by_cases hbusy : s.lbusy < conf.largeNum
        · have fits : Fits conf s old := ⟨hbuf, hoff0, hle, by omega⟩
          simp only [hbusy, if_true]
          refine .inl ⟨hnot, trivial, ⟨.status ?_, moveLine_buffered hs fits,
            fun _ _ => moveLine_full hs fits⟩, moveLine_unread⟩
          have hc : (moveLine conf s c old).2 = { c with
              requestStart := some ⟨s.nextBuf, 0⟩
              statusPtr := fun i => relocate old s.nextBuf (c.statusPtr i) } := if_pos hcode
          rw [hc]
          obtain ⟨m, hwaits, hpoints⟩ := h.waits
          refine ⟨h.head, ⟨h.noBody.headerDone, h.noBody.rest, h.noBody.bodyLen, h.noBody.chunks,
            h.noBody.chunked, h.noBody.body⟩, h.first, h.fresh, ⟨m, hwaits, ?_⟩, fun _ => hstate,
            ?_, ?_, ?_⟩
          · exact moveLine_points hs fits hpoints
          · apply moveLine_text hs fits h.text
            omega
          · intro _ hnone
            cases hnone
          · intro o ho
            cases ho
            have hpos := moveLine_pos (c := c) hs fits
            refine ⟨Nat.lt_succ_self _, fun _ => ⟨Int.le_refl 0, ?_⟩⟩
            simp only
            omega
        · simp [hbusy, hnot]
    · have hcond : ¬ old.buf = s.buffer.id ∨ old.off < 0 ∨ (s.buffer.pos : ℤ) < old.off :=
        .inl hbuf
      simp only [if_pos hcond]
      exact .inr (.inr ⟨⟨hfull, old, hold, hbuf⟩, trivial⟩)
  · have hnot : ¬ Strayed s c := fun hst => hfull hst.1
    rw [if_neg hfull]
    exact .inl ⟨hnot, rfl, ⟨.status h, hs, fun _ _ => by simpa using hfull⟩, hunread⟩

/-- A header line has not begun. -/
theorem named_nil {s : Sock} {c : Ctx σ κ} {p : σ} (hr : c.r = p) (hp : ng.state p = 0) :
    Named ng s c p [] (fun _ => none) [] [] where
  waits := by
    rw [hr]
    exact waits_nil _ p
  points := by
    intro i a ha
    cases ha
  split := rfl
  text := List.nil_suffix
  name := by
    intro hne
    rw [hr] at hne
    exact absurd hp hne

theorem moveLine_named {s : Sock} {c : Ctx σ κ} {p : σ} {line dropped kept : Bytes}
    {m : HeaderMark → Option ℤ} {old : Ptr} (hs : Buffered s) (fits : Fits conf s old)
    (hn : Named ng s c p line m dropped kept) (hcode : c.statusCode ≠ 0) {a : ℤ}
    (ha : m .nameStart = some a) (had : dropped.length ≤ a) (hal : a ≤ line.length)
    (hold : old.off = s.buffer.pos - line.length + a) :
    Named ng (moveLine conf s c old).1 (moveLine conf s c old).2 p line m
      (line.take a.toNat) (line.drop a.toNat) := by
  have hc : (moveLine conf s c old).2 =
      { c with headerPtr := fun i => relocate old s.nextBuf (c.headerPtr i) } := if_neg hcode
  have hkept : line.drop a.toNat <:+ kept := by
    have hle : dropped.length ≤ a.toNat := by omega
    rw [hn.split, List.drop_append, List.drop_eq_nil_of_le hle, List.nil_append]
    exact List.drop_suffix _ _
  rw [hc]
  refine ⟨hn.waits, moveLine_points hs fits hn.points,
    (List.take_append_drop _ _).symm, ?_, ?_⟩
  · apply moveLine_text hs fits (hkept.trans hn.text)
    rw [List.length_drop, hold]
    omega
  · intro _
    refine ⟨a, ha, ?_, hal⟩
    rw [List.length_take]
    omega

/-- An incomplete header line. -/
theorem askMore_header (conf : Conf) {s : Sock} {c : Ctx σ κ} {p : σ} {head : Message.Head} {line : Bytes}
    (hs : Buffered s) (h : AtHeader ng s c p head line) (hunread : s.unread = []) :
    ((askMore ng conf s c).2.2 = .again ∧
        Ready ng (askMore ng conf s c).1 (askMore ng conf s c).2.1 (.headers p head) line ∧
        (askMore ng conf s c).1.unread = []) ∨
      (askMore ng conf s c).2.2 = .large := by
  have hcode : c.statusCode ≠ 0 := by
    have heq : c.statusCode = head.code := congrArg Message.Head.code h.head_eq
    rw [heq]
    exact h.code
  unfold askMore
  by_cases hfull : s.full = true
  · simp only [hfull, if_true, allocLargeBuffer, hcode, false_and, if_false, ne_eq,
      not_false_eq_true]
    rcases h.asked with ⟨rfl, hr⟩ | ⟨hline, hstate⟩
    · have hr0 : ng.state c.r = 0 := by
        rw [hr]
        exact h.first
      by_cases hbusy : s.lbusy < conf.largeNum
      · simp only [hr0, hbusy, if_true]
        refine .inl ⟨trivial, ⟨.headers ⟨h.head_eq, h.code, h.noBody, h.exclusive, h.first,
          .inl ⟨rfl, hr⟩, fun _ => none, [], [], named_nil hr h.first⟩,
          ⟨?_, ?_, Nat.lt_succ_self _⟩, fun hne => absurd rfl hne⟩, ?_⟩
        · simp
        · simp [Sock.data, Sock.store]
        · simp [Sock.unread, Sock.data, Sock.store]
      · simp [hr0, hbusy]
    · obtain ⟨m, dropped, kept, hn⟩ := h.named
      obtain ⟨a, ha, had, hal⟩ := hn.name hstate
      obtain ⟨old, hold⟩ : ∃ old, c.headerPtr .nameStart = some old := ⟨_, hn.points _ a ha⟩
      have heq := hn.points _ a ha
      rw [hold] at heq
      have hbuf : old.buf = s.buffer.id := congrArg Ptr.buf (Option.some.inj heq)
      have hoff : old.off = s.buffer.pos - line.length + a :=
        congrArg Ptr.off (Option.some.inj heq)
      have hpos : (line.length : ℤ) - dropped.length ≤ s.buffer.pos := by
        have hlen := hn.text.length_le
        have hsplit := congrArg List.length hn.split
        rw [List.length_append] at hsplit
        rw [List.length_take] at hlen
        omega
      have hcond : ¬ (¬ old.buf = s.buffer.id ∨ old.off < 0 ∨ (s.buffer.pos : ℤ) < old.off) := by
        omega
      simp only [hstate, if_false, hold, if_neg hcond]
      by_cases hsize : (conf.largeSize : ℤ) ≤ s.buffer.pos - old.off
      · simp [hsize]
      · by_cases hbusy : s.lbusy < conf.largeNum
        · have fits : Fits conf s old := ⟨hbuf, by omega, by omega, by omega⟩
          simp only [hsize, hbusy, if_false, if_true]
          refine .inl ⟨trivial, ⟨.headers ?_, moveLine_buffered hs fits,
            fun _ _ => moveLine_full hs fits⟩, moveLine_unread⟩
          have hnamed := moveLine_named hs fits hn hcode ha had hal hoff
          have hc : (moveLine conf s c old).2 =
              { c with headerPtr := fun i => relocate old s.nextBuf (c.headerPtr i) } :=
            if_neg hcode
          rw [hc] at hnamed ⊢
          exact ⟨h.head_eq, h.code, ⟨h.noBody.headerDone, h.noBody.rest, h.noBody.bodyLen,
            h.noBody.chunks, h.noBody.chunked, h.noBody.body⟩, h.exclusive, h.first,
            .inr ⟨hline, hstate⟩, m, _, _, hnamed⟩
        · simp [hsize, hbusy]
  · rw [if_neg hfull]
    exact .inl ⟨rfl, ⟨.headers h, hs, fun _ _ => by simpa using hfull⟩, hunread⟩

end NgxWasm.Socket.LargeBuffer
