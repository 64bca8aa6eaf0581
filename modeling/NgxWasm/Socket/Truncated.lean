import NgxWasm.Socket.CutIndependent

/-!
# End of file

`ngx_wasm_socket_read_http_response` answers an end of file with `NGX_OK` whatever the
parser has seen, and a body without a length is not read. What is handed over is complete
where the message is, or where nothing follows the headers of a body without a length.
-/

namespace NgxWasm.Socket.Truncated

set_option maxRecDepth 8192

open NgxWasm NgxWasm.Socket.HttpReader NgxWasm.Socket.Message NgxWasm.Socket.Reading
open NgxWasm.Socket.ReadLines NgxWasm.Socket.Received NgxWasm.Socket.NginxParsers
open NgxWasm.Socket.CutIndependent NgxWasm.Http.Headers

variable {σ κ : Type} {ng : Nginx σ κ} {conf : Conf}

/-- The bytes a phase has of a body with a length, and those that are missing. -/
def Measured : Phase σ κ → Prop
  | .status _ _ => True
  | .headers _ head => head.lengths.chunked = true → head.lengths.contentLength = none
  | .sized head missing body => head.lengths.contentLength = some (body.length + missing)
  | .chunks head _ _ => head.lengths.contentLength = none
  | .chunk head _ _ _ => head.lengths.contentLength = none
  | .unframed head => head.lengths.contentLength = none

theorem bodyPhase_measured {head : Head}
    (h : head.lengths.chunked = true → head.lengths.contentLength = none) :
    Measured (bodyPhase ng head) := by
  unfold bodyPhase
  by_cases hchunked : head.lengths.chunked = true
  · rw [if_pos hchunked]
    exact h hchunked
  · rw [if_neg hchunked]
    cases hlen : head.lengths.contentLength with
    | none => exact hlen
    | some n =>
      have hsum : head.lengths.contentLength = some (List.length ([] : Bytes) + n) := by
        rw [hlen, List.length_nil, Nat.zero_add]
      exact hsum

/-- A whole body has the length of its header. -/
theorem whole_length (lawful : Lawful ng) {phase : Phase σ κ} {bs : Bytes} {report : Report}
    (h : Reads ng phase bs report) (hphase : Measured phase) (hwhole : report.ending = .whole)
    {n : ℕ} (hlen : report.head.lengths.contentLength = some n) : report.body.length = n := by
  induction h with
  | status_error h => cases hwhole
  | status_short h => cases hwhole
  | @status_ok p t bs code report h rest ih =>
    apply ih _ hwhole hlen
    unfold afterStatus
    split
    · trivial
    · intro hchunked
      cases hchunked
  | header_invalid h => cases hwhole
  | header_short h => cases hwhole
  | header_refused h refused => cases hwhole
  | header_ok h handled rest ih =>
    apply ih _ hwhole hlen
    exact lawful.exclusive _ _ _ _ handled
  | header_done h rest ih => exact ih (bodyPhase_measured hphase) hwhole hlen
  | @sized_whole head missing body bs h =>
    have heq : some (body.length + missing) = some n := hphase.symm.trans hlen
    rw [List.length_append, List.length_take, Nat.min_eq_left h]
    exact Option.some.inj heq
  | sized_short h => cases hwhole
  | chunks_error h => cases hwhole
  | chunks_short h => cases hwhole
  | chunks_done h =>
    have heq : none = some n := hphase.symm.trans hlen
    cases heq
  | chunks_ok h rest ih => exact ih hphase hwhole hlen
  | chunk_short h => cases hwhole
  | chunk_whole h rest ih => exact ih hphase hwhole hlen
  | unframed => cases hwhole

/-- The run returns; with `NGX_OK` it hands over the complete body, and a response that was
cut short is not answered so. -/
structure HandedOver (ng : Nginx σ κ) (stream : Bytes) (st : State σ κ) : Prop where
  returns : st.answer = some .ok ∨ st.answer = some .error ∨ st.answer = some .large
  body : st.answer = some .ok → ∃ report, Reads ng (startOf ng.zeroed) stream report ∧
    (report.ending = .whole ∨ report.ending = .unframed) ∧
      (∀ n, report.ending = .whole → report.head.lengths.contentLength = some n →
        st.ctx.bodyLen = n) ∧
      st.ctx.body.getD [] = report.body ∧ st.ctx.bodyLen = report.body.length
  short : ∀ report, Reads ng (startOf ng.zeroed) stream report → report.ending = .short →
    st.answer ≠ some .ok

/-- The stream ends no earlier than its message, which has a length or no body. -/
def Ends (ng : Nginx σ κ) (stream : Bytes) : Prop :=
  ∃ report, Reads ng (startOf ng.zeroed) stream report ∧
    (report.ending = .whole ∨ report.ending = .malformed ∨
      report.ending = .unframed ∧ report.body = [])

/-- For want of a large buffer the run is an error; else what is handed over is complete
exactly for the streams that do not end too early. -/
theorem handedOver_iff (lawful : Lawful ng) (hsize : 0 < conf.bufferSize) {stream : Bytes}
    {events : List Event} (hc : Received.Complete stream events) :
    ((run ng conf (init ng conf stream) events).answer = some .large →
        HandedOver ng stream (run ng conf (init ng conf stream) events)) ∧
      ((run ng conf (init ng conf stream) events).answer ≠ some .large →
        (HandedOver ng stream (run ng conf (init ng conf stream) events) ↔
          NeverStrays ng conf (init ng conf stream) events ∧ Ends ng stream)) := by
  have hsound := run_sound lawful hsize (init_sound conf lawful stream) events
  have hended := run_ends lawful hsize hc
  rw [← run_strays_iff lawful hsize events _ (init_sound conf lawful stream)
    (Option.some_ne_none _).symm]
  generalize run ng conf (init ng conf stream) events = st at hsound hended ⊢
  constructor
  · intro hlarge
    refine ⟨.inr (.inr hlarge), fun hok => ?_, fun _ _ _ hok => ?_⟩
    · rw [hlarge] at hok
      cases hok
    · rw [hlarge] at hok
      cases hok
  · intro hlarge
    constructor
    · intro h
      have hstray : st.answer ≠ some .stray := by
        intro hans
        have hreturns := h.returns
        rw [hans] at hreturns
        rcases hreturns with hok | herror | hbuf
        · cases hok
        · cases herror
        · cases hbuf
      obtain ⟨report, hreads, answer, hans, hhead, hbody⟩ := sound_ended hsound hended hlarge hstray
      refine ⟨hstray, report, hreads, ?_⟩
      cases answer <;> cases hending : report.ending <;> rw [hending] at hbody
      case ok.whole => exact .inl rfl
      case error.malformed => exact .inr (.inl rfl)
      case ok.short => exact absurd hans (h.short report hreads hending)
      case ok.unframed =>
        obtain ⟨report', hreads', -, -, -, hlen⟩ := h.body hans
        have heq : report' = report := hreads'.unique hreads
        rw [heq, hbody.2] at hlen
        exact .inr (.inr ⟨rfl, List.length_eq_zero_iff.mp hlen.symm⟩)
      all_goals exact hbody.elim
    · rintro ⟨hstray, report, hreads, hending⟩
      obtain ⟨report', hreads', answer, hans, hhead, hbody⟩ :=
        sound_ended hsound hended hlarge hstray
      have heq : report' = report := hreads'.unique hreads
      subst heq
      have hshort : ∀ other, Reads ng (startOf ng.zeroed) stream other → other.ending = .short →
          st.answer ≠ some .ok := by
        intro other hother hcut
        rw [hother.unique hreads] at hcut
        rw [hcut] at hending
        rcases hending with hwhole | hmalformed | ⟨hunframed, -⟩
        · cases hwhole
        · cases hmalformed
        · cases hunframed
      rcases hending with hwhole | hmalformed | ⟨hunframed, hnil⟩
      · rw [hwhole] at hbody
        cases answer
        case ok =>
          refine ⟨.inl hans, fun _ => ⟨report', hreads, .inl hwhole, ?_, hbody.1, hbody.2⟩, hshort⟩
          intro n _ hn
          rw [hbody.2]
          exact whole_length lawful hreads trivial hwhole hn
        all_goals exact hbody.elim
      · rw [hmalformed] at hbody
        cases answer
        case error =>
          refine ⟨.inr (.inl hans), fun hok => ?_, hshort⟩
          rw [hans] at hok
          cases hok
        all_goals exact hbody.elim
      · rw [hunframed] at hbody
        cases answer
        case ok =>
          refine ⟨.inl hans, fun _ => ⟨report', hreads, .inr hunframed, ?_, ?_, ?_⟩, hshort⟩
          · intro n hwhole
            rw [hunframed] at hwhole
            cases hwhole
          · rw [hbody.1, hnil]
            rfl
          · rw [hbody.2, hnil]
            rfl
        all_goals exact hbody.elim

/-! ### A response in full, and one that is cut short -/

theorem greeting_handedOver :
    HandedOver nginx greeting (run nginx narrow (init nginx narrow greeting) (turns 100)) ↔
      NeverStrays nginx narrow (init nginx narrow greeting) (turns 100) ∧ Ends nginx greeting := by
  have hans : (run nginx narrow (init nginx narrow greeting) (turns 100)).answer = some .ok := by
    decide
  apply (handedOver_iff nginx_lawful (by decide) (turns_complete (by decide))).2
  rw [hans]
  decide

/-- The peer closes after two bytes of five. -/
def cutShort : Bytes := ascii "HTTP/1.1 200 OK\r\nContent-Length: 5\r\n\r\nhe"

theorem cutShort_ok :
    (run nginx wide (init nginx wide cutShort) (turns 100)).answer = some .ok ∧
      ¬ HandedOver nginx cutShort (run nginx wide (init nginx wide cutShort) (turns 100)) := by
  have hans : (run nginx wide (init nginx wide cutShort) (turns 100)).answer = some .ok := by
    decide
  have hbody : (run nginx wide (init nginx wide cutShort) (turns 100)).ctx.body = none ∧
      (run nginx wide (init nginx wide cutShort) (turns 100)).ctx.bodyLen = 5 := by decide
  refine ⟨hans, fun h => ?_⟩
  obtain ⟨report, -, -, -, hnil, hlen⟩ := h.body hans
  rw [hbody.1] at hnil
  rw [hbody.2, ← hnil] at hlen
  cases hlen

end NgxWasm.Socket.Truncated
