import NgxWasm.Socket.NginxParsers
import NgxWasm.Socket.Received

/-!
# The reader and the ways its input is cut

What a run of `ngx_wasm_socket_tcp_read` delivers is determined by the stream alone, unless
a status line fills a buffer that it did not begin in: `request_start` of the reader is set
once, and a status line with the code 0 does not end the search for one.
-/

namespace NgxWasm.Socket.CutIndependent

set_option maxRecDepth 8192

open NgxWasm NgxWasm.Socket.HttpReader NgxWasm.Socket.Message NgxWasm.Socket.Reading
open NgxWasm.Socket.ReadLines NgxWasm.Socket.Received NgxWasm.Socket.NginxParsers
open NgxWasm.Http.Headers

variable {σ κ : Type} {ng : Nginx σ κ} {conf conf' : Conf}

/-- What the caller of the reader gets. -/
structure Outcome where
  answer : Answer
  statusCode : ℕ
  headers : List Header
  body : Bytes
  deriving DecidableEq

/-- A pointer that left its buffer has no outcome. -/
def outcome (st : State σ κ) : Option Outcome :=
  match st.answer with
  | some .ok => some ⟨.ok, st.ctx.statusCode, st.ctx.headers, st.ctx.body.getD []⟩
  | some .error => some ⟨.error, st.ctx.statusCode, st.ctx.headers, st.ctx.body.getD []⟩
  | _ => none

/-- What a report makes of a run. -/
def reported (report : Report) : Outcome where
  answer := if report.ending = .malformed then .error else .ok
  statusCode := report.head.code
  headers := report.head.headers
  body := if report.ending = .whole then report.body else []

theorem delivered_outcome {st : State σ κ} {answer : Answer} {report : Report}
    (hans : st.answer = some answer) (h : Delivered answer st.ctx report) :
    outcome st = some (reported report) := by
  obtain ⟨hhead, hbody⟩ := h
  have hcode : st.ctx.statusCode = report.head.code := congrArg Head.code hhead
  have hheaders : st.ctx.headers = report.head.headers := congrArg Head.headers hhead
  cases answer <;> cases hending : report.ending <;>
    simp_all [outcome, reported]

theorem outcome_stray {st : State σ κ} (h : st.answer = some .stray) : outcome st = none := by
  simp only [outcome, h]

theorem cut_independent_iff (lawful : Lawful ng) (hsize : 0 < conf.bufferSize)
    (hsize' : 0 < conf'.bufferSize) {stream : Bytes} {events events' : List Event}
    (hc : Complete stream events) (hc' : Complete stream events')
    (hl : (run ng conf (init ng conf stream) events).answer ≠ some .large)
    (hl' : (run ng conf' (init ng conf' stream) events').answer ≠ some .large) :
    (∃ o, outcome (run ng conf (init ng conf stream) events) = some o ∧
        outcome (run ng conf' (init ng conf' stream) events') = some o) ↔
      NeverStrays ng conf (init ng conf stream) events ∧
        NeverStrays ng conf' (init ng conf' stream) events' := by
  have hsound := run_sound lawful hsize (init_sound conf lawful stream) events
  have hsound' := run_sound lawful hsize' (init_sound conf' lawful stream) events'
  rw [← run_strays_iff lawful hsize events _ (init_sound _ lawful stream)
      (Option.some_ne_none _).symm,
    ← run_strays_iff lawful hsize' events' _ (init_sound _ lawful stream)
      (Option.some_ne_none _).symm]
  constructor
  · rintro ⟨o, ho, ho'⟩
    refine ⟨fun hstray => ?_, fun hstray => ?_⟩
    · rw [outcome_stray hstray] at ho
      cases ho
    · rw [outcome_stray hstray] at ho'
      cases ho'
  · rintro ⟨hstray, hstray'⟩
    obtain ⟨report, hreads, answer, hans, hdelivered⟩ :=
      sound_ended hsound (run_ends lawful hsize hc) hl hstray
    obtain ⟨report', hreads', answer', hans', hdelivered'⟩ :=
      sound_ended hsound' (run_ends lawful hsize' hc') hl' hstray'
    have heq : report = report' := hreads.unique hreads'
    subst heq
    exact ⟨_, delivered_outcome hans hdelivered, delivered_outcome hans' hdelivered'⟩

/-! ### Two ways to receive a response, and a code 0 -/

/-- The socket reads what there is and asks for all that there may be. -/
def turns (n : ℕ) : List Event := (List.replicate n [Event.data 4095, .read]).flatten

theorem turns_complete {stream : Bytes} {n : ℕ} (h : 2 * stream.length + 1 < n) :
    Complete stream (turns n) := by
  refine ⟨List.replicate n [Event.data 4095, .read], rfl, ?_, ?_⟩
  · intro turn hmem
    rw [List.eq_of_mem_replicate hmem]
    exact ⟨by simp, 4095, by simp⟩
  · rw [List.length_replicate]
    exact h

def greeting : Bytes := ascii "HTTP/1.1 200 OK\r\nContent-Length: 2\r\n\r\nhi"

/-- A buffer of 16 bytes and large buffers of 64, or one buffer for all. -/
def narrow : Conf := ⟨16, 8, 64⟩

def wide : Conf := ⟨4096, 4, 8192⟩

theorem greeting_cut_independent :
    NeverStrays nginx narrow (init nginx narrow greeting) (turns 100) ∧
      NeverStrays nginx wide (init nginx wide greeting) (turns 100) := by
  have hlarge : (run nginx narrow (init nginx narrow greeting) (turns 100)).answer = some .ok := by
    decide +kernel
  have hlarge' : (run nginx wide (init nginx wide greeting) (turns 100)).answer = some .ok := by
    decide
  have hsame : outcome (run nginx narrow (init nginx narrow greeting) (turns 100)) =
      outcome (run nginx wide (init nginx wide greeting) (turns 100)) := by decide +kernel
  have houtcome : outcome (run nginx wide (init nginx wide greeting) (turns 100)) =
      some ⟨.ok, 200, [⟨(headerLine nginx.zeroed (greeting.drop 17)).next.hash,
        ascii "Content-Length", ascii "2", ascii "content-length"⟩], ascii "hi"⟩ := by
    decide +kernel
  apply (cut_independent_iff nginx_lawful (by decide) (by decide)
    (turns_complete (show 2 * greeting.length + 1 < 100 by decide)) (turns_complete (by decide))
    ?_ ?_).mp
  · exact ⟨_, hsame.trans houtcome, houtcome⟩
  · rw [hlarge]
    decide
  · rw [hlarge']
    decide

/-- The second status line fills a buffer that `request_start` does not point into. -/
def zeroCode : Bytes := ascii "HTTP/1.1 000\r\nHTTP/1.1 20000"

theorem zeroCode_depends :
    Complete zeroCode (turns 58) ∧
      (run nginx ⟨14, 4, 8192⟩ (init nginx ⟨14, 4, 8192⟩ zeroCode) (turns 58)).answer ≠
        some .large ∧
      (run nginx wide (init nginx wide zeroCode) (turns 58)).answer ≠ some .large ∧
      ¬ ∃ o, outcome (run nginx ⟨14, 4, 8192⟩ (init nginx ⟨14, 4, 8192⟩ zeroCode) (turns 58)) =
          some o ∧
        outcome (run nginx wide (init nginx wide zeroCode) (turns 58)) = some o := by
  have hstray : outcome (run nginx ⟨14, 4, 8192⟩ (init nginx ⟨14, 4, 8192⟩ zeroCode) (turns 58)) =
      none := by decide
  refine ⟨turns_complete (by decide), by decide, by decide, ?_⟩
  rintro ⟨o, ho, -⟩
  rw [hstray] at ho
  cases ho

end NgxWasm.Socket.CutIndependent
