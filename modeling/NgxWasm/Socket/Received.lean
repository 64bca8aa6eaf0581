import NgxWasm.Lib.Run
import NgxWasm.Socket.ReadResponse

/-!
# Runs of `ngx_wasm_socket_tcp_read`

Whatever the socket received, the reader stands for a phase of the reading of the whole
stream, or it has delivered what the stream says. A call goes astray in one situation
only; a run that goes on long enough ends.
-/

namespace NgxWasm.Socket.Received

open NgxWasm NgxWasm.Lib.Parsers NgxWasm.Socket.HttpReader NgxWasm.Socket.Message
open NgxWasm.Socket.Reading NgxWasm.Socket.ReaderState NgxWasm.Socket.ReadLines
open NgxWasm.Socket.ReadResponse

variable {σ κ : Type} {ng : Nginx σ κ} {conf : Conf}

/-- The run has not ended: the bytes in the buffer and those of the stream are to be read. -/
structure Open (ng : Nginx σ κ) (stream : Bytes) (st : State σ κ) : Prop where
  reads : ∃ phase line, Ready ng st.sock st.ctx phase line ∧
    Leads ng (startOf ng.zeroed) stream phase (line ++ st.sock.unread ++ st.stream)
  eof : st.sock.eof = true → st.sock.unread = [] ∧ st.stream = []

def Sound (ng : Nginx σ κ) (stream : Bytes) (st : State σ κ) : Prop :=
  match st.answer with
  | none => Open ng stream st
  | some .ok => ∃ report, Reads ng (startOf ng.zeroed) stream report ∧ Delivered .ok st.ctx report
  | some .error =>
    ∃ report, Reads ng (startOf ng.zeroed) stream report ∧ Delivered .error st.ctx report
  | some .large => True
  | some .stray => True
  | some .again => False
  | some .loops => False

theorem sound_open {stream : Bytes} {st : State σ κ} (h : st.answer = none) :
    Sound ng stream st ↔ Open ng stream st := by
  unfold Sound
  rw [h]

/-- The next call of the reader goes astray. -/
def Strays (ng : Nginx σ κ) (st : State σ κ) : Prop :=
  st.answer = none ∧ st.sock.unread ≠ [] ∧ StraysAt ng st.sock st.ctx

theorem init_sound (conf : Conf) (lawful : Lawful ng) (stream : Bytes) :
    Sound ng stream (init ng conf stream) := by
  have hat : AtStatus ng (init ng conf stream).sock (init ng conf stream).ctx ng.zeroed [] [] := by
    refine ⟨rfl, ⟨rfl, rfl, rfl, rfl, rfl, rfl⟩, lawful.zeroed, fun _ => rfl,
      ⟨fun _ => none, waits_nil _ _, ?_⟩, ?_, List.nil_suffix, ?_, ?_⟩
    · intro i a ha
      cases ha
    · intro hne
      exact absurd rfl hne
    · intro hne
      exact absurd rfl hne
    · intro o ho
      cases ho
  refine ⟨⟨.status ng.zeroed [], [], ⟨.status hat, ⟨Nat.le_refl _, Nat.zero_le _, Nat.one_pos⟩,
    fun hne => absurd rfl hne⟩, fun report hr => hr⟩, ?_⟩
  intro heof
  cases heof

/-- A call of the reader. -/
theorem callReader_sound (conf : Conf) (lawful : Lawful ng) {stream : Bytes} {st : State σ κ}
    (h : Open ng stream st) (hready : st.sock.unread ≠ [] ∨ st.sock.eof = true) :
    Sound ng stream (callReader ng conf st) ∧
      ((callReader ng conf st).answer = some .stray ↔
        st.sock.unread ≠ [] ∧ StraysAt ng st.sock st.ctx) ∧
      ((callReader ng conf st).answer = none →
        (callReader ng conf st).sock.unread.length < st.sock.unread.length ∧
          (callReader ng conf st).sock.eof = st.sock.eof) := by
  obtain ⟨phase, line, hr, hleads⟩ := h.reads
  by_cases hu : st.sock.unread = []
  · obtain ⟨-, hend⟩ := h.eof (hready.resolve_left fun hne => hne hu)
    obtain ⟨report, hreads, hdelivered⟩ := Stands.ends lawful hr.stands
    have hcall : callReader ng conf st = { st with answer := some .ok } := by
      simp [callReader, socketReadHttpResponse, hu]
    rw [hcall]
    refine ⟨⟨report, hleads report ?_, hdelivered⟩, ?_, ?_⟩
    · rw [hu, hend, List.append_nil, List.append_nil]
      exact hreads
    · simp [hu]
    · intro hnone
      cases hnone
  · have hlen : st.sock.unread.length ≠ 0 := by simpa using hu
    have heof : ¬ st.sock.eof = true := fun he => hu (h.eof he).1
    have hkeeps : (readHttpResponse ng conf st.sock st.ctx st.sock.unread.length).1.eof =
        st.sock.eof := readHttpResponse_eof _ _ _
    obtain ⟨hserved, hstray⟩ := readHttpResponse_served conf lawful hr hu st.stream
    have hcall : callReader ng conf st =
        { st with
          sock := (readHttpResponse ng conf st.sock st.ctx st.sock.unread.length).1
          ctx := (readHttpResponse ng conf st.sock st.ctx st.sock.unread.length).2.1
          answer :=
            if (readHttpResponse ng conf st.sock st.ctx st.sock.unread.length).2.2 = .again then
              none
            else some (readHttpResponse ng conf st.sock st.ctx st.sock.unread.length).2.2 } := by
      simp only [callReader, socketReadHttpResponse, ne_eq, hlen, not_false_eq_true, if_true]
    rw [hcall]
    revert hserved hstray hkeeps
    obtain ⟨s', c', a⟩ := readHttpResponse ng conf st.sock st.ctx st.sock.unread.length
    intro hkeeps hserved hstray
    by_cases hst : StraysAt ng st.sock st.ctx
    · have ha : a = .stray := hstray hst
      subst ha
      refine ⟨trivial, ⟨fun _ => ⟨hu, hst⟩, fun _ => rfl⟩, ?_⟩
      intro hnone
      cases hnone
    · have hnot : a ≠ .stray := by
        intro ha
        subst ha
        exact hserved hst
      have hserved' := hleads.served (Nat.le_refl _) (hserved hst)
      refine ⟨?_, ?_, ?_⟩
      · cases a with
        | again =>
          obtain ⟨phase', line', hready', -, hleads'⟩ := hserved'
          have hopen : Open ng stream { st with sock := s', ctx := c', answer := none } := by
            refine ⟨⟨phase', line', hready', hleads'⟩, fun he => ?_⟩
            exact absurd (hkeeps.symm.trans he) heof
          exact hopen
        | ok => exact hserved'
        | error => exact hserved'
        | large => trivial
        | stray => exact absurd rfl hnot
        | loops => exact hserved'
      · constructor
        · intro hans
          cases a <;> simp_all
        · rintro ⟨-, hst'⟩
          exact absurd hst' hst
      · intro hnone
        cases a with
        | again =>
          obtain ⟨-, -, -, hlt, -⟩ := hserved'
          exact ⟨hlt, hkeeps⟩
        | ok => cases hnone
        | error => cases hnone
        | large => cases hnone
        | stray => cases hnone
        | loops => cases hnone

theorem makeRoom_open {stream : Bytes} {st : State σ κ} (h : Open ng stream st)
    (hu : st.sock.unread = []) (heof : st.sock.eof = false) :
    Open ng stream { st with sock := makeRoom conf st.sock } := by
  obtain ⟨phase, line, hr, hleads⟩ := h.reads
  obtain ⟨hready, hu'⟩ := makeRoom_ready conf hr hu
  rw [hu] at hleads
  refine ⟨⟨phase, line, hready, ?_⟩, ?_⟩
  · rw [hu']
    exact hleads
  · intro he
    have hkeeps : (makeRoom conf st.sock).eof = st.sock.eof := makeRoom_eof _
    rw [hkeeps, heof] at he
    cases he

/-- What a `recv` finds, or the end of file. -/
theorem recv_open (hsize : 0 < conf.bufferSize) {stream : Bytes} {st : State σ κ}
    (h : Open ng stream st) (hu : st.sock.unread = []) (n : ℕ) :
    Open ng stream (recv conf st n) ∧
      ((st.stream = [] ∧ (recv conf st n).sock.eof = true ∧ (recv conf st n).stream = [] ∧
          (recv conf st n).sock.unread = []) ∨
        st.stream ≠ [] ∧ (recv conf st n).sock.eof = st.sock.eof ∧
          (recv conf st n).sock.unread ≠ [] ∧
          (recv conf st n).sock.unread ++ (recv conf st n).stream = st.stream) := by
  obtain ⟨phase, line, hr, hleads⟩ := h.reads
  obtain ⟨hready, hu'⟩ := makeRoom_ready conf hr hu
  have havail : (makeRoom conf st.sock).data.length < (makeRoom conf st.sock).buffer.size :=
    makeRoom_avail hsize hr.buffered
  have hkeeps : (makeRoom conf st.sock).eof = st.sock.eof := makeRoom_eof _
  obtain ⟨k, hk⟩ : ∃ k, k + 1 = min (n + 1)
      ((makeRoom conf st.sock).buffer.size - (makeRoom conf st.sock).data.length) := by
    refine ⟨min (n + 1) ((makeRoom conf st.sock).buffer.size -
      (makeRoom conf st.sock).data.length) - 1, ?_⟩
    omega
  rw [hu] at hleads
  by_cases hend : st.stream = []
  · have hrecv : recv conf st n = { st with sock := { makeRoom conf st.sock with eof := true } } := by
      simp [recv, hend]
    rw [hrecv]
    refine ⟨⟨⟨phase, line, ⟨Stands.atEof true hready.stands, ⟨hready.buffered.pos_le,
      hready.buffered.len_le, hready.buffered.id_lt⟩, hready.room⟩, ?_⟩, fun _ => ⟨hu', hend⟩⟩,
      .inl ⟨hend, rfl, hend, hu'⟩⟩
    exact hu' ▸ hleads
  · have hgot : st.stream.take (k + 1) ≠ [] := by
      cases hs : st.stream with
      | nil => exact absurd hs hend
      | cons b bs => simp
    have hrecv : recv conf st n = { st with
        sock := (makeRoom conf st.sock).store (makeRoom conf st.sock).buffer.id
          ((makeRoom conf st.sock).data ++ st.stream.take (k + 1))
        stream := st.stream.drop (st.stream.take (k + 1)).length } := by
      simp only [recv, ← hk, hgot, if_false]
    have hlen : (st.stream.take (k + 1)).length ≤ k + 1 := List.length_take_le _ _
    obtain ⟨hready', hunread⟩ := receive_ready hready hu' hgot (by omega)
    have hsplit : st.stream.take (k + 1) ++ st.stream.drop (st.stream.take (k + 1)).length =
        st.stream := by
      conv_rhs => rw [← List.take_append_drop (k + 1) st.stream]
      congr 1
      rw [List.length_take]
      rcases Nat.le_total (k + 1) st.stream.length with hle | hle
      · rw [Nat.min_eq_left hle]
      · rw [Nat.min_eq_right hle, List.drop_length, List.drop_eq_nil_of_le hle]
    rw [hrecv]
    refine ⟨⟨⟨phase, line, hready', ?_⟩, ?_⟩, .inr ⟨hend, hkeeps, ?_, ?_⟩⟩
    · intro report hreport
      apply hleads
      rw [hunread, List.append_assoc, hsplit] at hreport
      rw [List.append_nil]
      exact hreport
    · intro he
      have heof : st.sock.eof = true := hkeeps.symm.trans he
      exact absurd (h.eof heof).2 hend
    · rw [hunread]
      exact hgot
    · rw [hunread]
      exact hsplit

theorem step_answered {st : State σ κ} (h : st.answer ≠ none) (e : Event) :
    step ng conf st e = st := by
  obtain ⟨answer, hans⟩ := Option.ne_none_iff_exists'.mp h
  cases e <;> simp [step, hans]

/-- One event keeps the run sound, and goes astray where the call does. -/
theorem step_sound {conf : Conf} (lawful : Lawful ng) (hsize : 0 < conf.bufferSize) {stream : Bytes}
    {st : State σ κ} (h : Sound ng stream st) (e : Event) :
    Sound ng stream (step ng conf st e) ∧
      ((step ng conf st e).answer = some .stray ↔
        st.answer = some .stray ∨ e = .read ∧ Strays ng st) := by
  cases hans : st.answer with
  | some answer =>
    have hne : st.answer ≠ none := by
      rw [hans]
      exact Option.some_ne_none _
    rw [step_answered hne]
    refine ⟨h, ?_⟩
    simp [hans, Strays]
  | none =>
    have hopen : Open ng stream st := (sound_open hans).mp h
    cases e with
    | read =>
      by_cases hready : st.sock.unread ≠ [] ∨ st.sock.eof = true
      · have hstep : step ng conf st .read = callReader ng conf st := by
          simp only [step, hans]
          exact if_pos ⟨rfl, hready⟩
        obtain ⟨hsound, hstray, -⟩ := callReader_sound conf lawful hopen hready
        rw [hstep]
        refine ⟨hsound, hstray.trans ?_⟩
        simp [Strays, hans]
      · have hstep : step ng conf st .read = st := by
          simp only [step, hans]
          exact if_neg fun hc => hready hc.2
        rw [hstep]
        refine ⟨h, ?_⟩
        have hu : st.sock.unread = [] := by
          by_contra hne
          exact hready (.inl hne)
        simp [Strays, hans, hu]
    | notReady =>
      refine ⟨h, ?_⟩
      simp [step, hans]
    | again =>
      by_cases hready : st.sock.unread = [] ∧ ¬ st.sock.eof = true
      · have hstep : step ng conf st .again = { st with sock := makeRoom conf st.sock } := by
          simp only [step, hans]
          exact if_pos ⟨rfl, hready⟩
        have hmade : Open ng stream { st with sock := makeRoom conf st.sock } :=
          makeRoom_open hopen hready.1 (by simpa using hready.2)
        rw [hstep]
        refine ⟨?_, ?_⟩
        · have hnone : ({ st with sock := makeRoom conf st.sock } : State σ κ).answer = none := hans
          exact (sound_open hnone).mpr hmade
        · simp [hans]
      · have hstep : step ng conf st .again = st := by
          simp only [step, hans]
          exact if_neg fun hc => hready hc.2
        rw [hstep]
        exact ⟨h, by simp [hans]⟩
    | data n =>
      by_cases hready : st.sock.unread = [] ∧ ¬ st.sock.eof = true
      · have hstep : step ng conf st (.data n) = recv conf st n := by
          simp only [step, hans]
          exact if_pos ⟨rfl, hready⟩
        have hkeeps : (recv conf st n).answer = st.answer := by
          unfold recv
          dsimp only
          split <;> rfl
        have hmade := (recv_open hsize hopen hready.1 n).1
        rw [hstep]
        refine ⟨?_, ?_⟩
        · exact (sound_open (hkeeps.trans hans)).mpr hmade
        · simp [hkeeps, hans]
      · have hstep : step ng conf st (.data n) = st := by
          simp only [step, hans]
          exact if_neg fun hc => hready hc.2
        rw [hstep]
        exact ⟨h, by simp [hans]⟩

/-- A run that ended delivers what the stream says. -/
theorem sound_ended {stream : Bytes} {st : State σ κ} (h : Sound ng stream st)
    (hended : st.answer ≠ none) (hlarge : st.answer ≠ some .large)
    (hstray : st.answer ≠ some .stray) :
    ∃ report, Reads ng (startOf ng.zeroed) stream report ∧
      (∃ answer, st.answer = some answer ∧ Delivered answer st.ctx report) := by
  unfold Sound at h
  cases hans : st.answer with
  | none => exact absurd hans hended
  | some answer =>
    rw [hans] at h
    cases answer with
    | ok =>
      obtain ⟨report, hreads, hdelivered⟩ := h
      exact ⟨report, hreads, .ok, rfl, hdelivered⟩
    | error =>
      obtain ⟨report, hreads, hdelivered⟩ := h
      exact ⟨report, hreads, .error, rfl, hdelivered⟩
    | large => exact absurd hans hlarge
    | stray => exact absurd hans hstray
    | again => exact h.elim
    | loops => exact h.elim

/-! ### Runs -/

/-- The run as a machine that answers each event with whether it went astray. -/
def machine (ng : Nginx σ κ) (conf : Conf) (st : State σ κ) (e : Event) : State σ κ × Unit :=
  (step ng conf st e, ())

theorem exec_machine (events : List Event) : ∀ st : State σ κ,
    (Lib.Run.exec (machine ng conf) st events).1 = run ng conf st events := by
  induction events with
  | nil =>
    intro st
    rfl
  | cons e events ih =>
    intro st
    exact ih (step ng conf st e)

/-- No call of the run goes astray. -/
def NeverStrays (ng : Nginx σ κ) (conf : Conf) (st : State σ κ) (events : List Event) : Prop :=
  Lib.Run.Meets (machine ng conf) (fun st e => e = .read → ¬ Strays ng st) st events

theorem run_sound (lawful : Lawful ng) (hsize : 0 < conf.bufferSize) {stream : Bytes}
    {st : State σ κ} (h : Sound ng stream st) (events : List Event) :
    Sound ng stream (run ng conf st events) := by
  rw [← exec_machine]
  apply Lib.Run.exec_invariant (machine ng conf) (fun _ _ => True) (Sound ng stream)
  · intro st e h _
    exact (step_sound lawful hsize h e).1
  · exact h
  · exact Lib.Run.meets_of_forall _ (fun _ => True) events _ fun _ _ => trivial

theorem run_answered (events : List Event) : ∀ st : State σ κ, st.answer ≠ none →
    run ng conf st events = st := by
  induction events with
  | nil =>
    intro st _
    rfl
  | cons e events ih =>
    intro st h
    have hrun : run ng conf st (e :: events) = run ng conf (step ng conf st e) events := rfl
    rw [hrun, step_answered h]
    exact ih st h

/-- A run goes astray in a call that goes astray. -/
theorem run_strays_iff (lawful : Lawful ng) (hsize : 0 < conf.bufferSize) {stream : Bytes}
    (events : List Event) : ∀ st : State σ κ, Sound ng stream st → st.answer ≠ some .stray →
      ((run ng conf st events).answer ≠ some .stray ↔ NeverStrays ng conf st events) := by
  induction events with
  | nil =>
    intro st _ hnot
    exact iff_of_true hnot trivial
  | cons e events ih =>
    intro st h hnot
    obtain ⟨hsound, hstray⟩ := step_sound lawful hsize h e
    have hrun : run ng conf st (e :: events) = run ng conf (step ng conf st e) events := rfl
    by_cases hst : e = .read ∧ Strays ng st
    · have hend : (step ng conf st e).answer = some .stray := hstray.mpr (.inr hst)
      have hne : (step ng conf st e).answer ≠ none := by
        rw [hend]
        exact Option.some_ne_none _
      rw [hrun, run_answered events _ hne]
      exact iff_of_false (fun hnot' => hnot' hend) fun hnever => hnever.1 hst.1 hst.2
    · have hgoes : (step ng conf st e).answer ≠ some .stray := fun hend =>
        (hstray.mp hend).elim hnot hst
      have hhere : e = .read → ¬ Strays ng st := fun he hs => hst ⟨he, hs⟩
      rw [hrun, ih _ hsound hgoes]
      exact ⟨fun hnever => ⟨hhere, hnever⟩, fun hnever => hnever.2⟩

/-! ### Runs end -/

/-- What the socket has still to do. -/
def todo (st : State σ κ) : ℕ :=
  2 * st.stream.length + st.sock.unread.length + if st.sock.eof then 0 else 1

/-- The event the socket waits for. -/
def Due (st : State σ κ) : Event → Prop
  | .read => st.sock.unread ≠ [] ∨ st.sock.eof = true
  | .data _ => st.sock.unread = [] ∧ ¬ st.sock.eof = true
  | .again => False
  | .notReady => False

theorem step_due (lawful : Lawful ng) (hsize : 0 < conf.bufferSize) {stream : Bytes}
    {st : State σ κ} (h : Open ng stream st) (hans : st.answer = none) {e : Event}
    (hdue : Due st e) :
    (step ng conf st e).answer ≠ none ∨ todo (step ng conf st e) < todo st := by
  cases e with
  | read =>
    have hstep : step ng conf st .read = callReader ng conf st := by
      simp only [step, hans]
      exact if_pos ⟨rfl, hdue⟩
    obtain ⟨-, -, hprogress⟩ := callReader_sound conf lawful h hdue
    rw [hstep]
    by_cases hnone : (callReader ng conf st).answer = none
    · obtain ⟨hlt, heof⟩ := hprogress hnone
      have hstream : (callReader ng conf st).stream = st.stream := rfl
      refine .inr ?_
      simp only [todo, heof, hstream]
      omega
    · exact .inl hnone
  | notReady => exact hdue.elim
  | again => exact hdue.elim
  | data n =>
    have hstep : step ng conf st (.data n) = recv conf st n := by
      simp only [step, hans]
      exact if_pos ⟨rfl, hdue⟩
    rw [hstep]
    refine .inr ?_
    rcases (recv_open hsize h hdue.1 n).2 with ⟨hend, heof, hend', hu⟩ | ⟨hne, heof, hu, hsplit⟩
    · simp [todo, hend, heof, hend', hu, hdue.1, hdue.2]
    · have hpos : 0 < (recv conf st n).sock.unread.length := List.length_pos_iff.mpr hu
      have hlen := congrArg List.length hsplit
      rw [List.length_append] at hlen
      simp only [todo, heof, hdue.1, List.length_nil]
      omega

/-- An event that does not fit leaves what is to do. -/
theorem step_idle (conf : Conf) {stream : Bytes} {st : State σ κ} (h : Open ng stream st)
    (hans : st.answer = none) {e : Event} (hidle : ¬ Due st e) :
    (step ng conf st e).answer = none ∧ todo (step ng conf st e) = todo st ∧
      ∀ e', Due (step ng conf st e) e' ↔ Due st e' := by
  cases e with
  | read =>
    have hstep : step ng conf st .read = st := by
      simp only [step, hans]
      exact if_neg fun hc => hidle hc.2
    rw [hstep]
    exact ⟨hans, rfl, fun _ => Iff.rfl⟩
  | notReady => exact ⟨hans, rfl, fun _ => Iff.rfl⟩
  | again =>
    by_cases hready : st.sock.unread = [] ∧ ¬ st.sock.eof = true
    · have hstep : step ng conf st .again = { st with sock := makeRoom conf st.sock } := by
        simp only [step, hans]
        exact if_pos ⟨rfl, hready⟩
      obtain ⟨phase, line, hr, -⟩ := h.reads
      obtain ⟨-, hu⟩ := makeRoom_ready conf hr hready.1
      have heof : (makeRoom conf st.sock).eof = st.sock.eof := makeRoom_eof _
      rw [hstep]
      refine ⟨hans, ?_, ?_⟩
      · simp only [todo, hu, heof, hready.1]
      · intro e'
        cases e' <;> simp [Due, hu, heof, hready.1]
    · have hstep : step ng conf st .again = st := by
        simp only [step, hans]
        exact if_neg fun hc => hready hc.2
      rw [hstep]
      exact ⟨hans, rfl, fun _ => Iff.rfl⟩
  | data n =>
    have hstep : step ng conf st (.data n) = st := by
      simp only [step, hans]
      exact if_neg fun hc => hidle hc.2
    rw [hstep]
    exact ⟨hans, rfl, fun _ => Iff.rfl⟩

theorem run_todo_le (lawful : Lawful ng) (hsize : 0 < conf.bufferSize) {stream : Bytes}
    (events : List Event) : ∀ st : State σ κ, Sound ng stream st →
      (run ng conf st events).answer ≠ none ∨ todo (run ng conf st events) ≤ todo st := by
  induction events with
  | nil =>
    intro st _
    exact .inr (Nat.le_refl _)
  | cons e events ih =>
    intro st h
    have hrun : run ng conf st (e :: events) = run ng conf (step ng conf st e) events := rfl
    by_cases hans : st.answer = none
    · have hopen := (sound_open hans).mp h
      have hle : (step ng conf st e).answer ≠ none ∨ todo (step ng conf st e) ≤ todo st := by
        by_cases hdue : Due st e
        · exact (step_due lawful hsize hopen hans hdue).imp_right Nat.le_of_lt
        · exact .inr (Nat.le_of_eq (step_idle conf hopen hans hdue).2.1)
      rw [hrun]
      rcases hle with hended | hle
      · rw [run_answered events _ hended]
        exact .inl hended
      · exact (ih _ (step_sound lawful hsize h e).1).imp_right fun hle' => hle'.trans hle
    · rw [run_answered _ _ hans]
      exact .inl hans

/-- Events of which one is due bring the run forward. -/
theorem run_due (lawful : Lawful ng) (hsize : 0 < conf.bufferSize) {stream : Bytes}
    (events : List Event) : ∀ st : State σ κ, Sound ng stream st → st.answer = none →
      (∃ e ∈ events, Due st e) →
        (run ng conf st events).answer ≠ none ∨ todo (run ng conf st events) < todo st := by
  induction events with
  | nil =>
    rintro st _ _ ⟨e, he, -⟩
    cases he
  | cons e events ih =>
    rintro st h hans ⟨e', he', hdue'⟩
    have hopen := (sound_open hans).mp h
    have hrun : run ng conf st (e :: events) = run ng conf (step ng conf st e) events := rfl
    have hsound := (step_sound lawful hsize h e).1
    rw [hrun]
    by_cases hdue : Due st e
    · rcases step_due lawful hsize hopen hans hdue with hended | hlt
      · rw [run_answered events _ hended]
        exact .inl hended
      · exact (run_todo_le lawful hsize events _ hsound).imp_right fun hle =>
          Nat.lt_of_le_of_lt hle hlt
    · obtain ⟨hans', htodo, hsame⟩ := step_idle conf hopen hans hdue
      have hlater : e' ∈ events := by
        rcases List.mem_cons.mp he' with heq | hmem
        · rw [heq] at hdue'
          exact absurd hdue' hdue
        · exact hmem
      have hrest := ih _ hsound hans' ⟨e', hlater, (hsame e').mpr hdue'⟩
      rw [htodo] at hrest
      exact hrest

/-- A turn of the event loop: the socket reads what there is and asks for more. -/
def Turn (events : List Event) : Prop := .read ∈ events ∧ ∃ n, .data n ∈ events

/-- Enough turns for every byte and for the end of file. -/
def Complete (stream : Bytes) (events : List Event) : Prop :=
  ∃ turns : List (List Event), events = turns.flatten ∧ (∀ turn ∈ turns, Turn turn) ∧
    2 * stream.length + 1 < turns.length

theorem turns_end (lawful : Lawful ng) (hsize : 0 < conf.bufferSize) {stream : Bytes}
    (turns : List (List Event)) : ∀ st : State σ κ, Sound ng stream st →
      (∀ turn ∈ turns, Turn turn) → todo st < turns.length →
        (run ng conf st turns.flatten).answer ≠ none := by
  induction turns with
  | nil =>
    intro st _ _ hlt
    exact absurd hlt (Nat.not_lt_zero _)
  | cons turn turns ih =>
    intro st h hturns hlt
    have hrun : run ng conf st (turn :: turns).flatten =
        run ng conf (run ng conf st turn) turns.flatten := by
      rw [List.flatten_cons]
      exact List.foldl_append
    rw [hrun]
    by_cases hans : st.answer = none
    · obtain ⟨hread, n, hdata⟩ := hturns turn List.mem_cons_self
      have hdue : ∃ e ∈ turn, Due st e := by
        by_cases hready : st.sock.unread ≠ [] ∨ st.sock.eof = true
        · exact ⟨.read, hread, hready⟩
        · refine ⟨.data n, hdata, ?_, ?_⟩
          · by_contra hne
            exact hready (.inl hne)
          · intro heof
            exact hready (.inr heof)
      have hsound := run_sound lawful hsize h turn
      rcases run_due lawful hsize turn st h hans hdue with hended | hless
      · rw [run_answered _ _ hended]
        exact hended
      · rw [List.length_cons] at hlt
        apply ih _ hsound (fun turn' hmem => hturns turn' (List.mem_cons_of_mem _ hmem))
        omega
    · rw [run_answered turn _ hans, run_answered _ _ hans]
      exact hans

/-- A complete run ends. -/
theorem run_ends (lawful : Lawful ng) (hsize : 0 < conf.bufferSize) {stream : Bytes}
    {events : List Event} (h : Complete stream events) :
    (run ng conf (init ng conf stream) events).answer ≠ none := by
  obtain ⟨turns, rfl, hturns, hlt⟩ := h
  exact turns_end lawful hsize turns _ (init_sound _ lawful stream) hturns hlt

end NgxWasm.Socket.Received
