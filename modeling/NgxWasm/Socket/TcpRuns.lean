import NgxWasm.Lib.Trace
import NgxWasm.Socket.Tcp

/-!
# What a dispatch writes, and when

Over every order of events and every answer from outside, as long as nginx's resolver answers no call
that is over: the request goes out once and in order, only on a connection without error, and over
TLS only after the handshake whose checks are turned on has passed, for the name that was sent as
SNI.
-/

namespace NgxWasm.Socket.Tcp

open NgxWasm NgxWasm.Lib
open NgxWasm.Lib.Trace (Each)

variable {inetAddr : Bytes → Bool}

/-! ### The loop that sends -/

theorem sendLoop_bytes (as : List SendAns) (bufs : List Bytes) :
    (sendLoop as bufs).2.1 ++ (sendLoop as bufs).1.flatten = bufs.flatten ∧
      (∀ n, (sendLoop as bufs).2.2 = .took n → (sendLoop as bufs).1.flatten = []) := by
  induction as generalizing bufs with
  | nil =>
    cases bufs with
    | nil => exact ⟨rfl, fun _ _ => rfl⟩
    | cons b bs => exact ⟨rfl, fun n h => absurd h (by simp [sendLoop])⟩
  | cons a as ih =>
    cases bufs with
    | nil => exact ⟨by cases a <;> rfl, fun _ _ => by cases a <;> rfl⟩
    | cons b bs =>
      cases a with
      | again => exact ⟨rfl, fun n h => absurd h (by simp [sendLoop])⟩
      | error errno => exact ⟨rfl, fun n h => absurd h (by simp [sendLoop])⟩
      | took n =>
        simp only [sendLoop]
        by_cases hb : b.drop n = []
        · rw [if_pos hb]
          by_cases hbs : bs = []
          · rw [if_pos hbs, hbs]
            exact ⟨by simp, fun _ _ => rfl⟩
          · rw [if_neg hbs]
            obtain ⟨hbytes, hend⟩ := ih bs
            refine ⟨?_, fun k hk => hend k hk⟩
            rw [List.append_assoc, List.flatten_cons, List.nil_append, hbytes, List.flatten_cons]
        · rw [if_neg hb]
          obtain ⟨hbytes, hend⟩ := ih (b.drop n :: bs)
          refine ⟨?_, fun k hk => hend k hk⟩
          rw [List.append_assoc, hbytes, List.flatten_cons, ← List.append_assoc,
            List.take_append_drop, List.flatten_cons]

/-! ### What a step leaves of a socket -/

/-- The name that the handshake of the socket is for. -/
def Named (inetAddr : Bytes → Bool) (s : Sock) : Prop :=
  sslServerName inetAddr (s.sni.getD s.host) = some s.sslServerName

/-- The checks that are turned on have passed. -/
def Verified (inetAddr : Bytes → Bool) (s : Sock) (io : List Io) : Prop :=
  ∀ conf, s.ssl = some conf → ∃ cert name host, .verified cert name host ∈ io ∧
    sslServerName inetAddr (s.sni.getD s.host) = some name ∧
    (conf.verifyCert = true → cert = true) ∧ (conf.verifyHost = true → host = true)

def quiet : Io → Bool
  | .wrote _ => false
  | .done _ => false
  | .cancelled => false
  | _ => true

/-- The filter is told of the end, or the call is cancelled. -/
def ends : Io → Bool
  | .done _ => true
  | .cancelled => true
  | _ => false

theorem ends_quiet {e : Io} (h : quiet e = true) : ends e = false := by
  cases e with
  | done response => exact absurd h (by simp [quiet])
  | cancelled => exact absurd h (by simp [quiet])
  | wrote bytes => rfl
  | failed status => rfl
  | connected => rfl
  | verified cert name host => rfl

structure Grows (inetAddr : Bytes → Bool) (s s' : Sock) (io : List Io) : Prop where
  ssl : s'.ssl = s.ssl
  host : s'.host = s.host
  sni : s'.sni = s.sni
  kept : ∀ e, s.err = some e → s'.err = some e
  clean : s'.err = none → ∀ status, .failed status ∉ io
  connected : s'.connected = true → s.connected = true ∨ .connected ∈ io
  still : s.sslReady = true → s'.sslReady = true
  ready : s'.sslReady = true → s.sslReady = true ∨ Verified inetAddr s io
  quiet : ∀ e ∈ io, quiet e = true

/-- The name and the handler of the handshake stay as well. -/
structure Plain (inetAddr : Bytes → Bool) (s s' : Sock) (io : List Io) : Prop
    extends Grows inetAddr s s' io where
  handler : s'.sslHandler = s.sslHandler
  name : s'.sslServerName = s.sslServerName

theorem Verified.same {s s' : Sock} {io : List Io} (h : Verified inetAddr s io)
    (hssl : s'.ssl = s.ssl) (hhost : s'.host = s.host) (hsni : s'.sni = s.sni) :
    Verified inetAddr s' io := by
  intro conf hconf
  rw [hssl] at hconf
  rw [hhost, hsni]
  exact h conf hconf

theorem Verified.append_right {s : Sock} {io : List Io} (h : Verified inetAddr s io)
    (more : List Io) : Verified inetAddr s (more ++ io) := by
  intro conf hconf
  obtain ⟨cert, name, host, hm, hrest⟩ := h conf hconf
  exact ⟨cert, name, host, List.mem_append_right _ hm, hrest⟩

theorem Verified.append_left {s : Sock} {io : List Io} (h : Verified inetAddr s io)
    (more : List Io) : Verified inetAddr s (io ++ more) := by
  intro conf hconf
  obtain ⟨cert, name, host, hm, hrest⟩ := h conf hconf
  exact ⟨cert, name, host, List.mem_append_left _ hm, hrest⟩

/-- Fields that nothing here depends on may change. -/
theorem grows_same {s s' : Sock} (hssl : s'.ssl = s.ssl) (hhost : s'.host = s.host)
    (hsni : s'.sni = s.sni) (herr : s'.err = s.err) (hconn : s'.connected = s.connected)
    (hready : s'.sslReady = s.sslReady) : Grows inetAddr s s' [] where
  ssl := hssl
  host := hhost
  sni := hsni
  kept := fun e h => herr.trans h
  clean := fun _ _ => by simp
  connected := fun h => Or.inl (hconn ▸ h)
  still := fun h => hready.trans h
  ready := fun h => Or.inl (hready ▸ h)
  quiet := fun e he => absurd he (by simp)

theorem Grows.refl (s : Sock) : Grows inetAddr s s [] := grows_same rfl rfl rfl rfl rfl rfl

theorem Plain.refl (s : Sock) : Plain inetAddr s s [] := ⟨Grows.refl s, rfl, rfl⟩

theorem Grows.trans {s s' s'' : Sock} {io io' : List Io} (h : Grows inetAddr s s' io)
    (h' : Grows inetAddr s' s'' io') : Grows inetAddr s s'' (io ++ io') where
  ssl := h'.ssl.trans h.ssl
  host := h'.host.trans h.host
  sni := h'.sni.trans h.sni
  kept := fun e he => h'.kept e (h.kept e he)
  clean := by
    intro hnone status hm
    have hmid : s'.err = none := by
      cases hs : s'.err with
      | none => rfl
      | some e => exact absurd (h'.kept e hs) (by simp [hnone])
    rcases List.mem_append.mp hm with hm | hm
    · exact h.clean hmid status hm
    · exact h'.clean hnone status hm
  connected := by
    intro hc
    rcases h'.connected hc with hc | hc
    · rcases h.connected hc with hc | hc
      · exact Or.inl hc
      · exact Or.inr (List.mem_append_left _ hc)
    · exact Or.inr (List.mem_append_right _ hc)
  still := fun hs => h'.still (h.still hs)
  ready := by
    intro hr
    rcases h'.ready hr with hr | hr
    · rcases h.ready hr with hr | hr
      · exact Or.inl hr
      · exact Or.inr (hr.append_left io')
    · exact Or.inr ((hr.same h.ssl.symm h.host.symm h.sni.symm).append_right io)
  quiet := by
    intro e he
    rcases List.mem_append.mp he with he | he
    · exact h.quiet e he
    · exact h'.quiet e he

theorem Plain.trans {s s' s'' : Sock} {io io' : List Io} (h : Plain inetAddr s s' io)
    (h' : Plain inetAddr s' s'' io') : Plain inetAddr s s'' (io ++ io') :=
  ⟨h.toGrows.trans h'.toGrows, h'.handler.trans h.handler, h'.name.trans h.name⟩

/-- After a change of other fields. -/
theorem Plain.after {s s' s'' : Sock} {io : List Io} (h : Plain inetAddr s s' [])
    (h' : Plain inetAddr s' s'' io) : Plain inetAddr s s'' io := h.trans h'

theorem Plain.named {s s' : Sock} {io : List Io} (h : Plain inetAddr s s' io)
    (hn : s.sslHandler = true → Named inetAddr s) :
    s'.sslHandler = true → Named inetAddr s' := by
  intro hh
  rw [h.handler] at hh
  rw [Named, h.sni, h.host, h.name]
  exact hn hh

theorem plain_same (s s' : Sock) (hssl : s'.ssl = s.ssl) (hhost : s'.host = s.host)
    (hsni : s'.sni = s.sni) (herr : s'.err = s.err) (hconn : s'.connected = s.connected)
    (hready : s'.sslReady = s.sslReady) (hhandler : s'.sslHandler = s.sslHandler)
    (hname : s'.sslServerName = s.sslServerName) : Plain inetAddr s s' [] :=
  ⟨grows_same hssl hhost hsni herr hconn hready, hhandler, hname⟩

/-! ### The functions of the socket -/

theorem tcpErr_plain (s : Sock) (status : Status) :
    Plain inetAddr s (tcpErr s status).1 (tcpErr s status).2 := by
  unfold tcpErr
  cases he : s.err with
  | some e => exact Plain.refl s
  | none =>
    refine ⟨⟨rfl, rfl, rfl, fun e h => ?_, fun h => ?_, Or.inl, id, Or.inl, ?_⟩, rfl, rfl⟩
    · exact absurd h (by simp [he])
    · exact absurd h (by simp)
    · intro e hm
      rw [List.mem_singleton.mp hm]
      rfl

theorem tcpErr_connected (s : Sock) (status : Status) :
    (tcpErr s status).1.connected = s.connected := by
  unfold tcpErr
  split
  · rfl
  · rfl

/-- An error after the errno was noted. -/
theorem errno_plain (s : Sock) (errno : ℕ) (status : Status) :
    Plain inetAddr s (tcpErr { s with errno } status).1 (tcpErr { s with errno } status).2 :=
  (plain_same s { s with errno } rfl rfl rfl rfl rfl rfl rfl rfl).after (tcpErr_plain _ status)

theorem connectHandler_plain (s : Sock) (a : PeerAns) :
    Plain inetAddr s (connectHandler s a).1 (connectHandler s a).2 ∧
      (s.connected = false → s.err = none → (connectHandler s a).1.connected = true →
        (connectHandler s a).1.err = none) := by
  unfold connectHandler
  split
  · refine ⟨tcpErr_plain s .timeout, ?_⟩
    intro hc _ hconn
    rw [tcpErr_connected, hc] at hconn
    exact absurd hconn (by simp)
  · have hnop : Plain inetAddr s { s with readHandler := .nop, writeHandler := .nop } [] :=
      plain_same _ _ rfl rfl rfl rfl rfl rfl rfl rfl
    split
    · refine ⟨hnop.after (errno_plain _ _ _), ?_⟩
      intro hc _ hconn
      rw [tcpErr_connected] at hconn
      exact absurd (hc.symm.trans hconn) (by simp)
    · split
      · refine ⟨⟨⟨rfl, rfl, rfl, fun e h => h, fun _ _ => by simp, fun _ => Or.inr (by simp), id,
          Or.inl, ?_⟩, rfl, rfl⟩, fun _ he _ => he⟩
        intro e hm
        rw [List.mem_singleton.mp hm]
        rfl
      · exact ⟨hnop, fun _ he _ => he⟩

theorem connectPeer_plain (inetAddr : Bytes → Bool) (s : Sock) (a : PeerAns) :
    Plain inetAddr s (connectPeer s a).1 (connectPeer s a).2.2 ∧
      (s.connected = false → s.err = none → (connectPeer s a).2.1 = .ok →
        (connectPeer s a).1.connected = true → (connectPeer s a).1.err = none) ∧
      ((connectPeer s a).2.1 = .busy → (connectPeer s a).1.connected = s.connected) := by
  unfold connectPeer
  split
  · exact ⟨errno_plain s _ _, fun _ _ h => absurd h (by simp), fun h => absurd h (by simp)⟩
  · split
    · exact ⟨Plain.refl s, fun _ _ h => absurd h (by simp), fun h => absurd h (by simp)⟩
    · exact ⟨tcpErr_plain s _, fun _ _ h => absurd h (by simp), fun _ => tcpErr_connected s _⟩
    · exact ⟨plain_same _ _ rfl rfl rfl rfl rfl rfl rfl rfl, fun _ _ h => absurd h (by simp),
        fun h => absurd h (by simp)⟩
    · have hlinked : Plain inetAddr s
          { s with peer := true, readHandler := .connect, writeHandler := .connect } [] :=
        plain_same _ _ rfl rfl rfl rfl rfl rfl rfl rfl
      obtain ⟨hplain, hclean⟩ := connectHandler_plain
        { s with peer := true, readHandler := .connect, writeHandler := .connect } a
      exact ⟨hlinked.after hplain, fun hc he _ => hclean hc he, fun h => absurd h (by simp)⟩

theorem handshakeDone_plain {s : Sock} (a : TlsAns) (hname : Named inetAddr s) :
    Plain inetAddr s (handshakeDone s a).1 (handshakeDone s a).2.2 ∧
      ((handshakeDone s a).2.1 = .ok → (handshakeDone s a).1.err = s.err ∧
        (handshakeDone s a).1.sslReady = true) ∧ (handshakeDone s a).2.1 ≠ .busy := by
  simp only [handshakeDone]
  split
  · exact ⟨Plain.refl s, fun h => absurd h (by simp), by simp⟩
  split
  · exact ⟨tcpErr_plain s _, fun h => absurd h (by simp), by simp⟩
  rename_i hcert
  split
  · exact ⟨tcpErr_plain s _, fun h => absurd h (by simp), by simp⟩
  rename_i hhost
  refine ⟨⟨⟨rfl, rfl, rfl, fun e h => h, fun _ _ => by simp, Or.inl, fun _ => rfl, fun _ => ?_, ?_⟩,
    rfl, rfl⟩, fun _ => ⟨rfl, rfl⟩, by simp⟩
  · refine Or.inr ?_
    intro conf hconf
    rw [hconf, Option.getD_some] at hcert hhost
    refine ⟨a.certOk, s.sslServerName, a.hostOk s.sslServerName, List.mem_cons_self .., hname,
      ?_, ?_⟩
    · intro hv
      simpa [hv] using hcert
    · intro hv
      simpa [hv] using hhost
  · intro e hm
    rw [List.mem_singleton.mp hm]
    rfl

theorem setServerName_grows (inetAddr : Bytes → Bool) (s : Sock) (a : TlsAns) :
    Grows inetAddr s (setServerName inetAddr s a).1 (setServerName inetAddr s a).2.2 ∧
      ((setServerName inetAddr s a).2.1 = .ok → Named inetAddr (setServerName inetAddr s a).1 ∧
        (setServerName inetAddr s a).1.err = s.err) := by
  unfold setServerName
  split
  · have herr : Grows inetAddr s _ _ := (tcpErr_plain s .tlsFailure).toGrows
    refine ⟨⟨herr.ssl, herr.host, herr.sni, herr.kept, herr.clean, herr.connected, herr.still,
      herr.ready, herr.quiet⟩, fun h => absurd h (by simp)⟩
  · rename_i name hn
    split
    · exact ⟨grows_same rfl rfl rfl rfl rfl rfl, fun _ => ⟨hn, rfl⟩⟩
    · exact ⟨grows_same rfl rfl rfl rfl rfl rfl, fun h => absurd h (by simp)⟩

/-- After a handshake that is done the socket has no error and is ready. -/
theorem sslHandshake_grows (inetAddr : Bytes → Bool) (s : Sock) (a : TlsAns) :
    Grows inetAddr s (sslHandshake inetAddr s a).1 (sslHandshake inetAddr s a).2.2 ∧
      ((sslHandshake inetAddr s a).2.1 ≠ .error →
        (s.sslHandler = true → Named inetAddr s) →
          ((sslHandshake inetAddr s a).1.sslHandler = true →
            Named inetAddr (sslHandshake inetAddr s a).1)) ∧
      ((sslHandshake inetAddr s a).2.1 = .ok → (sslHandshake inetAddr s a).1.err = none ∧
        (sslHandshake inetAddr s a).1.sslReady = true) ∧
      (sslHandshake inetAddr s a).2.1 ≠ .busy := by
  unfold sslHandshake
  split
  · exact ⟨Grows.refl s, fun h => absurd rfl h, fun h => absurd h (by simp), by simp⟩
  rename_i herr
  have hnone : s.err = none := by simpa using herr
  split
  · rename_i hready
    exact ⟨Grows.refl s, fun _ hn => hn, fun _ => ⟨hnone, hready⟩, by simp⟩
  split
  · exact ⟨Grows.refl s, fun h => absurd rfl h, fun h => absurd h (by simp), by simp⟩
  obtain ⟨hgrows, hok⟩ := setServerName_grows inetAddr s a
  rcases hset : setServerName inetAddr s a with ⟨t, rc, io⟩
  rw [hset] at hgrows hok
  split
  · rename_i t' io' heq
    obtain ⟨rfl, hrest⟩ := Prod.ext_iff.mp heq
    obtain ⟨hrc, hio⟩ := Prod.ext_iff.mp hrest
    obtain rfl : io = io' := hio
    obtain ⟨hnamed, hsame⟩ := hok hrc
    split
    · obtain ⟨hplain, hdone, hbusy⟩ := handshakeDone_plain a hnamed
      refine ⟨hgrows.trans hplain.toGrows, fun _ _ => hplain.named fun _ => hnamed, ?_, hbusy⟩
      intro h
      obtain ⟨he, hr⟩ := hdone h
      exact ⟨he.trans (hsame.trans hnone), hr⟩
    · refine ⟨?_, fun _ _ _ => hnamed, fun h => absurd h (by simp), by simp⟩
      exact ⟨hgrows.ssl, hgrows.host, hgrows.sni, hgrows.kept, hgrows.clean, hgrows.connected,
        hgrows.still, hgrows.ready, hgrows.quiet⟩
    · exact ⟨hgrows, fun h => absurd rfl h, fun h => absurd h (by simp), by simp⟩
  · rename_i t' rc' io' _ heq
    obtain ⟨rfl, hrest⟩ := Prod.ext_iff.mp heq
    obtain rfl : io = io' := (Prod.ext_iff.mp hrest).2
    exact ⟨hgrows, fun h => absurd rfl h, fun h => absurd h (by simp), by simp⟩

/-- A socket that is connected after an answer other than an error or `NGX_AGAIN` has no error, and
its handshake is done. -/
theorem tcpConnect_grows (inetAddr : Bytes → Bool) (s : Sock) (a : Answers) :
    Grows inetAddr s (tcpConnect inetAddr s a).1 (tcpConnect inetAddr s a).2.2 ∧
      ((tcpConnect inetAddr s a).2.1 ≠ .error →
        (s.sslHandler = true → Named inetAddr s) →
          ((tcpConnect inetAddr s a).1.sslHandler = true →
            Named inetAddr (tcpConnect inetAddr s a).1)) ∧
      ((tcpConnect inetAddr s a).2.1 = .ok ∨ (tcpConnect inetAddr s a).2.1 = .busy →
        (tcpConnect inetAddr s a).1.connected = true →
          (tcpConnect inetAddr s a).1.err = none ∧
            (s.ssl.isSome = true → (tcpConnect inetAddr s a).1.sslReady = true)) := by
  unfold tcpConnect
  split
  · exact ⟨Grows.refl s, fun h => absurd rfl h, fun h => absurd h (by simp)⟩
  rename_i herr
  have hnone : s.err = none := by simpa using herr
  split
  · split
    · obtain ⟨hgrows, hnamed, hok, hbusy⟩ := sslHandshake_grows inetAddr s a.tls
      refine ⟨hgrows, hnamed, ?_⟩
      intro h _
      rcases h with h | h
      · exact ⟨(hok h).1, fun _ => (hok h).2⟩
      · exact absurd h hbusy
    · rename_i hssl
      exact ⟨Grows.refl s, fun _ hn => hn, fun _ _ => ⟨hnone, fun h => absurd h hssl⟩⟩
  rename_i hconn
  have hoff : s.connected = false := by simpa using hconn
  split
  · obtain ⟨hplain, hclean, hbusy⟩ := connectPeer_plain inetAddr s a.peer
    rcases hpeer : connectPeer s a.peer with ⟨t, rc, io⟩
    rw [hpeer] at hplain hclean hbusy
    split
    · rename_i t' io' heq
      obtain ⟨rfl, hrest⟩ := Prod.ext_iff.mp heq
      obtain ⟨hrc, hio⟩ := Prod.ext_iff.mp hrest
      obtain rfl : io = io' := hio
      split
      · obtain ⟨hgrows, hnamed, hok, hnb⟩ := sslHandshake_grows inetAddr t a.tls
        refine ⟨hplain.toGrows.trans hgrows, fun h hn => hnamed h (hplain.named hn), ?_⟩
        intro h _
        rcases h with h | h
        · exact ⟨(hok h).1, fun _ => (hok h).2⟩
        · exact absurd h hnb
      · rename_i hssl
        refine ⟨hplain.toGrows, fun _ hn => hplain.named hn, ?_⟩
        intro _ hc
        refine ⟨hclean hoff hnone hrc hc, fun h => absurd ?_ hssl⟩
        rw [show t.ssl = s.ssl from hplain.ssl]
        exact h
    · rename_i hnok
      refine ⟨hplain.toGrows, fun _ hn => hplain.named hn, ?_⟩
      intro h hc
      rcases h with h | h
      · have hrc : rc = .ok := h
        subst hrc
        exact absurd rfl (hnok t io)
      · have hsame := hbusy h
        have hc' : t.connected = true := hc
        rw [show t.connected = s.connected from hsame, hoff] at hc'
        exact absurd hc' (by simp)
  split
  · exact ⟨(tcpErr_plain s _).toGrows, fun h => absurd rfl h, fun h => absurd h (by simp)⟩
  split
  · exact ⟨Grows.refl s, fun _ hn => hn, fun h => absurd h (by simp)⟩
  · exact ⟨Grows.refl s, fun h => absurd rfl h, fun h => absurd h (by simp)⟩

theorem eventHandler_plain (s : Sock) (write timedout : Bool) (a : PeerAns) :
    Plain inetAddr s (eventHandler s write timedout a).1 (eventHandler s write timedout a).2 := by
  unfold eventHandler
  split
  · exact (connectHandler_plain s a).1
  · split
    · exact tcpErr_plain s _
    · exact Plain.refl s
  · split
    · exact tcpErr_plain s _
    · exact Plain.refl s
  · exact Plain.refl s

theorem tcpRead_plain (s : Sock) (a : ReadAns) :
    Plain inetAddr s (tcpRead s a).1 (tcpRead s a).2.2 := by
  unfold tcpRead
  split
  · exact tcpErr_plain s _
  have hrecv : Plain inetAddr s { s with readHandler := .receive } [] :=
    plain_same _ _ rfl rfl rfl rfl rfl rfl rfl rfl
  cases a with
  | ok => exact plain_same _ _ rfl rfl rfl rfl rfl rfl rfl rfl
  | again => exact hrecv
  | recvError errno => exact hrecv.after (errno_plain _ _ _)
  | parserError => exact hrecv.after (tcpErr_plain _ _)
  | failed => exact hrecv

theorem tcpClose_plain (s : Sock) : Plain inetAddr s (tcpClose s) [] := by
  unfold tcpClose
  split
  · exact Plain.refl s
  · exact ⟨⟨rfl, rfl, rfl, fun e h => h, fun _ _ => by simp, fun h => absurd h (by simp), id,
      Or.inl, fun e he => absurd he (by simp)⟩, rfl, rfl⟩

theorem tcpSend_off (inetAddr : Bytes → Bool) {s : Sock} (bufs : List Bytes) (a : WriteAns) (h : s.connected = false) :
    Plain inetAddr s (tcpSend s bufs a).1 (tcpSend s bufs a).2.2.2 ∧
      (tcpSend s bufs a).2.1 = bufs ∧ (tcpSend s bufs a).2.2.1 = .error := by
  unfold tcpSend
  rw [if_pos (by simp [h])]
  exact ⟨tcpErr_plain s _, rfl, rfl⟩

theorem tcpSend_on (inetAddr : Bytes → Bool) {s : Sock} (bufs : List Bytes) (a : WriteAns) (h : s.connected = true) :
    ∃ bytes io, (tcpSend s bufs a).2.2.2 = .wrote bytes :: io ∧
      Plain inetAddr s (tcpSend s bufs a).1 io ∧
      bytes ++ (tcpSend s bufs a).2.1.flatten = bufs.flatten ∧
      ((tcpSend s bufs a).2.2.1 = .ok → (tcpSend s bufs a).2.1.flatten = []) ∧
      (tcpSend s bufs a).2.2.1 ≠ .busy := by
  unfold tcpSend
  rw [if_neg (by simp [h])]
  obtain ⟨hbytes, hend⟩ := sendLoop_bytes a.sends bufs
  rcases hloop : sendLoop a.sends bufs with ⟨left, bytes, ans⟩
  rw [hloop] at hbytes hend
  cases ans with
  | took n =>
    refine ⟨bytes, [], rfl, plain_same _ _ rfl rfl rfl rfl rfl rfl rfl rfl, hbytes, ?_, ?_⟩
    · exact fun _ => hend n rfl
    · cases a.event with
      | false => simp
      | true => simp
  | again =>
    refine ⟨bytes, [], rfl, plain_same _ _ rfl rfl rfl rfl rfl rfl rfl rfl, hbytes, ?_, ?_⟩
    · cases a.event with
      | false => exact fun hc => absurd hc (by simp)
      | true => exact fun hc => absurd hc (by simp)
    · cases a.event with
      | false => simp
      | true => simp
  | error errno =>
    exact ⟨bytes, _, rfl, errno_plain s _ _, hbytes, fun hc => absurd hc (by simp), by simp⟩

/-! ### Traces -/

def written (t : List Io) : Bytes :=
  t.flatMap fun e =>
    match e with
    | .wrote bytes => bytes
    | _ => []

theorem written_append (t u : List Io) : written (t ++ u) = written t ++ written u :=
  List.flatMap_append ..

theorem written_quiet {t : List Io} (h : ∀ e ∈ t, quiet e = true) : written t = [] := by
  refine List.flatMap_eq_nil_iff.mpr ?_
  intro e he
  have hq := h e he
  cases e with
  | wrote bytes => exact absurd hq (by simp [quiet])
  | failed status => rfl
  | connected => rfl
  | verified cert name host => rfl
  | done response => exact absurd hq (by simp [quiet])
  | cancelled => exact absurd hq (by simp [quiet])

/-- What may happen after `before`. -/
def Allowed (inetAddr : Bytes → Bool) (cfg : Sock) (request : List Bytes) (before : List Io) :
    Io → Prop
  | .wrote _ => .connected ∈ before ∧ Verified inetAddr cfg before ∧
      (∀ status, .failed status ∉ before) ∧ ∀ e ∈ before, ends e = false
  | .done response => (∀ e ∈ before, ends e = false) ∧
      (response = true → written before = request.flatten)
  | _ => ∀ e ∈ before, ends e = false

theorem each_quiet {P : List Io → Io → Prop} {t io : List Io} (h : Each P t)
    (ht : ∀ e ∈ t, ends e = false)
    (hP : ∀ before e, (∀ x ∈ before, ends x = false) → quiet e = true → P before e)
    (hio : ∀ e ∈ io, quiet e = true) : Each P (t ++ io) := by
  induction io generalizing t with
  | nil =>
    rw [List.append_nil]
    exact h
  | cons e io ih =>
    have he := hio e (List.mem_cons_self ..)
    have hone := h.snoc (hP t e ht he)
    have hnot : ∀ x ∈ t ++ [e], ends x = false := by
      intro x hx
      rcases List.mem_append.mp hx with hx | hx
      · exact ht x hx
      · rw [List.mem_singleton.mp hx]
        exact ends_quiet he
    have hrest := ih hone hnot fun x hx => hio x (List.mem_cons_of_mem _ hx)
    rwa [List.append_assoc, List.singleton_append] at hrest

theorem allowed_quiet (cfg : Sock) (request : List Bytes) (before : List Io) (e : Io)
    (hbefore : ∀ x ∈ before, ends x = false) (h : quiet e = true) :
    Allowed inetAddr cfg request before e := by
  cases e with
  | wrote bytes => exact absurd h (by simp [quiet])
  | done response => exact absurd h (by simp [quiet])
  | cancelled => exact absurd h (by simp [quiet])
  | failed status => exact hbefore
  | connected => exact hbefore
  | verified cert name host => exact hbefore

/-! ### What holds of a dispatch -/

structure Safe (inetAddr : Bytes → Bool) (cfg : Sock) (request : List Bytes) (c : Call)
    (t : List Io) : Prop where
  ssl : c.sock.ssl = cfg.ssl
  host : c.sock.host = cfg.host
  sni : c.sock.sni = cfg.sni
  wire : written t ++ c.reqOut.flatten = request.flatten
  connected : c.sock.connected = true → .connected ∈ t
  ready : c.sock.sslReady = true → Verified inetAddr cfg t
  clean : c.sock.err = none → ∀ status, .failed status ∉ t
  running : c.freed = false → ∀ e ∈ t, ends e = false
  closed : c.freed = true → c.sock.closed = true
  sent : c.state = .receiving ∨ c.state = .received → c.reqOut.flatten = []
  each : Each (Allowed inetAddr cfg request) t

structure Live (inetAddr : Bytes → Bool) (c : Call) : Prop where
  named : c.sock.sslHandler = true → Named inetAddr c.sock
  tls : c.state ≠ .start → c.state ≠ .connecting → c.sock.ssl.isSome = true →
    c.sock.sslReady = true

variable {cfg : Sock} {request : List Bytes}

theorem safe_sock {c : Call} {t io : List Io} (h : Safe inetAddr cfg request c t)
    (hf : c.freed = false) {s' : Sock} (hg : Grows inetAddr c.sock s' io) :
    Safe inetAddr cfg request { c with sock := s' } (t ++ io) where
  ssl := hg.ssl.trans h.ssl
  host := hg.host.trans h.host
  sni := hg.sni.trans h.sni
  wire := by
    rw [written_append, written_quiet hg.quiet, List.append_nil]
    exact h.wire
  connected := by
    intro hc
    rcases hg.connected hc with hc | hc
    · exact List.mem_append_left _ (h.connected hc)
    · exact List.mem_append_right _ hc
  ready := by
    intro hr
    rcases hg.ready hr with hr | hr
    · exact (h.ready hr).append_left io
    · exact (hr.same h.ssl.symm h.host.symm h.sni.symm).append_right t
  clean := by
    intro hnone status hm
    rcases List.mem_append.mp hm with hm | hm
    · have hbefore : c.sock.err = none := by
        cases he : c.sock.err with
        | none => rfl
        | some e => exact absurd (hg.kept e he) (by rw [show s'.err = none from hnone]; simp)
      exact h.clean hbefore status hm
    · exact hg.clean hnone status hm
  running := by
    intro hf e hm
    rcases List.mem_append.mp hm with hm | hm
    · exact h.running hf e hm
    · exact ends_quiet (hg.quiet e hm)
  closed := fun hfreed => absurd (hf.symm.trans hfreed) (by simp)
  sent := h.sent
  each := each_quiet h.each (h.running hf) (allowed_quiet cfg request) hg.quiet

theorem tcpClose_closed (s : Sock) : (tcpClose s).closed = true := by
  unfold tcpClose
  split
  · assumption
  · rfl

/-- The end of a call. -/
theorem safe_end {c : Call} {t : List Io} (h : Safe inetAddr cfg request c t)
    (hf : c.freed = false) {e : Io} (he : ends e = true)
    (hallowed : Allowed inetAddr cfg request t e) :
    Safe inetAddr cfg request (destroyCall c) (t ++ [e]) := by
  have hclosed := safe_sock h hf (tcpClose_plain c.sock).toGrows
  rw [List.append_nil] at hclosed
  have hnot : e ≠ .connected ∧ (∀ bytes, e ≠ .wrote bytes) ∧ ∀ status, e ≠ .failed status := by
    refine ⟨?_, fun bytes => ?_, fun status => ?_⟩
    all_goals
      rintro rfl
      exact absurd he (by simp [ends])
  constructor
  · exact hclosed.ssl
  · exact hclosed.host
  · exact hclosed.sni
  · have hnone : written [e] = [] := by
      cases e with
      | wrote bytes => exact absurd rfl (hnot.2.1 bytes)
      | failed status => rfl
      | connected => rfl
      | verified cert name host => rfl
      | done response => rfl
      | cancelled => rfl
    rw [written_append, hnone, List.append_nil]
    exact h.wire
  · exact fun hc => List.mem_append_left _ (hclosed.connected hc)
  · exact fun hd => (hclosed.ready hd).append_left _
  · intro hnone status hm
    refine hclosed.clean hnone status ((List.mem_append.mp hm).resolve_right ?_)
    rw [List.mem_singleton]
    exact fun heq => hnot.2.2 status heq.symm
  · intro hfreed
    exact absurd hfreed (by simp [destroyCall])
  · exact fun _ => tcpClose_closed c.sock
  · exact h.sent
  · exact h.each.snoc hallowed

/-- The filter is told of the end; a response needs the whole request to be out. -/
theorem safe_done {c : Call} {t : List Io} (h : Safe inetAddr cfg request c t)
    (hf : c.freed = false) (response : Bool) (hr : response = true → c.reqOut.flatten = []) :
    Safe inetAddr cfg request (destroyCall c) (t ++ [.done response]) := by
  refine safe_end h hf rfl ⟨h.running hf, ?_⟩
  intro hresp
  have hwire := h.wire
  rwa [hr hresp, List.append_nil] at hwire

/-- A result of a handler, from the trace `t` on. -/
def Good (inetAddr : Bytes → Bool) (cfg : Sock) (request : List Bytes) (t : List Io)
    (r : Call × List Io) : Prop :=
  Safe inetAddr cfg request r.1 (t ++ r.2) ∧ (r.1.freed = false → Live inetAddr r.1)

theorem dispatchErr_good {c : Call} {t io : List Io} (h : Safe inetAddr cfg request c (t ++ io))
    (hf : c.freed = false) : Good inetAddr cfg request t (dispatchErr c io) := by
  refine ⟨?_, fun hfreed => absurd hfreed (by simp [dispatchErr, destroyCall])⟩
  have hdone := safe_done h hf false fun hc => absurd hc (by simp)
  rwa [List.append_assoc] at hdone

theorem runReceived_good {c : Call} {t io : List Io} (a : CallAns)
    (h : Safe inetAddr cfg request c (t ++ io)) (hf : c.freed = false)
    (hs : c.state = .received) : Good inetAddr cfg request t (runReceived c a io) := by
  have hclosed := safe_sock h hf (tcpClose_plain c.sock).toGrows
  rw [List.append_nil] at hclosed
  simp only [runReceived]
  split
  · exact dispatchErr_good hclosed hf
  · refine ⟨?_, fun hfreed => absurd hfreed (by simp [destroyCall])⟩
    have hdone := safe_done hclosed hf true fun _ => h.sent (Or.inr hs)
    rwa [List.append_assoc] at hdone

theorem runReceiving_good {c : Call} {t io : List Io} (a : CallAns)
    (h : Safe inetAddr cfg request c (t ++ io)) (hf : c.freed = false)
    (hl : Live inetAddr c) (hs : c.state = .receiving) :
    Good inetAddr cfg request t (runReceiving c a io) := by
  have hplain : Plain inetAddr c.sock (tcpRead c.sock a.read).1 (tcpRead c.sock a.read).2.2 :=
    tcpRead_plain c.sock a.read
  simp only [runReceiving]
  generalize tcpRead c.sock a.read = r at hplain ⊢
  have hread := safe_sock h hf hplain.toGrows
  rw [List.append_assoc] at hread
  have hlive : Live inetAddr { c with sock := r.1 } := by
    refine ⟨hplain.named hl.named, ?_⟩
    intro hn hn' hssl
    rw [hplain.ssl] at hssl
    exact hplain.still (hl.tls hn hn' hssl)
  split
  · exact dispatchErr_good hread hf
  · exact ⟨hread, fun _ => hlive⟩
  · refine runReceived_good a ?_ hf rfl
    exact ⟨hread.ssl, hread.host, hread.sni, hread.wire, hread.connected, hread.ready, hread.clean,
      hread.running, hread.closed, fun _ => h.sent (Or.inl hs), hread.each⟩

/-- What was written goes into the trace before what the sending ended with. -/
theorem safe_wrote {c : Call} {t : List Io} (h : Safe inetAddr cfg request c t)
    (hf : c.freed = false) (hc : c.sock.connected = true) (herr : c.sock.err = none)
    (hready : c.sock.ssl.isSome = true → c.sock.sslReady = true) {bytes : Bytes}
    {left : List Bytes} (hbytes : bytes ++ left.flatten = c.reqOut.flatten)
    (hs : c.state ≠ .receiving ∧ c.state ≠ .received) :
    Safe inetAddr cfg request { c with reqOut := left } (t ++ [.wrote bytes]) := by
  have hverified : Verified inetAddr cfg t := by
    intro conf hconf
    have hssl : c.sock.ssl.isSome = true := by
      rw [h.ssl, hconf]
      rfl
    exact h.ready (hready hssl) conf hconf
  constructor
  · exact h.ssl
  · exact h.host
  · exact h.sni
  · have hwire := h.wire
    rw [← hbytes, ← List.append_assoc] at hwire
    rw [written_append]
    simpa [written] using hwire
  · exact fun hc' => List.mem_append_left _ (h.connected hc')
  · exact fun hr => (h.ready hr).append_left _
  · intro hnone status hm
    exact h.clean hnone status ((List.mem_append.mp hm).resolve_right (by simp))
  · intro hfreed e hm
    rcases List.mem_append.mp hm with hm | hm
    · exact h.running hfreed e hm
    · rw [List.mem_singleton.mp hm]
      rfl
  · exact h.closed
  · intro hor
    rcases hor with hor | hor
    · exact absurd hor hs.1
    · exact absurd hor hs.2
  · exact h.each.snoc ⟨h.connected hc, hverified, h.clean herr, h.running hf⟩

theorem runSending_good {c : Call} {t io : List Io} (a : CallAns)
    (h : Safe inetAddr cfg request c (t ++ io)) (hf : c.freed = false) (hs : c.state = .sending)
    (hnamed : c.sock.sslHandler = true → Named inetAddr c.sock)
    (hready : c.sock.connected = true →
      c.sock.err = none ∧ (c.sock.ssl.isSome = true → c.sock.sslReady = true)) :
    Good inetAddr cfg request t (runSending c a io) := by
  simp only [runSending]
  split
  · exact dispatchErr_good h hf
  cases hc : c.sock.connected with
  | false =>
    obtain ⟨hplain, hbufs, hrc⟩ := tcpSend_off inetAddr c.reqOut a.write hc
    have hsend := safe_sock h hf hplain.toGrows
    rw [List.append_assoc] at hsend
    rw [hrc, hbufs]
    exact dispatchErr_good hsend hf
  | true =>
    obtain ⟨herr, htls⟩ := hready hc
    obtain ⟨bytes, more, hio, hplain, hbytes, hall, hbusy⟩ :=
      tcpSend_on inetAddr c.reqOut a.write hc
    have hstate : c.state ≠ .receiving ∧ c.state ≠ .received := by simp [hs]
    have hwrote := safe_wrote h hf hc herr htls hbytes hstate
    have hsend := safe_sock hwrote hf hplain.toGrows
    rw [hio]
    generalize tcpSend c.sock c.reqOut a.write = r at hplain hall hbusy hsend ⊢
    have htrace : t ++ io ++ [.wrote bytes] ++ more = t ++ (io ++ .wrote bytes :: more) := by
      simp
    rw [htrace] at hsend
    have hlive : ∀ state, Live inetAddr { c with sock := r.1, reqOut := r.2.1, state := state } := by
      intro state
      refine ⟨hplain.named hnamed, ?_⟩
      intro _ _ hssl
      rw [hplain.ssl] at hssl
      exact hplain.still (htls hssl)
    cases hrc : r.2.2.1 with
    | error => exact dispatchErr_good hsend hf
    | again => exact ⟨hsend, fun _ => hlive c.state⟩
    | busy => exact absurd hrc hbusy
    | ok =>
      refine runReceiving_good a ?_ hf (hlive .receiving) rfl
      exact ⟨hsend.ssl, hsend.host, hsend.sni, hsend.wire, hsend.connected, hsend.ready,
        hsend.clean, hsend.running, hsend.closed, fun _ => hall hrc, hsend.each⟩

theorem runConnecting_good {c : Call} {t : List Io} (a : CallAns)
    (h : Safe inetAddr cfg request c t) (hf : c.freed = false)
    (hnamed : c.sock.sslHandler = true → Named inetAddr c.sock) (hs : c.state = .connecting) :
    Good inetAddr cfg request t (runConnecting inetAddr c a) := by
  obtain ⟨hgrows, hname, hready⟩ := tcpConnect_grows inetAddr c.sock a.answers
  simp only [runConnecting]
  generalize tcpConnect inetAddr c.sock a.answers = r at hgrows hname hready ⊢
  have hconn := safe_sock h hf hgrows
  have hsend : r.2.1 = .ok ∨ r.2.1 = .busy → Good inetAddr cfg request t
      (runSending { c with sock := r.1, state := .sending } a r.2.2) := by
    intro hor
    refine runSending_good a ?_ hf rfl ?_ ?_
    · exact ⟨hconn.ssl, hconn.host, hconn.sni, hconn.wire, hconn.connected, hconn.ready,
        hconn.clean, hconn.running, hconn.closed, fun hst => absurd hst (by simp), hconn.each⟩
    · refine hname ?_ hnamed
      rcases hor with hor | hor
      · simp [hor]
      · simp [hor]
    · intro hc
      obtain ⟨herr, htls⟩ := hready hor hc
      refine ⟨herr, fun hssl => htls ?_⟩
      rwa [hgrows.ssl] at hssl
  cases hrc : r.2.1 with
  | error => exact dispatchErr_good hconn hf
  | again =>
    refine ⟨hconn, fun _ => ⟨hname (by simp [hrc]) hnamed, ?_⟩⟩
    intro _ hne _
    exact absurd hs hne
  | ok => exact hsend (Or.inl hrc)
  | busy => exact hsend (Or.inr hrc)

theorem dispatchResume_good {c : Call} {t : List Io} (a : CallAns)
    (h : Safe inetAddr cfg request c t) (hf : c.freed = false) (hl : Live inetAddr c) :
    Good inetAddr cfg request t (dispatchResume inetAddr c a) := by
  have hnil : Safe inetAddr cfg request c (t ++ []) := by
    rw [List.append_nil]
    exact h
  unfold dispatchResume
  split
  · exact dispatchErr_good hnil hf
  rename_i herr
  have hnone : c.sock.err = none := by simpa using herr
  cases hs : c.state with
  | start =>
    refine runConnecting_good a ?_ hf hl.named rfl
    exact ⟨h.ssl, h.host, h.sni, h.wire, h.connected, h.ready, h.clean, h.running, h.closed,
      fun hst => absurd hst (by simp), h.each⟩
  | connecting => exact runConnecting_good a h hf hl.named hs
  | sending =>
    refine runSending_good a hnil hf hs hl.named ?_
    intro _
    exact ⟨hnone, hl.tls (by simp [hs]) (by simp [hs])⟩
  | receiving => exact runReceiving_good a hnil hf hl hs
  | received => exact runReceived_good a hnil hf hs

theorem resumeWith_good {c : Call} {t : List Io} (a : CallAns) {r : Sock × List Io}
    (h : Safe inetAddr cfg request c t) (hf : c.freed = false) (hl : Live inetAddr c)
    (hp : Plain inetAddr c.sock r.1 r.2) :
    Good inetAddr cfg request t (resumeWith inetAddr c r a) := by
  have hlive : Live inetAddr { c with sock := r.1 } := by
    refine ⟨hp.named hl.named, ?_⟩
    intro hn hn' hssl
    rw [hp.ssl] at hssl
    exact hp.still (hl.tls hn hn' hssl)
  obtain ⟨hsafe, hend⟩ := dispatchResume_good a (safe_sock h hf hp.toGrows) hf hlive
  simp only [resumeWith]
  refine ⟨?_, hend⟩
  rwa [List.append_assoc] at hsafe

/-- Nginx's resolver answers no call that is over. -/
def Timely (c : Call) : TcpEv → Prop
  | .resolved _ _ => c.freed = false
  | .unplaced _ => c.freed = false
  | _ => True

/-- One event of a call that is there. -/
theorem liveStep_good {c : Call} {t : List Io} (ev : TcpEv) (h : Safe inetAddr cfg request c t)
    (hf : c.freed = false) (hl : Live inetAddr c) :
    Good inetAddr cfg request t (tcpStep inetAddr c ev) := by
  have hstay : Good inetAddr cfg request t (c, []) := by
    refine ⟨?_, fun _ => hl⟩
    rw [List.append_nil]
    exact h
  have hplain : ∀ s' io, Plain inetAddr c.sock s' io →
      Good inetAddr cfg request t ({ c with sock := s' }, io) := by
    intro s' io hp
    refine ⟨safe_sock h hf hp.toGrows, fun _ => ⟨hp.named hl.named, ?_⟩⟩
    intro hn hn' hssl
    rw [hp.ssl] at hssl
    exact hp.still (hl.tls hn hn' hssl)
  cases ev with
  | start a =>
    simp only [tcpStep, hf, Bool.false_eq_true, ↓reduceIte]
    exact dispatchResume_good a h hf hl
  | resolved ok a =>
    cases ok with
    | false =>
      simp only [tcpStep]
      split
      · exact hplain _ _ (tcpErr_plain c.sock _)
      · exact resumeWith_good a h hf hl (tcpErr_plain c.sock _)
    | true => exact hplain _ _ (connectPeer_plain inetAddr c.sock a.answers.peer).1
  | unplaced a =>
    simp only [tcpStep]
    split
    · exact hstay
    · exact dispatchResume_good a h hf hl
  | event write timedout a =>
    simp only [tcpStep]
    split
    · exact hstay
    · exact resumeWith_good a h hf hl (eventHandler_plain c.sock write timedout _)
  | handshake a =>
    simp only [tcpStep]
    split
    · exact hstay
    rename_i hhandler
    have hset : c.sock.sslHandler = true := by simpa [hf] using hhandler
    have hdone := (handshakeDone_plain a.answers.tls (hl.named hset)).1
    rcases hr : handshakeDone c.sock a.answers.tls with ⟨s', rc, io⟩
    rw [hr] at hdone
    split
    · rename_i s'' io' heq
      obtain ⟨rfl, hrest⟩ := Prod.ext_iff.mp heq
      obtain rfl : io = io' := (Prod.ext_iff.mp hrest).2
      exact resumeWith_good a h hf hl (hdone.trans (tcpErr_plain s' .tlsFailure))
    · rename_i s'' rc' io' _ heq
      obtain ⟨rfl, hrest⟩ := Prod.ext_iff.mp heq
      obtain rfl : io = io' := (Prod.ext_iff.mp hrest).2
      exact resumeWith_good a h hf hl hdone
  | cancel =>
    simp only [tcpStep, hf, Bool.false_eq_true, ↓reduceIte]
    exact ⟨safe_end h hf rfl (h.running hf), fun hfreed => absurd hfreed (by simp [destroyCall])⟩

/-- A call that is over has no posted event and no connection left. -/
theorem freedStep_eq {c : Call} {t : List Io} {ev : TcpEv} (h : Safe inetAddr cfg request c t)
    (hf : c.freed = true) (ht : Timely c ev) : tcpStep inetAddr c ev = (c, []) := by
  cases ev with
  | start a => exact if_pos hf
  | resolved ok a => exact absurd (hf.symm.trans ht) (by simp)
  | unplaced a => exact absurd (hf.symm.trans ht) (by simp)
  | event write timedout a => exact if_pos (h.closed hf)
  | handshake a => exact if_pos (by simp [hf])
  | cancel => exact if_pos hf

theorem tcpStep_good {c : Call} {t : List Io} (ev : TcpEv) (h : Safe inetAddr cfg request c t)
    (hl : c.freed = false → Live inetAddr c) (ht : Timely c ev) :
    Good inetAddr cfg request t (tcpStep inetAddr c ev) := by
  cases hf : c.freed with
  | false => exact liveStep_good ev h hf (hl hf)
  | true =>
    rw [freedStep_eq h hf ht]
    refine ⟨?_, hl⟩
    rw [List.append_nil]
    exact h

theorem exec_good (evs : List TcpEv) {c : Call} {t : List Io}
    (h : Safe inetAddr cfg request c t) (hl : c.freed = false → Live inetAddr c)
    (ht : Run.Meets (tcpStep inetAddr) Timely c evs) :
    Safe inetAddr cfg request (Run.exec (tcpStep inetAddr) c evs).1
      (t ++ (Run.exec (tcpStep inetAddr) c evs).2.flatten) := by
  induction evs generalizing c t with
  | nil =>
    rw [Run.exec_nil, List.flatten_nil, List.append_nil]
    exact h
  | cons ev evs ih =>
    obtain ⟨hsafe, hlive⟩ := tcpStep_good ev h hl ht.1
    rw [Run.exec_cons, List.flatten_cons, ← List.append_assoc]
    exact ih hsafe hlive ht.2

/-- In every run of a dispatch in which nginx's resolver answers no call that is over, each write
happens on a connection that is made and has no error, over TLS only once the checks that are turned
on have passed for the name sent as SNI, and before the filter is told of the end or the call is
cancelled. One of these comes once, with a response only when the whole request is out, and no
connection is made after it. What was written is always the beginning of the request. -/
theorem dispatch_writes (inetAddr : Bytes → Bool) (ssl : Option SslConf) (host : Bytes)
    (sni : Option Bytes) (literal : Bool) (request : List Bytes) (evs : List TcpEv)
    (ht : Run.Meets (tcpStep inetAddr) Timely (newCall (newSock ssl host sni literal) request)
      evs) :
    let r := Run.exec (tcpStep inetAddr) (newCall (newSock ssl host sni literal) request) evs
    Each (Allowed inetAddr (newSock ssl host sni literal) request) r.2.flatten ∧
      written r.2.flatten ++ r.1.reqOut.flatten = request.flatten ∧
      (r.1.state = .receiving ∨ r.1.state = .received → written r.2.flatten = request.flatten) := by
  have hstart : Safe inetAddr (newSock ssl host sni literal) request
      (newCall (newSock ssl host sni literal) request) [] :=
    ⟨rfl, rfl, rfl, rfl, fun h => absurd h (by simp [newCall, newSock]),
      fun h => absurd h (by simp [newCall, newSock]), fun _ _ => by simp, fun _ _ => by simp,
      fun h => absurd h (by simp [newCall]), fun h => absurd h (by simp [newCall]),
      Trace.each_nil _⟩
  have hlive : Live inetAddr (newCall (newSock ssl host sni literal) request) :=
    ⟨fun h => absurd h (by simp [newCall, newSock]), fun h => absurd rfl h⟩
  have hend := exec_good evs hstart (fun _ => hlive) ht
  rw [List.nil_append] at hend
  refine ⟨hend.each, hend.wire, ?_⟩
  intro hs
  have hwire := hend.wire
  rwa [hend.sent hs, List.append_nil] at hwire

/-- A name that resolves, a handshake that passes and a server that takes everything. -/
def granted : CallAns where
  answers :=
    { resolverStart := true
      resolverQuery := true
      peer := ⟨.again, none, false, none, true⟩
      tls := ⟨true, true, .again, true, true, fun _ => true⟩ }
  request := true
  write := ⟨[.took 2, .took 1], true⟩
  read := .ok
  trapped := false

/-- A dispatch over TLS to the name `a`, and a cancellation that comes too late. -/
theorem dispatch_writes_granted :
    let evs := [.start granted, .resolved true granted, .event true false granted,
      .handshake granted, .cancel]
    let r := Run.exec (tcpStep fun _ => false)
      (newCall (newSock (some ⟨true, true⟩) [97] none false) [[71, 69, 84]]) evs
    r.2.flatten = [.connected, .verified true [97] true, .wrote [71, 69, 84], .done true] ∧
      Each (Allowed (fun _ => false) (newSock (some ⟨true, true⟩) [97] none false) [[71, 69, 84]])
        r.2.flatten := by
  refine ⟨by decide, ?_⟩
  refine (dispatch_writes (fun _ => false) (some ⟨true, true⟩) [97] none false [[71, 69, 84]] _
    ?_).1
  simp only [Run.meets_cons, Run.meets_nil, Timely, and_true, true_and]
  decide

/-- The query of a cancelled call is not cancelled: an address that comes for it is connected to. -/
theorem late_answer_connects (inetAddr : Bytes → Bool) (ssl : Option SslConf) (host : Bytes)
    (sni : Option Bytes) (request : List Bytes) (a b : CallAns)
    (hasked : a.answers.resolverStart = true ∧ a.answers.resolverQuery = true)
    (hpeer : b.answers.peer = ⟨.ok, none, false, none, true⟩) :
    (Run.exec (tcpStep inetAddr) (newCall (newSock ssl host sni false) request)
      [.start a, .cancel, .resolved true b]).2.flatten = [.cancelled, .connected] := by
  simp [Run.exec, tcpStep, dispatchResume, runConnecting, tcpConnect, newCall, newSock, destroyCall,
    tcpClose, connectPeer, connectHandler, hasked.1, hasked.2, hpeer]

end NgxWasm.Socket.Tcp
