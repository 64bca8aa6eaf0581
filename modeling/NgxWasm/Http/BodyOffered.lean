import NgxWasm.Http.BodyChain
import NgxWasm.Http.BodyVisible

/-!
# What the filters are offered of a response

Every filter gets the whole response in runs in which no bytes arrive while a
filter behind the first one has the body buffered.
-/

namespace NgxWasm.Http.BodyOffered
open NgxWasm.Lib Links Run NgxWasm.ProxyWasm NgxWasm.ProxyWasm.Resume NgxWasm.Http.BodyBuffer
open NgxWasm.Http.BodyBytes NgxWasm.Http.BodyVisible NgxWasm.Http.BodyFilter NgxWasm.Http.BodyChain

section
variable {setup : Setup}

/-! ### End flags -/

def NoEof (setup : Setup) (st : Rctx) : Prop := Every (fun b => eofFlag setup b = false) st

theorem noEof_closed : Closed (fun b => eofFlag setup b = false) where
  new := fun _ => by simp [eofFlag]
  drop := fun _ _ h => h
  fill := fun _ _ _ _ _ _ h => h

theorem noEof_chainEof {st : Rctx} (h : NoEof setup st) (a : Option ℕ) :
    chainEof setup st a = false := by
  rw [chainEof, List.any_eq_false]
  exact fun x _ => by simp [h x]

/-! ### The chunk -/

theorem chunk_bytes (setup : Setup) (st : Rctx) {bufs : List Buf} (hs : ∀ b ∈ bufs.dropLast, b.flagged = false) :
    chainBytes (load st bufs) (inputLinks st bufs).head? = inputBytes bufs ∧
      chainEof setup (load st bufs) (inputLinks st bufs).head? = bufs.any (eofFlag setup) := by
  obtain ⟨h1, -, -, -, -, h6, h7⟩ := load_spec bufs st
  have hlinks : links (load st bufs) (inputLinks st bufs).head? = inputLinks st bufs := by
    apply links_eq h6 List.nodup_range'
    intro x hx
    rw [h1]
    simpa [inputLinks, List.mem_range'_1] using (List.mem_range'_1.mp hx).2
  have hupto : upto (flagged (load st bufs)) (inputLinks st bufs) = inputLinks st bufs := by
    refine upto_dropLast fun x hx => hs _ ?_
    have hmem : ((load st bufs).link x).toBuf ∈
        ((inputLinks st bufs).map fun a => ((load st bufs).link a).toBuf).dropLast := by
      rw [← List.map_dropLast]
      exact List.mem_map_of_mem hx
    rw [h7] at hmem
    exact hmem
  constructor
  · rw [chainBytes, hlinks, hupto]
    conv_rhs => rw [← h7]
    rw [inputBytes, List.flatMap_map]
    rfl
  · rw [chainEof, hlinks, hupto]
    conv_rhs => rw [← h7]
    rw [List.any_map]
    rfl

/-! ### Resumption -/

def Took (f f' : Filter) (st : Rctx) (a : Option ℕ) (p stop : ℕ) : Prop :=
  ∀ k, f'.offered k = if p ≤ k ∧ k < stop then f.offered k ++ chainBytes st a else f.offered k

def MayPause (setup : Setup) (f : Filter) (st : Rctx) (len : ℕ) (eof : Bool) : Prop :=
  st.respBufs = none ∧ (len ≠ 0 ∨ bodyEof setup len (f.respChunkEof || eof) = true)

structure ResumeSpec (setup : Setup) (n : ℕ) (f : Filter) (st : Rctx) (a : Option ℕ)
    (pauses : ℕ → Bool) (f' : Filter) : Prop where
  healthy : Healthy f'.chain n
  rest : f'.rctx = f.rctx ∧ f'.received = f.received ∧ f'.ended = f.ended ∧ f'.failed = f.failed
  eof : f'.respChunkEof = if f.chain.execIndex < n
    then bodyEof setup (chainLen st a) (f.respChunkEof || chainEof setup st a)
    else f.respChunkEof || chainEof setup st a
  outcome : f'.chain.execIndex = 0 ∧ f'.chain.respBuffering = false ∧
      Took f f' st a f.chain.execIndex n ∨
    MayPause setup f st (chainLen st a) (chainEof setup st a) ∧
      ∃ j, f.chain.execIndex ≤ j ∧ j < n ∧ pauses j = true ∧ f'.chain.execIndex = j ∧
        f'.chain.respBuffering = true ∧ Took f f' st a f.chain.execIndex j

theorem resume_spec (setup : Setup) {n : ℕ} (f : Filter) (hh : Healthy f.chain n)
    (hb : f.chain.respBuffering = false)
    (hx : f.chain.execIndex < n ∨ n = 0 ∧ f.chain.execIndex = 0) (st : Rctx) (a : Option ℕ)
    (pauses : ℕ → Bool) :
    ResumeSpec setup n f st a pauses (bodyFilterResume setup f st a pauses) := by
  generalize hact : (fun i => if (chainLen st a ≠ 0 ||
      bodyEof setup (chainLen st a) (f.respChunkEof || chainEof setup st a)) && pauses i &&
      !st.respBufs.isSome then Action.pause else Action.cont) = act
  have hcases : ∀ i, act i = .cont ∨ act i = .pause := by
    intro i
    rw [← hact]
    dsimp only
    split
    · exact .inr rfl
    · exact .inl rfl
  have hpause : ∀ j, act j = .pause → MayPause setup f st (chainLen st a) (chainEof setup st a) ∧
      pauses j = true := by
    intro j hj
    rw [← hact] at hj
    dsimp only at hj
    split at hj
    · rename_i hcond
      simp only [Bool.and_eq_true, Bool.or_eq_true, decide_eq_true_eq, Bool.not_eq_true',
        Option.isSome_eq_false_iff, Option.isNone_iff_eq_none] at hcond
      exact ⟨⟨hcond.2, hcond.1.1⟩, hcond.1.2⟩
    · exact absurd hj (by simp)
  have hrun := resume_body hcases hh hb hx
  have hguest : (fun i => onResponseBody (chainLen st a)
      (bodyEof setup (chainLen st a) (f.respChunkEof || chainEof setup st a)) st.respBufs.isSome
      (pauses i)) = fun i => returns (act i) := by
    rw [← hact]
    rfl
  simp only [BodyFilter.bodyFilterResume, hguest]
  generalize (Resume.bodyFilterResume f.chain fun i => returns (act i)).1 = r at hrun ⊢
  -- both ends of a run give the events that were added
  have htook : ∀ stop, Passed n f.chain.execIndex stop f.chain r → Healthy r n ∧
      (ranAny (r.trace.drop f.chain.trace.length) = true ↔ f.chain.execIndex < n) ∧
      ∀ k, continued (r.trace.drop f.chain.trace.length) k = true ↔
        f.chain.execIndex ≤ k ∧ k < stop := by
    rintro stop ⟨hr, evs, htrace, hran, hcont⟩
    rw [htrace, List.drop_left]
    exact ⟨hr, hran, hcont⟩
  rcases hrun with ⟨-, h1, h2, hp⟩ | ⟨j, h1, h2, h3, -, h4, h5, hp⟩
  · obtain ⟨hr, hran, hcont⟩ := htook n hp
    refine ⟨hr, ⟨rfl, rfl, rfl, rfl⟩, ?_, .inl ⟨h1, h2, fun k => ?_⟩⟩
    · simp only [hran]
    · simp only [hcont]
  · obtain ⟨hr, hran, hcont⟩ := htook j hp
    obtain ⟨hmay, hpj⟩ := hpause j h3
    refine ⟨hr, ⟨rfl, rfl, rfl, rfl⟩, ?_, .inr ⟨hmay, j, h1, h2, hpj, h4, h5, fun k => ?_⟩⟩
    · simp only [hran]
    · simp only [hcont]

theorem resume_buffering {f : Filter} (hb : f.chain.respBuffering = true) (st : Rctx)
    (a : Option ℕ) (pauses : ℕ → Bool) :
    bodyFilterResume setup f st a pauses =
      { f with respChunkEof := f.respChunkEof || chainEof setup st a } := by
  simp [BodyFilter.bodyFilterResume, Resume.bodyFilterResume, hb, ranAny, continued]

/-! ### Condition -/

def Pauses (setup : Setup) (f : Filter) (c : Chunk) : Prop :=
  f.chain.respBuffering = false ∧
    MayPause setup f f.rctx (inputBytes c.bufs).length (c.bufs.any (eofFlag setup)) ∧
    ∃ i < f.chain.nfilters, c.pauses i = true

/-- The chunk fits the response, no bytes arrive while a filter behind the first
one is buffering, and the chunk can be buffered if it has to be. -/
structure Legal (setup : Setup) (f : Filter) (c : Chunk) : Prop where
  running : f.failed = false
  unfinished : f.ended = false
  shape : ∀ b ∈ c.bufs.dropLast, b.flagged = false
  length : 0 < setup.contentLength →
    (f.received ++ inputBytes c.bufs).length ≤ setup.contentLength
  silent : f.chain.respBuffering = true → f.chain.execIndex = 0 ∨ inputBytes c.bufs = []
  whole : Pauses setup f c → c.bufs.any (eofFlag setup) = true → 0 < setup.contentLength →
    (inputBytes c.bufs).length = setup.contentLength
  buffers : f.chain.respBuffering = true ∨ Pauses setup f c →
    CallLegal setup.conf f.rctx c.bufs c.alloc

/-! ### Invariant -/

def Complete (setup : Setup) (f : Filter) : Prop :=
  0 < setup.contentLength ∧ f.received.length = setup.contentLength

structure Idle (setup : Setup) (n : ℕ) (f : Filter) : Prop where
  buffering : f.chain.respBuffering = false
  index : f.chain.execIndex = 0
  offered : ∀ k < n, f.offered k = f.received
  eof : f.ended = false → f.respChunkEof = true → Complete setup f
  bufs : f.ended = false → f.rctx.respBufs = none →
    Complete setup f ∨ ∃ fin, Resting f.rctx [] fin

structure Buffering (setup : Setup) (n : ℕ) (f : Filter) (base g : Bytes) : Prop where
  buffering : f.chain.respBuffering = true
  index : f.chain.execIndex < n
  received : f.received = base ++ g
  before : ∀ k < f.chain.execIndex, f.offered k = f.received
  behind : ∀ k, f.chain.execIndex ≤ k → k < n → f.offered k = base
  bufs : f.rctx.respBufs ≠ none

structure Running (setup : Setup) (n : ℕ) (f : Filter) : Prop where
  healthy : Healthy f.chain n
  length : 0 < setup.contentLength → f.received.length ≤ setup.contentLength
  noEof : f.ended = false → NoEof setup f.rctx
  memory : Every InMemory f.rctx
  state : Idle setup n f ∨ f.ended = false ∧ f.respChunkEof = false ∧
    ∃ base g fin, Buffering setup n f base g ∧ Resting f.rctx g fin

def Inv (setup : Setup) (n : ℕ) (f : Filter) : Prop := f.failed = false → Running setup n f

/-! ### The buffers are resumed -/

theorem shown_respBufs {st : Rctx} {g : Bytes} {fin : Bool} (h : Shown st g fin) (hg : g ≠ []) :
    st.respBufs ≠ none := by
  intro hr
  apply hg
  have hlinks : links st none = [] := by
    rw [links]
    cases st.fresh <;> rfl
  rw [← h.bytes, hr, chainBytes, hlinks]
  rfl

theorem complete_of_bodyEof {f : Filter} {pre content : Bytes} {eof : Bool}
    (hr : f.received = pre ++ content)
    (hl : 0 < setup.contentLength → f.received.length ≤ setup.contentLength)
    (he : bodyEof setup content.length eof = true) (hz : eof = true → Complete setup f) :
    Complete setup f := by
  unfold bodyEof at he
  split at he
  · rename_i hpos
    have hlen := hl hpos
    have heq : content.length = setup.contentLength := by simpa using he
    refine ⟨hpos, ?_⟩
    rw [hr, List.length_append] at hlen ⊢
    omega
  · exact hz he

theorem sendChunk_running {n : ℕ} {f : Filter} (h : Running setup n f) (hi : Idle setup n f)
    (sent : Bool) : Running setup n (sendChunk f sent) := by
  unfold sendChunk
  split
  · rename_i hsent
    have heof : f.respChunkEof = true := by
      simp only [Bool.and_eq_true] at hsent
      exact hsent.2
    refine ⟨h.healthy, h.length, h.noEof, h.memory, .inl ⟨hi.buffering, hi.index, hi.offered, hi.eof, ?_⟩⟩
    exact fun hend _ => .inl (hi.eof hend heof)
  · exact h

theorem resumeBuffered_running {n : ℕ} {f : Filter} {base g : Bytes} {fin : Bool}
    (hh : Healthy f.chain n)
    (hl : 0 < setup.contentLength → f.received.length ≤ setup.contentLength)
    (hn : f.ended = false → NoEof setup f.rctx) (hm : Every InMemory f.rctx)
    (he : f.ended = false → f.respChunkEof = true → Complete setup f)
    (hb : Buffering setup n f base g) (hs : Shown f.rctx g fin) (pauses : ℕ → Bool) :
    Running setup n (resumeBuffered setup f pauses) ∧ Idle setup n (resumeBuffered setup f pauses) := by
  have hspec : ResumeSpec setup n { f with chain := { f.chain with respBuffering := false } }
      f.rctx f.rctx.respBufs pauses (resumeBuffered setup f pauses) :=
    resume_spec setup { f with chain := { f.chain with respBuffering := false } } (healthy_of_eq hh rfl)
      rfl (.inl hb.index) f.rctx f.rctx.respBufs pauses
  generalize resumeBuffered setup f pauses = f' at hspec ⊢
  obtain ⟨hrctx, hrec, hend, -⟩ := hspec.rest
  have hbytes : chainLen f.rctx f.rctx.respBufs = g.length := by rw [chainLen, hs.bytes]
  -- a filter may not pause on the buffers
  obtain ⟨hx, hbuf, htook⟩ : f'.chain.execIndex = 0 ∧ f'.chain.respBuffering = false ∧
      Took { f with chain := { f.chain with respBuffering := false } } f' f.rctx f.rctx.respBufs
        f.chain.execIndex n := by
    rcases hspec.outcome with h | ⟨⟨h, -⟩, -⟩
    · exact h
    · exact absurd h hb.bufs
  have hoff : ∀ k < n, f'.offered k = f'.received := by
    intro k hk
    rw [htook k, hrec, hs.bytes]
    by_cases hk' : f.chain.execIndex ≤ k
    · rw [if_pos ⟨hk', hk⟩, hb.behind k hk' hk, hb.received]
    · rw [if_neg fun h => hk' h.1, hb.before k (by omega)]
  have heof : f'.ended = false → f'.respChunkEof = true → Complete setup f' := by
    intro h1 h2
    rw [hend] at h1
    have h3 := hspec.eof
    rw [if_pos hb.index, hbytes, h2] at h3
    have hc : Complete setup f := by
      apply complete_of_bodyEof hb.received hl h3.symm
      intro h4
      rw [noEof_chainEof (hn h1), Bool.or_false] at h4
      exact he h1 h4
    exact ⟨hc.1, by rw [hrec]; exact hc.2⟩
  have hidle : Idle setup n f' := by
    refine ⟨hbuf, hx, hoff, heof, fun _ h => ?_⟩
    rw [hrctx] at h
    exact absurd h hb.bufs
  exact ⟨⟨hspec.healthy, by rw [hrec]; exact hl, by rw [hrctx, hend]; exact hn, by rw [hrctx]; exact hm,
    .inl hidle⟩, hidle⟩

/-! ### A chunk is buffered -/

theorem bufferChunk_inv {n : ℕ} {f : Filter} {c : Chunk} {base g : Bytes} {fin : Bool}
    (hh : Healthy f.chain n)
    (hl : 0 < setup.contentLength → f.received.length ≤ setup.contentLength)
    (hb : f.chain.respBuffering = true) (hx : f.chain.execIndex < n)
    (hrec : f.received = base ++ (g ++ inputBytes c.bufs))
    (hbefore : ∀ k < f.chain.execIndex, f.offered k = f.received)
    (hbehind : ∀ k, f.chain.execIndex ≤ k → k < n → f.offered k = base)
    (hrest : Resting f.rctx g fin) (hm : Every InMemory f.rctx) (hcall : CallLegal setup.conf f.rctx c.bufs c.alloc)
    (hused : f.rctx.respBufs ≠ none ∨ inputBytes c.bufs ≠ [] ∨ ∃ b ∈ c.bufs, b.flagged = true)
    (hn : f.ended = false → NoEof setup f.rctx ∧ ∀ b ∈ c.bufs, eofFlag setup b = false)
    (he : f.ended = false → f.respChunkEof = true → Complete setup f)
    (hstay : f.respChunkEof = false → f.ended = false) :
    Inv setup n (bufferChunk setup f c) := by
  obtain ⟨hok, hdone, -⟩ := bodyFilterBuffer_spec hrest hm hcall
  have hn' : f.ended = false →
      NoEof setup (bodyFilterBuffer setup.conf f.rctx c.bufs c.alloc).1 := fun h =>
    every_buffer noEof_closed (hn h).1 (hn h).2
  have hm' : Every InMemory (bodyFilterBuffer setup.conf f.rctx c.bufs c.alloc).1 :=
    every_buffer inMemory_closed hm hcall.1
  simp only [bufferChunk]
  generalize bodyFilterBuffer setup.conf f.rctx c.bufs c.alloc = r at hok hdone hn' hm' ⊢
  have hbuf : r.1.respBufs ≠ none →
      Buffering setup n { f with rctx := r.1 } base (g ++ inputBytes c.bufs) := fun h =>
    ⟨hb, hx, hrec, hbefore, hbehind, h⟩
  have hfinish : r.1.respBufs ≠ none → (∃ fin, Shown r.1 (g ++ inputBytes c.bufs) fin) →
      Inv setup n (sendChunk (resumeBuffered setup { f with rctx := r.1 } c.pausesAgain) c.sent) := by
    rintro hr ⟨fin, hs⟩ -
    obtain ⟨hrun, hidle⟩ := resumeBuffered_running (f := { f with rctx := r.1 }) hh hl hn' hm' he
      (hbuf hr) hs c.pausesAgain
    exact sendChunk_running hrun hidle c.sent
  cases hr : r.2 with
  | error | fault => exact fun hf => absurd hf (by simp)
  | done =>
    obtain ⟨hbufs, hs⟩ := hdone hr
    exact hfinish hbufs ⟨_, hs⟩
  | ok =>
    obtain ⟨hsome, hresting⟩ := hok hr
    have hs := resting_shown hresting
    have hbufs : r.1.respBufs ≠ none := by
      rcases hused with h | h | h
      · exact hsome (.inl h)
      · exact shown_respBufs hs fun hnil => h (List.append_eq_nil_iff.mp hnil).2
      · exact hsome (.inr h)
    simp only
    split
    · exact hfinish hbufs ⟨_, hs⟩
    · rename_i heof
      have hend : f.ended = false := hstay (by simpa using heof)
      exact fun _ => ⟨hh, hl, hn', hm', .inr ⟨hend, by simpa using heof, _, _, _, hbuf hbufs, hresting⟩⟩

/-! ### The handler -/

theorem receive_open {f : Filter} {c : Chunk} (h : (receive setup f c).ended = false) :
    f.ended = false ∧ c.bufs.any (eofFlag setup) = false := by
  simpa [receive] using h

theorem receive_complete {f : Filter} {c : Chunk} (hl : Legal setup f c) (h : Complete setup f) :
    inputBytes c.bufs = [] ∧ Complete setup (receive setup f c) := by
  have hlen := hl.length h.1
  have heq := h.2
  rw [List.length_append] at hlen
  have hnil : inputBytes c.bufs = [] := List.length_eq_zero_iff.mp (by omega)
  refine ⟨hnil, h.1, ?_⟩
  show (f.received ++ inputBytes c.bufs).length = _
  rw [hnil, List.append_nil]
  exact heq

theorem bodyEof_used {old : Bool} {bufs : List Buf}
    (h : bodyEof setup (inputBytes bufs).length (old || bufs.any (eofFlag setup)) = true)
    (ho : old = true → 0 < setup.contentLength) :
    inputBytes bufs ≠ [] ∨ ∃ b ∈ bufs, b.flagged = true := by
  unfold bodyEof at h
  split at h
  · rename_i hpos
    refine .inl fun hnil => ?_
    rw [hnil] at h
    have hzero : 0 = setup.contentLength := by simpa using h
    omega
  · rename_i hpos
    have hold : old = false := by
      by_contra hold
      exact hpos (ho (by simpa using hold))
    rw [hold, Bool.false_or, List.any_eq_true] at h
    obtain ⟨b, hb, hflag⟩ := h
    refine .inr ⟨b, hb, ?_⟩
    simp only [eofFlag, Bool.or_eq_true, Bool.and_eq_true] at hflag
    simp only [Buf.flagged, Bool.or_eq_true]
    rcases hflag with hlast | ⟨hlast, -⟩
    · exact .inl hlast
    · exact .inr hlast

theorem bodyEof_ends {len : ℕ} {old any : Bool} (ha : any = true)
    (hw : 0 < setup.contentLength → len = setup.contentLength) :
    bodyEof setup len (old || any) ≠ false := by
  unfold bodyEof
  split
  · rename_i hpos
    simp [hw hpos]
  · simp [ha]

/-- What the chain leaves of a chunk that finds it idle. -/
structure Resumed (setup : Setup) (n : ℕ) (f : Filter) (c : Chunk) (f' : Filter) : Prop where
  healthy : Healthy f'.chain n
  rctx : f'.rctx = f.rctx
  received : f'.received = f.received ++ inputBytes c.bufs
  ended : f'.ended = (receive setup f c).ended
  eof : f'.ended = false → f'.respChunkEof = true → Complete setup f'
  outcome : f'.chain.execIndex = 0 ∧ f'.chain.respBuffering = false ∧
      (∀ k < n, f'.offered k = f'.received) ∨
    Pauses setup f c ∧ f'.respChunkEof = bodyEof setup (inputBytes c.bufs).length
        (f.respChunkEof || c.bufs.any (eofFlag setup)) ∧
      f'.chain.respBuffering = true ∧ f'.chain.execIndex < n ∧
      (∀ k < f'.chain.execIndex, f'.offered k = f'.received) ∧
      ∀ k, f'.chain.execIndex ≤ k → k < n → f'.offered k = f.received

theorem idle_resumed {n : ℕ} {f : Filter} {c : Chunk} (h : Running setup n f)
    (hi : Idle setup n f) (hl : Legal setup f c) :
    Resumed setup n f c (bodyFilterResume setup (receive setup f c) (load f.rctx c.bufs)
      (inputLinks f.rctx c.bufs).head? c.pauses) := by
  obtain ⟨hbytes, hflag⟩ := chunk_bytes setup f.rctx hl.shape
  have hlen : chainLen (load f.rctx c.bufs) (inputLinks f.rctx c.bufs).head? =
      (inputBytes c.bufs).length := by rw [chainLen, hbytes]
  have hload : (load f.rctx c.bufs).respBufs = f.rctx.respBufs := (load_spec c.bufs f.rctx).2.1
  have hzero : (receive setup f c).chain.execIndex = 0 := hi.index
  have hspec := resume_spec setup (receive setup f c) h.healthy hi.buffering (by rw [hzero]; omega)
    (load f.rctx c.bufs) (inputLinks f.rctx c.bufs).head? c.pauses
  generalize BodyFilter.bodyFilterResume setup (receive setup f c) (load f.rctx c.bufs)
    (inputLinks f.rctx c.bufs).head? c.pauses = f' at hspec ⊢
  obtain ⟨hrctx, hrec, hend, -⟩ := hspec.rest
  have hrecv : f'.received = f.received ++ inputBytes c.bufs := hrec
  refine ⟨hspec.healthy, hrctx, hrecv, hend, fun h1 h2 => ?_, ?_⟩
  · rw [hend] at h1
    obtain ⟨hopen, hno⟩ := receive_open h1
    -- before the end, only the announced length can set the flag
    have hold : (f.respChunkEof || chainEof setup (load f.rctx c.bufs)
        (inputLinks f.rctx c.bufs).head?) = true → Complete setup f' := by
      intro h3
      rw [hflag, hno, Bool.or_false] at h3
      obtain ⟨hpos, hall⟩ := (receive_complete hl (hi.eof hopen h3)).2
      exact ⟨hpos, by rw [hrec]; exact hall⟩
    have h3 := hspec.eof
    rw [h2] at h3
    split at h3
    · rw [hlen] at h3
      exact complete_of_bodyEof hrecv (by rw [hrecv]; exact hl.length) h3.symm hold
    · exact hold h3.symm
  · have htook : ∀ {stop k : ℕ}, Took (receive setup f c) f' (load f.rctx c.bufs)
        (inputLinks f.rctx c.bufs).head? (receive setup f c).chain.execIndex stop →
        k < stop → k < n → f'.offered k = f'.received := by
      intro stop k ht hk hkn
      rw [ht k, if_pos ⟨by omega, hk⟩, hbytes, hrecv]
      exact congrArg (· ++ _) (hi.offered k hkn)
    rcases hspec.outcome with ⟨hx, hbuf, ht⟩ | ⟨hmay, j, -, hj, hpj, hx, hbuf, ht⟩
    · exact .inl ⟨hx, hbuf, fun k hk => htook ht hk hk⟩
    · refine .inr ⟨?_, ?_, hbuf, hx ▸ hj, fun k hk => htook ht (by omega) (by omega), ?_⟩
      · refine ⟨hi.buffering, ⟨hload ▸ hmay.1, ?_⟩, j, by rw [h.healthy.size]; exact hj, hpj⟩
        have hcalled := hmay.2
        rw [hlen, hflag] at hcalled
        exact hcalled
      · have h3 := hspec.eof
        rw [if_pos (by omega), hlen, hflag] at h3
        exact h3
      · intro k hk hkn
        rw [ht k, if_neg (by omega)]
        exact hi.offered k hkn

theorem pauses_resting {n : ℕ} {f : Filter} {c : Chunk} (hi : Idle setup n f)
    (hl : Legal setup f c) (hp : Pauses setup f c) : ∃ fin, Resting f.rctx [] fin := by
  obtain ⟨-, ⟨hnone, hcalled⟩, -⟩ := hp
  rcases hi.bufs hl.unfinished hnone with hc | hr
  · -- a complete response is followed by empty chunks, on which nothing is called
    have hnil := (receive_complete hl hc).1
    have hpos := hc.1
    rw [hnil] at hcalled
    simp only [List.length_nil, bodyEof, if_pos hpos, decide_eq_true_eq] at hcalled
    omega
  · exact hr

theorem idle_inv {n : ℕ} {f : Filter} {c : Chunk} (h : Running setup n f) (hi : Idle setup n f)
    (hl : Legal setup f c) : Inv setup n (bodyFilterHandler setup f c) := by
  have hres := idle_resumed h hi hl
  simp only [bodyFilterHandler]
  generalize BodyFilter.bodyFilterResume setup (receive setup f c) (load f.rctx c.bufs)
    (inputLinks f.rctx c.bufs).head? c.pauses = f' at hres ⊢
  have hlength : 0 < setup.contentLength → f'.received.length ≤ setup.contentLength := by
    rw [hres.received]
    exact hl.length
  have hnoEof : f'.ended = false → NoEof setup f'.rctx ∧ ∀ b ∈ c.bufs, eofFlag setup b = false := by
    intro h1
    rw [hres.ended] at h1
    obtain ⟨hopen, hno⟩ := receive_open h1
    rw [hres.rctx]
    refine ⟨h.noEof hopen, fun b hb => ?_⟩
    simpa using List.any_eq_false.mp hno b hb
  rcases hres.outcome with ⟨hx, hbuf, hoff⟩ | ⟨hpause, hidx, hbuf, hx, hbefore, hbehind⟩
  · rw [if_neg (by simp [hbuf])]
    have hidle : Idle setup n f' := by
      refine ⟨hbuf, hx, hoff, hres.eof, fun h1 h2 => ?_⟩
      rw [hres.rctx] at h2 ⊢
      rcases hi.bufs hl.unfinished h2 with hc | hr
      · obtain ⟨hpos, hall⟩ := (receive_complete hl hc).2
        exact .inl ⟨hpos, by rw [hres.received]; exact hall⟩
      · exact .inr hr
    exact fun _ => sendChunk_running
      ⟨hres.healthy, hlength, fun h1 => (hnoEof h1).1, hres.rctx.symm ▸ h.memory, .inl hidle⟩
      hidle c.sent
  · rw [if_pos hbuf]
    obtain ⟨fin, hrest⟩ := pauses_resting hi hl hpause
    have hbase : f'.received = f.received ++ ([] ++ inputBytes c.bufs) := hres.received
    have hused : f'.rctx.respBufs ≠ none ∨ inputBytes c.bufs ≠ [] ∨
        ∃ b ∈ c.bufs, b.flagged = true := by
      rcases hpause.2.1.2 with hne | heofc
      · exact .inr (.inl fun hnil => hne (by rw [hnil]; rfl))
      · refine .inr (bodyEof_used heofc fun he => ?_)
        exact (hi.eof hl.unfinished he).1
    have hstay : f'.respChunkEof = false → f'.ended = false := by
      intro hno
      rw [hres.ended]
      show (f.ended || c.bufs.any (eofFlag setup)) = false
      rw [hl.unfinished, Bool.false_or]
      by_contra hany
      rw [hidx] at hno
      exact bodyEof_ends (by simpa using hany) (hl.whole hpause (by simpa using hany)) hno
    exact bufferChunk_inv hres.healthy hlength hbuf hx hbase hbefore hbehind
      (hres.rctx.symm ▸ hrest) (hres.rctx.symm ▸ h.memory)
      (hres.rctx.symm ▸ hl.buffers (.inr hpause)) hused hnoEof hres.eof
      hstay

theorem buffering_inv {n : ℕ} {f : Filter} {c : Chunk} {base g : Bytes} {fin : Bool}
    (h : Running setup n f) (hend : f.ended = false) (heof : f.respChunkEof = false)
    (hb : Buffering setup n f base g) (hrest : Resting f.rctx g fin) (hl : Legal setup f c) :
    Inv setup n (bodyFilterHandler setup f c) := by
  obtain ⟨-, hflag⟩ := chunk_bytes setup f.rctx hl.shape
  have hf' : BodyFilter.bodyFilterResume setup (receive setup f c) (load f.rctx c.bufs)
      (inputLinks f.rctx c.bufs).head? c.pauses =
        { receive setup f c with respChunkEof := c.bufs.any (eofFlag setup) } := by
    rw [resume_buffering (f := receive setup f c) hb.buffering, hflag]
    simp [receive, heof]
  simp only [bodyFilterHandler, hf']
  rw [if_pos (by exact hb.buffering)]
  have hended : (receive setup f c).ended = c.bufs.any (eofFlag setup) := by
    simp [receive, hend]
  have hrecv : (receive setup f c).received = base ++ (g ++ inputBytes c.bufs) := by
    show f.received ++ inputBytes c.bufs = _
    rw [hb.received, List.append_assoc]
  refine bufferChunk_inv (f := { receive setup f c with respChunkEof := c.bufs.any (eofFlag setup) })
    h.healthy hl.length hb.buffering hb.index hrecv (fun k hk => ?_) hb.behind hrest h.memory
    (hl.buffers (.inl hb.buffering)) (.inl hb.bufs) ?_ ?_ (fun hno => hended.trans hno)
  · -- a filter in front of the paused one has had all there is
    have hnil : inputBytes c.bufs = [] := by
      apply (hl.silent hb.buffering).resolve_left
      intro hz
      have hk' : k < f.chain.execIndex := hk
      omega
    show f.offered k = f.received ++ inputBytes c.bufs
    rw [hnil, List.append_nil]
    exact hb.before k hk
  · intro hopen
    obtain ⟨-, hno⟩ := receive_open hopen
    exact ⟨h.noEof hend, fun b hbm => by simpa using List.any_eq_false.mp hno b hbm⟩
  · intro hopen htrue
    rw [show (receive setup f c).ended = false from hopen] at hended
    exact absurd (hended.trans htrue) (by simp)

theorem handler_inv {n : ℕ} {f : Filter} {c : Chunk} (h : Inv setup n f) (hl : Legal setup f c) :
    Inv setup n (bodyFilterHandler setup f c) := by
  have hrun := h hl.running
  rcases hrun.state with hi | ⟨hend, heof, base, g, fin, hb, hrest⟩
  · exact idle_inv hrun hi hl
  · exact buffering_inv hrun hend heof hb hrest hl

/-! ### Runs -/

def passed (f : Filter) : ℕ → Bytes
  | 0 => f.received
  | k + 1 => f.offered k

def held (f : Filter) (k : ℕ) : Bytes :=
  if f.chain.respBuffering = true ∧ k = f.chain.execIndex
  then chainBytes f.rctx f.rctx.respBufs else []

/-- Every filter is offered what reached it, up to what it has buffered, and the
whole response when that is over. -/
def Offers (n : ℕ) (f : Filter) : Prop :=
  (∀ k < n, passed f k = f.offered k ++ held f k) ∧
    (f.ended = true → ∀ k < n, f.offered k = f.received)

theorem running_offers {n : ℕ} {f : Filter} (h : Running setup n f) : Offers n f := by
  rcases h.state with hi | ⟨hend, -, base, g, fin, hb, hrest⟩
  · refine ⟨fun k hk => ?_, fun _ => hi.offered⟩
    have hnone : held f k = [] := if_neg (by simp [hi.buffering])
    rw [hnone, List.append_nil, hi.offered k hk]
    cases k with
    | zero => rfl
    | succ k => exact hi.offered k (by omega)
  · refine ⟨fun k hk => ?_, fun he => absurd (hend.symm.trans he) (by simp)⟩
    -- the response up to the paused filter, its base behind it
    have hupto : k ≤ f.chain.execIndex → passed f k = f.received := by
      intro hle
      cases k with
      | zero => rfl
      | succ k => exact hb.before k (by omega)
    rcases Nat.lt_trichotomy k f.chain.execIndex with hlt | heq | hgt
    · rw [hupto (by omega), hb.before k hlt, held, if_neg (by omega), List.append_nil]
    · rw [hupto (by omega), hb.behind k (by omega) hk, held, if_pos ⟨hb.buffering, heq⟩,
        (resting_shown hrest).bytes, hb.received]
    · rw [hb.behind k (by omega) hk, held, if_neg (by omega), List.append_nil]
      cases k with
      | zero => omega
      | succ k => exact hb.behind k (by omega) (by omega)

theorem newFilter_inv (ictxs : List ℕ) : Inv setup ictxs.length (newFilter ictxs) := by
  intro _
  have hrest : Resting (newFilter ictxs).rctx [] false := newSession_inv.2.1 rfl
  refine ⟨⟨by simp [newFilter, newChain, Chain.nfilters], fun i e he => ?_⟩, fun _ => Nat.zero_le _,
    fun _ a => by simp [newFilter, newRctx, eofFlag], newSession_inv.1, .inl ⟨rfl, rfl, fun _ _ => rfl,
      fun _ h => absurd h (by simp [newFilter]), fun _ _ => .inr ⟨false, hrest⟩⟩⟩
  simp only [newFilter, newChain, List.getElem?_map, Option.map_eq_some_iff] at he
  obtain ⟨ictx, -, rfl⟩ := he
  rfl

theorem sendChunk_received (f : Filter) (sent : Bool) :
    (sendChunk f sent).received = f.received ∧ (sendChunk f sent).ended = f.ended := by
  unfold sendChunk
  split
  · exact ⟨rfl, rfl⟩
  · exact ⟨rfl, rfl⟩

theorem bufferChunk_received (setup : Setup) (f : Filter) (c : Chunk) :
    (bufferChunk setup f c).received = f.received ∧ (bufferChunk setup f c).ended = f.ended := by
  simp only [bufferChunk]
  cases (bodyFilterBuffer setup.conf f.rctx c.bufs c.alloc).2 with
  | error | fault => exact ⟨rfl, rfl⟩
  | done => exact sendChunk_received _ _
  | ok =>
    simp only
    split
    · exact sendChunk_received _ _
    · exact ⟨rfl, rfl⟩

theorem handler_received (setup : Setup) (f : Filter) (c : Chunk) :
    (bodyFilterHandler setup f c).received = f.received ++ inputBytes c.bufs ∧
      (bodyFilterHandler setup f c).ended = (f.ended || c.bufs.any (eofFlag setup)) := by
  simp only [bodyFilterHandler]
  split
  · exact bufferChunk_received setup _ c
  · exact sendChunk_received _ _

theorem exec_received (setup : Setup) (chunks : List Chunk) : ∀ f : Filter,
    (exec (handlerStep setup) f chunks).1.received =
        f.received ++ chunks.flatMap (fun c => inputBytes c.bufs) ∧
      (exec (handlerStep setup) f chunks).1.ended =
        (f.ended || chunks.any fun c => c.bufs.any (eofFlag setup)) := by
  induction chunks with
  | nil => intro f; exact ⟨(List.append_nil _).symm, (Bool.or_false _).symm⟩
  | cons c chunks ih =>
    intro f
    obtain ⟨h1, h2⟩ := ih (bodyFilterHandler setup f c)
    obtain ⟨h3, h4⟩ := handler_received setup f c
    rw [exec_cons]
    refine ⟨h1.trans ?_, h2.trans ?_⟩
    · rw [h3, List.flatMap_cons, List.append_assoc]
    · rw [h4, List.any_cons, Bool.or_assoc]

end

/-- In runs that stay legal every filter is offered the whole response. -/
theorem whole_response (setup : Setup) (ictxs : List ℕ) (chunks : List Chunk)
    (h : Meets (handlerStep setup) (Legal setup) (newFilter ictxs) chunks) :
    let f := (exec (handlerStep setup) (newFilter ictxs) chunks).1
    f.failed = false → f.received = chunks.flatMap (fun c => inputBytes c.bufs) ∧
      f.ended = chunks.any (fun c => c.bufs.any (eofFlag setup)) ∧ Offers ictxs.length f := by
  intro f hf
  have hinv : Inv setup ictxs.length f := exec_invariant (handlerStep setup) (Legal setup)
    (Inv setup ictxs.length) (fun _ _ hi hc => handler_inv hi hc) chunks _ (newFilter_inv ictxs) h
  obtain ⟨h1, h2⟩ := exec_received setup chunks (newFilter ictxs)
  exact ⟨h1, h2.trans (Bool.false_or _), running_offers (hinv hf)⟩

def chunk (buf : Buf) (pauses : ℕ → Bool) : Chunk :=
  ⟨[buf], fun _ => some 0, pauses, fun _ => false, true⟩

def twoBuffers : Setup := ⟨⟨2, 8, by decide, by decide⟩, true, 0⟩

theorem whole_response_first_pauses :
    let f := (exec (handlerStep twoBuffers) (newFilter [0, 1])
      [chunk (plainBuf [97, 98]) (· = 0), chunk (finalBuf [99]) (· = 0)]).1
    f.failed = false ∧ f.received = [97, 98, 99] ∧ f.ended = true ∧ Offers 2 f := by
  refine ⟨by decide, whole_response twoBuffers [0, 1]
    [chunk (plainBuf [97, 98]) (· = 0), chunk (finalBuf [99]) (· = 0)] ⟨?_, ?_, trivial⟩ (by decide)⟩
  · refine ⟨rfl, rfl, by simp [chunk], fun h => absurd h (by decide), fun h => absurd h (by decide),
      fun _ _ h => absurd h (by decide), fun _ => ?_⟩
    simp only [CallLegal, inputLinks, chunk, List.length_singleton, List.range'_one, ChainLegal]
    refine ⟨fun b hb => .inl (by rw [List.mem_singleton.mp hb]; rfl), ?_⟩
    rw [if_neg (by decide)]
    refine ⟨⟨.inl rfl, by decide, fun _ => ⟨by decide, fun _ l hl => ?_, by decide, ?_⟩⟩,
      fun _ => trivial⟩
    · exact absurd hl (by simp [load, newFilter, newRctx])
    · exact fun hlt => absurd hlt (by decide)
  · refine ⟨by decide, by decide, by simp [chunk], fun h => absurd h (by decide),
      fun _ => .inl (by decide), fun _ _ h => absurd h (by decide), fun _ => ?_⟩
    simp only [CallLegal, inputLinks, chunk, List.length_singleton, List.range'_one, ChainLegal]
    refine ⟨fun b hb => .inl (by rw [List.mem_singleton.mp hb]; rfl), ?_⟩
    rw [if_neg (by decide)]
    exact ⟨⟨.inr (by decide), by decide, fun hlt => absurd hlt (by decide)⟩, fun _ => trivial⟩

/-- The second of two filters has "ab" and "c" buffered: the first one misses "c". -/
theorem first_filter_misses_chunk :
    ¬ let f := (exec (handlerStep twoBuffers) (newFilter [0, 1])
        [chunk (plainBuf [97, 98]) (· = 1), chunk (finalBuf [99]) (· = 1)]).1
      f.failed = false → f.received = [97, 98, 99] ∧ f.ended = true ∧ Offers 2 f := by
  intro h
  have hoff := (h (by decide)).2.2.2 (by decide) 0 (by decide)
  exact absurd hoff (by decide)

end NgxWasm.Http.BodyOffered
