import NgxWasm.Http.ResponseFilter
import NgxWasm.Lib.Run
import NgxWasm.Lib.Trace

/-!
# Order of the response callbacks

No filter sees the body before the headers, and every chunk is offered to the
first filter before it is offered to another one, in runs in which a chunk only
arrives when the headers step is completed and the chain stands at its head.
-/

namespace NgxWasm.Http.ResponseOrder
open NgxWasm.Lib Run Trace NgxWasm.ProxyWasm
open NgxWasm.ProxyWasm.Resume hiding bodyFilterResume
open NgxWasm.ProxyWasm.ResumeEntry NgxWasm.ProxyWasm.ResumeSweep
open NgxWasm.ProxyWasm.RequestSteps (IsRequest enterStep_request resume_completed)
open NgxWasm.Http.ResponseFilter

/-! ### Statement -/

/-- The chunks were offered to the first filter. -/
def Offered (offers : List Offer) (chunks : List ℕ) : Prop :=
  ∀ id ∈ chunks, ∃ chunk, .body 0 chunk ∈ offers ∧ id ∈ chunk

def InOrder (before : List Offer) : Offer → Prop
  | .headers _ => True
  | .body i chunks => .headers i ∈ before ∧ (i = 0 ∨ Offered before chunks)

/-- No filter errs, each one continues or pauses, and no host call writes `DONE`. -/
def AllAnswer : ResponseFilter.Input → Prop
  | .request _ _ guest => ∀ i, Answers (guest i)
  | .headerFilter guest => ∀ i, Answers (guest i)
  | .chunk c => ∀ i, Answers (c.guest i) ∧ Answers (c.guestAgain i)
  | .dispatching _ => True
  | .dispatched _ failed g _ guest =>
    (failed = true ∨ g.trapped = false) ∧ Answers g ∧ ∀ i, Answers (guest i)
  | .foreign _ g _ guest => Answers g ∧ ∀ i, Answers (guest i)
  | .upstream st guest => (st = .upstreamSelect ∨ st = .nextUpstream ∨ st = .upstreamInfo) ∧
    ∀ i, Answers (guest i)

/-- A chunk finds the headers step completed and the chain at its head. -/
def Guard (q : Response) : ResponseFilter.Input → Prop
  | .chunk _ => q.chain.nfilters = 0 ∨
    Step.respHeaders.toNat ≤ q.chain.lastCompletedStep ∧ q.chain.execIndex = 0
  | _ => True

/-! ### Offers -/

theorem offered_mono {offers offers' : List Offer} {chunks : List ℕ} (h : Offered offers chunks)
    (hsub : ∀ o ∈ offers, o ∈ offers') : Offered offers' chunks := by
  intro id hid
  obtain ⟨chunk, hmem, hin⟩ := h id hid
  exact ⟨chunk, hsub _ hmem, hin⟩

theorem each_headers {offers : List Offer} (h : Each InOrder offers) (x l : ℕ) :
    Each InOrder (offers ++ (List.range' x l).map .headers) := by
  induction l with
  | zero => simpa using h
  | succ l ih =>
    rw [List.range'_concat, List.map_append, ← List.append_assoc]
    exact ih.snoc trivial

/-- A run of the body step over a stretch of the chain. -/
theorem each_body {n x l : ℕ} {offers : List Offer} {chunks : List ℕ} (h : Each InOrder offers)
    (hheaders : ∀ i < n, .headers i ∈ offers) (hfresh : x = 0 ∨ Offered offers chunks)
    (hl : x + l ≤ n) :
    Each InOrder (offers ++ (List.range' x l).map fun i => .body i chunks) := by
  induction l with
  | zero => simpa using h
  | succ l ih =>
    rw [List.range'_concat, List.map_append, ← List.append_assoc]
    apply (ih (by omega)).snoc
    refine ⟨List.mem_append_left _ (hheaders _ (by omega)), ?_⟩
    by_cases hxl : x + 1 * l = 0
    · exact .inl hxl
    · refine .inr ?_
      rcases hfresh with hx | hoff
      · -- the first filter ran in front of this one
        intro id hid
        refine ⟨chunks, List.mem_append_right _ (List.mem_map.mpr ⟨0, ?_, rfl⟩), hid⟩
        rw [List.mem_range'_1]
        omega
      · exact offered_mono hoff fun o ho => List.mem_append_left _ ho

/-! ### The invariant -/

/-- What holds of a chain with filters. -/
structure Rest (n : ℕ) (q : Response) : Prop where
  steps : IsRequest q.chain.step ∨ q.chain.step = .respHeaders ∨ q.chain.step = .respBody
  index : q.chain.execIndex < n
  early : q.chain.lastCompletedStep < 4 → q.respChunk = [] ∧ q.chain.respBuffering = false
  idle : q.chain.step = .respHeaders → q.respChunk = [] ∧ q.chain.respBuffering = false
  unentered : q.enteredHeaderFilter = false →
    IsRequest q.chain.step ∧ q.chain.lastCompletedStep < 4
  body : q.chain.step = .respBody → 4 ≤ q.chain.lastCompletedStep
  headers : 4 ≤ q.chain.lastCompletedStep → ∀ i < n, .headers i ∈ q.offers
  fresh : q.chain.execIndex = 0 ∨ Offered q.offers (ids q)

structure Inv (n : ℕ) (q : Response) : Prop where
  free : Free n q.chain
  order : Each InOrder q.offers
  rest : n ≠ 0 → Rest n q

/-- A call after which no callback of the response has run. -/
structure Still (n : ℕ) (s t : Chain) : Prop where
  free : Free n t
  ran : ∃ l, ran t = ran s ++ l ∧ ∀ p ∈ l, p.1 ≠ .respHeaders ∧ p.1 ≠ .respBody
  buffering : t.respBuffering = s.respBuffering
  steps : n ≠ 0 → t.step = s.step ∨ IsRequest t.step
  progress : n ≠ 0 → t.lastCompletedStep = s.lastCompletedStep ∧
      (t.execIndex = 0 ∨ t.execIndex = s.execIndex) ∨
    s.lastCompletedStep < 4 ∧ t.lastCompletedStep < 4 ∧ t.execIndex < n

theorem still_inv {n : ℕ} {q q' : Response} (h : Inv n q) (hs : Still n q.chain q'.chain)
    (ho : q'.offers = q.offers) (hc : q'.respChunk = q.respChunk)
    (he : q'.enteredHeaderFilter = q.enteredHeaderFilter) : Inv n q' := by
  refine ⟨hs.free, ho ▸ h.order, fun hn => ?_⟩
  obtain ⟨hsteps, hindex, hearly, hidle, hunentered, hbody, hheaders, hfresh⟩ := h.rest hn
  have hids : ids q' = ids q := by rw [ids, ids, hc]
  have hb := hs.buffering
  have hnotreq : ∀ st, IsRequest st → st ≠ .respHeaders ∧ st ≠ .respBody := by
    intro st hst
    rcases hst with rfl | rfl <;> exact ⟨by decide, by decide⟩
  have hstep := hs.steps hn
  constructor
  · rcases hstep with hst | hst
    · rw [hst]
      exact hsteps
    · exact .inl hst
  · rcases hs.progress hn with ⟨-, hx | hx⟩ | ⟨-, -, hx⟩
    · omega
    · omega
    · exact hx
  · intro hl
    rw [hc, hb]
    rcases hs.progress hn with ⟨hl', -⟩ | ⟨hl', -, -⟩
    · exact hearly (hl' ▸ hl)
    · exact hearly hl'
  · intro hst
    rw [hc, hb]
    rcases hstep with hst' | hst'
    · exact hidle (hst'.symm.trans hst)
    · exact absurd hst (hnotreq _ hst').1
  · intro hne
    rw [he] at hne
    obtain ⟨hreq, hlt⟩ := hunentered hne
    refine ⟨hstep.elim (fun hst => hst ▸ hreq) id, ?_⟩
    rcases hs.progress hn with ⟨hl', -⟩ | ⟨-, hl', -⟩
    · rw [hl']
      exact hlt
    · exact hl'
  · intro hst
    rcases hstep with hst' | hst'
    · have hle := hbody (hst'.symm.trans hst)
      rcases hs.progress hn with ⟨hl', -⟩ | ⟨hl', -, -⟩
      · rw [hl']
        exact hle
      · omega
    · exact absurd hst (hnotreq _ hst').2
  · intro hle i hi
    rw [ho]
    rcases hs.progress hn with ⟨hl', -⟩ | ⟨-, hl', -⟩
    · exact hheaders (hl' ▸ hle) i hi
    · omega
  · rw [ho, hids]
    rcases hs.progress hn with ⟨-, hx | hx⟩ | ⟨hl', -, -⟩
    · exact .inl hx
    · rw [hx]
      exact hfresh
    · refine .inr fun id hid => ?_
      rw [ids, (hearly hl').1] at hid
      simp [visible] at hid

/-! ### Calls that run no response step -/

theorem still_fields {n : ℕ} {s t : Chain} (h : Free n s) (hp : t.pwexecs = s.pwexecs)
    (ha : t.action = .cont ∨ t.action = .pause) (hs : t.step = s.step ∨ IsRequest t.step)
    (hl : t.lastCompletedStep = s.lastCompletedStep) (hx : t.execIndex = s.execIndex)
    (hb : t.respBuffering = s.respBuffering) (ht : t.trace = s.trace) : Still n s t := by
  refine ⟨free_fields h hp ha, ⟨[], ?_, by simp⟩, hb, fun _ => hs, fun _ => .inl ⟨hl, .inr hx⟩⟩
  rw [ran, ran, ht, List.append_nil]

/-- A chain without filters runs nothing. -/
theorem resume_empty {s : Chain} (h : Free 0 s) (step : Step) (guest : ℕ → Guest) :
    Still 0 s (resume s step guest).1 := by
  have hn : s.pwexecs.length = 0 := h.size
  have hstill : ∀ t : Chain, t.pwexecs = s.pwexecs → t.action = s.action → t.trace = s.trace →
      t.respBuffering = s.respBuffering → Still 0 s t := by
    intro t hp ha ht hb
    refine ⟨free_fields h hp (ha ▸ h.action), ⟨[], ?_, by simp⟩, hb, fun hn => absurd rfl hn,
      fun hn => absurd rfl hn⟩
    rw [ran, ran, ht, List.append_nil]
  unfold resume
  cases he : enterStep s step with
  | none => exact hstill _ rfl rfl rfl rfl
  | some u =>
    have hu : u.pwexecs = s.pwexecs ∧ u.action = s.action ∧ u.trace = s.trace ∧
        u.respBuffering = s.respBuffering := by
      rcases ResumeIndex.enterStep_eq he with rfl | ⟨-, rfl⟩
      · exact ⟨rfl, rfl, rfl, rfl⟩
      · exact ⟨rfl, rfl, rfl, rfl⟩
    obtain ⟨hup, hua, hut, hub⟩ := hu
    have hzero : u.nfilters - u.execIndex = 0 := by
      rw [Chain.nfilters, hup, hn]
      exact Nat.zero_sub _
    simp only [hzero, resumeLoop]
    exact hstill u hup hua hut hub

theorem request_still {n : ℕ} {s : Chain} {step : Step} {guest : ℕ → Guest} (h : Free n s)
    (hx : n ≠ 0 → s.execIndex < n) (hstep : IsRequest step) (hp : pausable s.phase = true)
    (hb : s.phase ≠ .bodyFilter) (hg : ∀ i, Answers (guest i)) :
    Still n s (resume s step guest).1 := by
  by_cases hl : step.toNat ≤ s.lastCompletedStep
  · rw [resume_completed guest hstep hl]
    exact still_fields h rfl h.action (.inr hstep) rfl rfl rfl rfl
  · by_cases hn : n = 0
    · subst hn
      exact resume_empty h step guest
    · have hlt : s.lastCompletedStep < step.toNat := Nat.lt_of_not_le hl
      have htwo : step.toNat ≤ 2 := by
        rcases hstep with rfl | rfl <;> decide
      obtain ⟨m, -, hmn, hw⟩ := resume_sweeps hstep.walks (enterStep_request hstep hlt)
        (free_fields h rfl h.action) rfl hp hg (hx hn)
      refine ⟨hw.free, ⟨_, hw.ran, ?_⟩, hw.buffering hb, ?_, ?_⟩
      · intro p hmem
        obtain ⟨i, -, rfl⟩ := List.mem_map.mp hmem
        rcases hstep with rfl | rfl <;> exact ⟨by simp, by simp⟩
      · intro _
        rw [hw.atStep]
        exact .inr hstep
      · intro _
        refine .inr ⟨by omega, ?_⟩
        rcases RequestSteps.swept_request hstep hw with ⟨-, h0, hc⟩ | ⟨hm, hx', hc, -⟩
        · rw [h0, hc]
          omega
        · rw [hx', hc]
          refine ⟨?_, hm⟩
          show s.lastCompletedStep < 4
          omega

theorem upstream_still {n : ℕ} {s : Chain} {st : Step} {guest : ℕ → Guest} (h : Free n s)
    (hx : n ≠ 0 → s.execIndex < n)
    (hst : st = .upstreamSelect ∨ st = .nextUpstream ∨ st = .upstreamInfo)
    (hg : ∀ i, Answers (guest i)) : Still n s (upstreamResume s st guest).1 := by
  have hbg : Free n { s with phase := .background } := free_fields h rfl h.action
  by_cases hn : n = 0
  · subst hn
    obtain ⟨hfree, hran, hbuf, -, -⟩ := resume_empty hbg st guest
    exact ⟨free_fields hfree rfl hfree.action, hran, hbuf, fun hn => absurd rfl hn,
      fun hn => absurd rfl hn⟩
  · have hwalks : Walks st := by
      rcases hst with rfl | rfl | rfl <;> exact ⟨by decide, by decide⟩
    have henter : enterStep { s with phase := .background } st =
        some { s with phase := .background, step := st } := by
      rcases hst with rfl | rfl | rfl <;> rfl
    have hu : Free n { s with phase := .background, step := st } := free_fields h rfl h.action
    obtain ⟨m, -, hmn, hw⟩ := resume_sweeps hwalks henter hu rfl rfl hg (hx hn)
    refine ⟨free_fields hw.free rfl hw.free.action, ⟨_, hw.ran, ?_⟩, ?_, fun _ => .inl rfl, ?_⟩
    · intro p hmem
      obtain ⟨i, -, rfl⟩ := List.mem_map.mp hmem
      rcases hst with rfl | rfl | rfl <;> exact ⟨by simp, by simp⟩
    · exact hw.buffering (by simp)
    · intro _
      refine .inl ⟨rfl, ?_⟩
      rcases h.action with ha | ha
      · have hall : ∀ j, answer st (guest j) = .cont := by
          intro j
          rcases hst with rfl | rfl | rfl <;> rfl
        exact .inl (hw.quiet ha hall).2.1
      · exact .inr (hw.held ha).2

theorem handler_still {n : ℕ} {s : Chain} (inAccess : Bool) (phase : Phase) (hasBody : Bool)
    {guest : ℕ → Guest} (h : Free n s) (hx : n ≠ 0 → s.execIndex < n)
    (hg : ∀ i, Answers (guest i)) :
    Still n s (RequestSteps.handler inAccess s phase hasBody guest).1 := by
  have hfree : Free n { s with phase := phase } := free_fields h rfl h.action
  have hskip : Still n s { s with phase := phase } :=
    still_fields h rfl h.action (.inl rfl) rfl rfl rfl rfl
  have hrun : ∀ step, IsRequest step → pausable phase = true → phase ≠ .bodyFilter →
      Still n s (resume { s with phase := phase } step guest).1 := by
    intro step hstep hp hb
    obtain ⟨hf, hran, hbuf, hsteps, hprogress⟩ := request_still hfree hx hstep hp hb hg
    exact ⟨hf, hran, hbuf, hsteps, hprogress⟩
  cases phase with
  | rewrite =>
    cases inAccess with
    | true => exact hskip
    | false => exact hrun .reqHeaders (.inl rfl) rfl (by decide)
  | access =>
    cases inAccess with
    | true => exact hrun .reqHeaders (.inl rfl) rfl (by decide)
    | false => exact hskip
  | content =>
    cases hasBody with
    | true => exact hrun .reqBody (.inr rfl) rfl (by decide)
    | false => exact hskip
  | preaccess | headerFilter | bodyFilter | trailerFilter | log | done | background => exact hskip

/-! ### Calls that run a response step -/

/-- The chain as a step enters it again; `c` is the chain at the last call. -/
structure Ready (n : ℕ) (c s : Chain) : Prop where
  free : Free n s
  index : s.execIndex = c.execIndex
  completed : s.lastCompletedStep = c.lastCompletedStep
  buffering : s.respBuffering = c.respBuffering
  pausable : pausable s.phase = true
  ran : ∃ l, ran s = ran c ++ l ∧ ∀ p ∈ l, p.1 ≠ .respHeaders ∧ p.1 ≠ .respBody

theorem ready_still {n : ℕ} {c s t : Chain} (hs : Ready n c s) (hstep : s.step = c.step)
    (h : Still n s t) : Still n c t := by
  obtain ⟨l, hl, hsilent⟩ := hs.ran
  obtain ⟨l', hl', hsilent'⟩ := h.ran
  constructor
  · exact h.free
  · refine ⟨l ++ l', by rw [hl', hl, List.append_assoc], ?_⟩
    intro p hp
    rcases List.mem_append.mp hp with hp | hp
    · exact hsilent p hp
    · exact hsilent' p hp
  · exact h.buffering.trans hs.buffering
  · rw [← hstep]
    exact h.steps
  · rw [← hs.completed, ← hs.index]
    exact h.progress

section

variable (setup : Setup)

theorem offers_silent (called : Bool) (chunk : List ℕ) {l : List (Step × ℕ)}
    (h : ∀ p ∈ l, p.1 ≠ .respHeaders ∧ p.1 ≠ .respBody) :
    l.filterMap (offerOf called chunk) = [] := by
  apply List.filterMap_eq_nil_iff.mpr
  intro p hp
  obtain ⟨st, i⟩ := p
  obtain ⟨hh, hb⟩ := h _ hp
  cases st with
  | respHeaders => exact absurd rfl hh
  | respBody => exact absurd rfl hb
  | _ => rfl

theorem record_offers {q : Response} {t : Chain} {l l' : List (Step × ℕ)}
    (h : ran t = ran q.chain ++ (l ++ l'))
    (hl : ∀ p ∈ l, p.1 ≠ .respHeaders ∧ p.1 ≠ .respBody) :
    (record setup q t).offers = q.offers ++ l'.filterMap (offerOf (calls setup q) (ids q)) := by
  simp only [record, h, List.drop_left, List.filterMap_append, offers_silent _ _ hl,
    List.nil_append]

theorem record_still {n : ℕ} {q : Response} {t : Chain} (h : Inv n q) (hs : Still n q.chain t) :
    Inv n (record setup q t) := by
  obtain ⟨l, hran, hl⟩ := hs.ran
  have hoffers : (record setup q t).offers = q.offers := by
    have hran' : ran t = ran q.chain ++ (l ++ []) := by rw [hran, List.append_nil]
    rw [record_offers setup hran' hl]
    exact List.append_nil _
  exact still_inv h hs hoffers rfl rfl

/-- What the run of a step offers. -/
theorem swept_offers {n m : ℕ} {q : Response} {s u : Chain} {step : Step} {guest : ℕ → Guest}
    {r : Chain × Rc} (hs : Ready n q.chain s) (hu : ran u = ran s)
    (hw : Swept n step guest u.execIndex m u r) :
    (record setup q r.1).offers = q.offers ++
      (List.range' u.execIndex (m - u.execIndex)).filterMap
        fun i => offerOf (calls setup q) (ids q) (step, i) := by
  obtain ⟨l, hran, hl⟩ := hs.ran
  rw [record_offers setup (l := l) (by rw [hw.ran, hu, hran, List.append_assoc]) hl,
    List.filterMap_map]
  rfl

theorem resume_headers {n : ℕ} {q : Response} {s : Chain} {guest : ℕ → Guest} (hn : n ≠ 0)
    (h : Inv n q) (hs : Ready n q.chain s) (hphase : s.phase ≠ .bodyFilter)
    (hidle : q.respChunk = [] ∧ q.chain.respBuffering = false)
    (hentered : q.enteredHeaderFilter = true) (hg : ∀ i, Answers (guest i)) :
    Inv n (record setup q (resume s .respHeaders guest).1) := by
  have hrest := h.rest hn
  set u : Chain := { s with
    step := .respHeaders
    execIndex := if s.lastCompletedStep < 4 then 0 else s.execIndex } with hu
  have henter : enterStep s .respHeaders = some u := by
    by_cases hl : s.lastCompletedStep < 4 <;> simp [enterStep, Step.toNat, hu, hl]
  have hux : u.execIndex < n := by
    have hlt := hs.index ▸ hrest.index
    simp only [hu]
    split
    · omega
    · exact hlt
  obtain ⟨m, -, hmn, hw⟩ := resume_sweeps ⟨by decide, by decide⟩ henter
    (free_fields hs.free rfl hs.free.action) rfl hs.pausable hg hux
  have hoffers := swept_offers (u := u) setup hs rfl hw
  have hmap : (List.range' u.execIndex (m - u.execIndex)).filterMap
      (fun i => offerOf (calls setup q) (ids q) (.respHeaders, i)) =
      (List.range' u.execIndex (m - u.execIndex)).map .headers := by
    rw [← List.filterMap_eq_map]
    rfl
  rw [hmap] at hoffers
  have hbuf : (resume s .respHeaders guest).1.respBuffering = false :=
    (hw.buffering hphase).trans (hs.buffering.trans hidle.2)
  refine ⟨hw.free, hoffers ▸ each_headers h.order _ _, fun _ => ?_⟩
  constructor
  · exact .inr (.inl hw.atStep)
  · rcases hw.left with ⟨-, h0, -⟩ | ⟨hlt, hx, -⟩ | ⟨hb, -⟩
    · exact h0 ▸ Nat.pos_of_ne_zero hn
    · exact hx ▸ hlt
    · exact absurd hb (by decide)
  · exact fun _ => ⟨hidle.1, hbuf⟩
  · exact fun _ => ⟨hidle.1, hbuf⟩
  · intro hne
    exact absurd (hentered.symm.trans hne) (by decide)
  · intro hb
    exact absurd (hw.atStep.symm.trans hb) (by decide)
  · intro hle i hi
    rw [hoffers]
    by_cases hl : s.lastCompletedStep < 4
    · -- the whole chain ran the step from its head
      have hu0 : u.execIndex = 0 := if_pos hl
      have hm : m = n := by
        rcases hw.left with ⟨hm, -⟩ | ⟨-, -, hc, -⟩ | ⟨hb, -⟩
        · exact hm
        · have hc' : (resume s .respHeaders guest).1.lastCompletedStep = s.lastCompletedStep := hc
          exact absurd hl (Nat.not_lt.mpr (hc' ▸ hle))
        · exact absurd hb (by decide)
      refine List.mem_append_right _ (List.mem_map.mpr ⟨i, ?_, rfl⟩)
      rw [List.mem_range'_1]
      omega
    · have hfour : 4 ≤ q.chain.lastCompletedStep := hs.completed ▸ Nat.le_of_not_lt hl
      exact List.mem_append_left _ (hrest.headers hfour i hi)
  · refine .inr fun id hid => ?_
    rw [show ids (record setup q (resume s .respHeaders guest).1) = ids q from rfl, ids,
      hidle.1] at hid
    simp [visible] at hid

/-- What the body step needs of a chain with filters. -/
structure BodyReady (n : ℕ) (q : Response) : Prop where
  past : 4 ≤ q.chain.lastCompletedStep
  index : q.chain.execIndex < n
  headers : ∀ i < n, .headers i ∈ q.offers
  fresh : q.chain.execIndex = 0 ∨ Offered q.offers (ids q)
  entered : q.enteredHeaderFilter = true

theorem entered_of_past {n : ℕ} {q : Response} (h : Rest n q)
    (hl : 4 ≤ q.chain.lastCompletedStep) : q.enteredHeaderFilter = true := by
  cases he : q.enteredHeaderFilter with
  | true => rfl
  | false => exact absurd (h.unentered he).2 (Nat.not_lt.mpr hl)

theorem answers_answer {q : Response} (step : Step) {guest : ℕ → Guest}
    (h : ∀ i, Answers (guest i)) (i : ℕ) : Answers (answers setup q step guest i) := by
  obtain ⟨hrc, hrestores, hret, hhost⟩ := h i
  unfold answers
  by_cases hstep : step = .respBody
  · rw [if_pos hstep, onResponseBody]
    by_cases hcalled : calls setup q = true
    · rw [if_pos hcalled]
      refine ⟨hrc, hrestores, ?_, hhost⟩
      dsimp only
      split
      · exact .inl rfl
      · exact hret
    · rw [if_neg hcalled]
      exact ⟨rfl, hrestores, .inl rfl, by simp⟩
  · rw [if_neg hstep]
    exact h i

/-- No guest is called, or none may pause. -/
theorem answers_quiet {q : Response} {guest : ℕ → Guest} (h : ∀ i, Answers (guest i))
    (hq : calls setup q = false ∨ q.respBufs ≠ []) (j : ℕ) :
    answer .respBody (answers setup q .respBody guest j) = .cont := by
  have hret : answer .respBody (answers setup q .respBody guest j) =
      (onResponseBody (calls setup q) (!q.respBufs.isEmpty) (guest j)).ret := rfl
  rw [hret]
  cases hcalled : calls setup q with
  | false => rfl
  | true =>
    have hbufs : q.respBufs ≠ [] := hq.resolve_left (by simp [hcalled])
    rcases (h j).ret with hj | hj <;> simp [onResponseBody, hbufs, hj]

theorem resume_body {n : ℕ} {q : Response} {s : Chain} {guest : ℕ → Guest}
    (hb : BodyReady n q) (horder : Each InOrder q.offers) (hs : Ready n q.chain s)
    (ha : s.action = .cont) (hg : ∀ i, Answers (guest i)) :
    let q' := record setup q (resume s .respBody (answers setup q .respBody guest)).1
    Inv n q' ∧ 4 ≤ q'.chain.lastCompletedStep ∧
      (q.respBufs ≠ [] → q'.chain.respBuffering = s.respBuffering) := by
  set guest' := answers setup q .respBody guest with hguest'
  set u : Chain := { s with step := .respBody } with hu
  have hux : u.execIndex = q.chain.execIndex := hs.index
  have hwalks : Walks .respBody := ⟨by decide, by decide⟩
  have hstep : u.step = .respBody := rfl
  have hanswers : ∀ i, Answers (guest' i) := answers_answer setup .respBody hg
  have hindex : u.execIndex < n := hux ▸ hb.index
  obtain ⟨m, hxm, hmn, hw⟩ := resume_sweeps (u := u) hwalks rfl
    (free_fields hs.free rfl hs.free.action) hstep hs.pausable hanswers hindex
  have hoffers := swept_offers (u := u) setup hs rfl hw
  have hran : u.execIndex < m := hw.entered ha
  have hl : 4 ≤ (resume s .respBody guest').1.lastCompletedStep := by
    have hkeep : 4 ≤ u.lastCompletedStep := hs.completed ▸ hb.past
    rcases hw.left with ⟨-, -, hc⟩ | ⟨-, -, hc, -⟩ | ⟨-, -, -, hc, -⟩
    · rw [hc]
      decide
    · exact hc ▸ hkeep
    · exact hc ▸ hkeep
  have hmono : ∀ o ∈ q.offers,
      o ∈ (record setup q (resume s .respBody guest').1).offers := by
    intro o ho
    rw [hoffers]
    exact List.mem_append_left _ ho
  have hsaid : (record setup q (resume s .respBody guest').1).offers = q.offers ++
      if calls setup q then
        (List.range' u.execIndex (m - u.execIndex)).map fun i => .body i (ids q)
      else [] := by
    rw [hoffers]
    cases hcalled : calls setup q with
    | true =>
      rw [← List.filterMap_eq_map]
      rfl
    | false =>
      exact congrArg (q.offers ++ ·) (List.filterMap_eq_nil_iff.mpr fun i _ => rfl)
  have hfresh : (resume s .respBody guest').1.execIndex = 0 ∨
      Offered (record setup q (resume s .respBody guest').1).offers (ids q) := by
    cases hcalled : calls setup q with
    | false => exact .inl (hw.quiet ha (answers_quiet setup hg (.inl hcalled))).2.1
    | true =>
      refine .inr ?_
      rcases hb.fresh with h0 | hoff
      · intro id hid
        refine ⟨ids q, ?_, hid⟩
        rw [hsaid, if_pos hcalled]
        refine List.mem_append_right _ (List.mem_map.mpr ⟨0, ?_, rfl⟩)
        rw [List.mem_range'_1]
        omega
      · exact offered_mono hoff hmono
  refine ⟨⟨hw.free, ?_, fun hn => ?_⟩, hl, fun hbufs => ?_⟩
  · rw [hsaid]
    split
    · exact each_body horder hb.headers (hux ▸ hb.fresh) (by omega)
    · rw [List.append_nil]
      exact horder
  · constructor
    · exact .inr (.inr hw.atStep)
    · show (resume s .respBody guest').1.execIndex < n
      rcases hw.left with ⟨-, h0, -⟩ | ⟨hlt, hx, -⟩ | ⟨-, -, hx, -⟩ <;> omega
    · exact fun hlt => absurd hlt (Nat.not_lt.mpr hl)
    · intro hst
      exact absurd (hw.atStep.symm.trans hst) (by decide)
    · intro hne
      exact absurd (hb.entered.symm.trans hne) (by decide)
    · exact fun _ => hl
    · exact fun _ i hi => hmono _ (hb.headers i hi)
    · exact hfresh
  · exact (hw.quiet ha (answers_quiet setup hg (.inr hbufs))).2.2

/-! ### Inputs -/

/-- A completion goes on with the step that was in progress. -/
theorem resumed_inv {n : ℕ} {q : Response} {s : Chain} {guest : ℕ → Guest} (h : Inv n q)
    (hs : Ready n q.chain s) (hstep : s.step = q.chain.step) (ha : s.action = .cont)
    (hphase : s.phase = .background) {st : Step} (hst : st = q.chain.step)
    (hg : ∀ i, Answers (guest i)) :
    Inv n (record setup q (resume s st (answers setup q st guest)).1) := by
  by_cases hn : n = 0
  · subst hn
    exact record_still setup h (ready_still hs hstep (resume_empty hs.free _ _))
  · have hrest := h.rest hn
    have hbg : s.phase ≠ .bodyFilter := by
      rw [hphase]
      decide
    have hsteps := hrest.steps
    rw [← hst] at hsteps
    rcases hsteps with hreq | rfl | rfl
    · have hx : s.execIndex < n := hs.index ▸ hrest.index
      have hself := request_still hs.free (fun _ => hx) hreq hs.pausable hbg
        (answers_answer setup (q := q) st hg)
      exact record_still setup h (ready_still hs hstep hself)
    · have hentered : q.enteredHeaderFilter = true := by
        cases he : q.enteredHeaderFilter with
        | true => rfl
        | false =>
          have hreq := (hrest.unentered he).1
          rw [← hst] at hreq
          rcases hreq with hreq | hreq <;> exact absurd hreq (by decide)
      exact resume_headers setup hn h hs hbg (hrest.idle hst.symm) hentered
        (answers_answer setup .respHeaders hg)
    · have hpast := hrest.body hst.symm
      have hb : BodyReady n q :=
        ⟨hpast, hrest.index, hrest.headers hpast, hrest.fresh, entered_of_past hrest hpast⟩
      exact (resume_body setup hb h.order hs ha hg).1

theorem completion_inv {n : ℕ} {q : Response} {t : Chain} {guest : ℕ → Guest} (h : Inv n q)
    (hc : Completed n q.chain t) (k : ℕ) (pending resumes : Bool) (hg : ∀ i, Answers (guest i)) :
    Inv n (record setup q
      (afterCallback t k pending resumes (answers setup q q.chain.step guest)).1) := by
  obtain ⟨l, hl, hcallbacks⟩ := hc.ran
  have hsilent : ∀ p ∈ l, p.1 ≠ .respHeaders ∧ p.1 ≠ .respBody := by
    intro p hp
    rcases hcallbacks p hp with hst | hst <;> simp [hst]
  have hp : pausable t.phase = true := by
    rw [hc.phase]
    rfl
  have hready : ∀ a p, a = .cont ∨ a = .pause →
      Ready n q.chain { t with action := a, pausedBy := p } := fun a p ha =>
    ⟨free_fields hc.free rfl ha, hc.index, hc.completed, hc.buffering, hp, l, hl, hsilent⟩
  have hstill : ∀ a p, a = .cont ∨ a = .pause →
      Inv n (record setup q { t with action := a, pausedBy := p }) := by
    intro a p ha
    have hself := still_fields (hready a p ha).free rfl ha (.inl rfl) rfl rfl rfl rfl
    exact record_still setup h (ready_still (hready a p ha) hc.atStep hself)
  rcases afterCallback_cases t k pending resumes (answers setup q q.chain.step guest) with
    ⟨rc, he⟩ | ⟨rc, he⟩ | he
  · rw [he]
    exact hstill .pause (some k) (.inr rfl)
  · rw [he]
    exact hstill .cont t.pausedBy (.inl rfl)
  · rw [he, ← hc.atStep]
    have hr : Ready n q.chain { t with action := .cont } := hready .cont t.pausedBy (.inl rfl)
    exact resumed_inv setup h hr hc.atStep rfl hc.phase hc.atStep hg

theorem headerFilter_inv {n : ℕ} {q : Response} {guest : ℕ → Guest} (h : Inv n q)
    (hg : ∀ i, Answers (guest i)) : Inv n (headerFilterHandler setup q guest) := by
  unfold headerFilterHandler
  split
  · exact h
  · rename_i hentered
    rw [Bool.not_eq_true] at hentered
    set q₁ : Response := { q with enteredHeaderFilter := true } with hq₁
    have hr : Ready n q₁.chain { q.chain with phase := .headerFilter } :=
      ⟨free_fields h.free rfl h.free.action, rfl, rfl, rfl, rfl, [], (List.append_nil _).symm,
        by simp⟩
    by_cases hn : n = 0
    · subst hn
      have hinv : Inv 0 q₁ := ⟨h.free, h.order, fun hn => absurd rfl hn⟩
      exact record_still setup hinv (ready_still hr rfl (resume_empty hr.free _ _))
    · have hrest := h.rest hn
      have hearly := hrest.early (hrest.unentered hentered).2
      have hinv : Inv n q₁ := by
        refine ⟨h.free, h.order, fun _ => ?_⟩
        obtain ⟨hsteps, hindex, hearly, hidle, -, hbody, hheaders, hfresh⟩ := hrest
        exact ⟨hsteps, hindex, hearly, hidle, fun hne => absurd hne (by simp [hq₁]), hbody,
          hheaders, hfresh⟩
      exact resume_headers setup hn hinv hr (by simp) hearly rfl
        (answers_answer setup .respHeaders hg)

/-! ### Chunks -/

/-- The chunk that comes next finds the step where the last one left it. -/
theorem bodyFilterResume_inv {n : ℕ} {q : Response} {parts : List Part} {guest : ℕ → Guest}
    (h : Free n q.chain) (horder : Each InOrder q.offers)
    (hready : n ≠ 0 → BodyReady n { q with respChunk := parts })
    (hbuf : q.chain.respBuffering = false) (hg : ∀ i, Answers (guest i)) :
    let q' := bodyFilterResume setup q parts guest
    Inv n q' ∧ (n ≠ 0 → 4 ≤ q'.chain.lastCompletedStep) ∧
      (q.respBufs ≠ [] → n ≠ 0 → q'.chain.respBuffering = false) := by
  set q₁ : Response := { q with
    respChunk := parts
    respChunkLen := chunkLen parts
    respChunkEof := q.respChunkEof || chunkEof setup parts } with hq₁
  set s : Chain := { q.chain with action := .cont, phase := .bodyFilter } with hs
  have hrun : bodyFilterResume setup q parts guest =
      record setup q₁ (resume s .respBody (answers setup q₁ .respBody guest)).1 := by
    unfold bodyFilterResume
    exact if_neg (by simp [hbuf])
  have hr : Ready n q₁.chain s :=
    ⟨free_fields h rfl (.inl rfl), rfl, rfl, rfl, rfl, [], (List.append_nil _).symm, by simp⟩
  simp only [hrun]
  by_cases hn : n = 0
  · subst hn
    have hinv : Inv 0 q₁ := ⟨h, horder, fun hn => absurd rfl hn⟩
    exact ⟨record_still setup hinv (ready_still hr rfl (resume_empty hr.free _ _)),
      fun hn => absurd rfl hn, fun _ hn => absurd rfl hn⟩
  · obtain ⟨hpast, hindex, hheaders, hfresh, hentered⟩ := hready hn
    have hb : BodyReady n q₁ := ⟨hpast, hindex, hheaders, hfresh, hentered⟩
    obtain ⟨hinv, hl, hquiet⟩ := resume_body setup hb horder hr rfl hg
    exact ⟨hinv, fun _ => hl, fun hbufs _ => (hquiet hbufs).trans hbuf⟩

theorem sendChunk_inv {n : ℕ} {q : Response} (h : Inv n q) (sent : Bool) :
    Inv n (sendChunk q sent) := by
  unfold sendChunk
  cases sent with
  | false => exact h
  | true =>
    refine ⟨h.free, h.order, fun hn => ?_⟩
    obtain ⟨hsteps, hindex, hearly, hidle, hunentered, hbody, hheaders, -⟩ := h.rest hn
    exact ⟨hsteps, hindex, fun hl => ⟨rfl, (hearly hl).2⟩, fun hst => ⟨rfl, (hidle hst).2⟩,
      hunentered, hbody, hheaders, .inr fun id hid => by simp [ids, visible] at hid⟩

/-- What the buffers need for the chain to be resumed on them. -/
def BufsReady (n : ℕ) (q : Response) (bufs : List Part) : Prop :=
  n ≠ 0 → 4 ≤ q.chain.lastCompletedStep ∧
    (q.chain.execIndex = 0 ∨ Offered q.offers ((visible bufs).map Part.id))

theorem bufferChunk_inv {n : ℕ} {q : Response} (part : Part) {c : Chunk} (h : Inv n q)
    (hb : BufsReady n q (q.respBufs ++ [part])) (hg : ∀ i, Answers (c.guestAgain i)) :
    Inv n (bufferChunk setup q part c) := by
  set q₁ : Response := { q with respBufs := q.respBufs ++ [part] } with hq₁
  have hinv : Inv n q₁ := by
    refine ⟨h.free, h.order, fun hn => ?_⟩
    obtain ⟨hsteps, hindex, hearly, hidle, hunentered, hbody, hheaders, hfresh⟩ := h.rest hn
    exact ⟨hsteps, hindex, hearly, hidle, hunentered, hbody, hheaders, hfresh⟩
  set q₂ : Response := { q₁ with chain := { q.chain with respBuffering := false } } with hq₂
  have hready : n ≠ 0 → BodyReady n { q₂ with respChunk := q₁.respBufs } := by
    intro hn
    obtain ⟨hpast, hfresh⟩ := hb hn
    have hrest := h.rest hn
    have hentered := entered_of_past hrest hpast
    exact ⟨hpast, hrest.index, hrest.headers hpast, hfresh, hentered⟩
  have hresumed : Inv n (resumeBuffered setup q₁ c.guestAgain) :=
    (bodyFilterResume_inv setup (q := q₂) (free_fields h.free rfl h.free.action) h.order hready rfl
      hg).1
  have hsent : Inv n (sendChunk (resumeBuffered setup q₁ c.guestAgain) c.sent) :=
    sendChunk_inv hresumed c.sent
  cases hc : c.buffered with
  | error =>
    simp only [bufferChunk, hc]
    exact hinv
  | done =>
    simp only [bufferChunk, hc]
    exact hsent
  | ok =>
    simp only [bufferChunk, hc]
    split
    · exact hsent
    · exact hinv

/-- A chunk on arrival: it is offered, or kept for the filter that is buffering. -/
theorem arrival_inv {n : ℕ} {q : Response} (part : Part) {guest : ℕ → Guest} (h : Inv n q)
    (hguard : n = 0 ∨ 4 ≤ q.chain.lastCompletedStep ∧ q.chain.execIndex = 0)
    (hg : ∀ i, Answers (guest i)) :
    let q' := bodyFilterResume setup q [part] guest
    Inv n q' ∧ (q'.chain.respBuffering = true → BufsReady n q' (q'.respBufs ++ [part])) := by
  have hpast : n ≠ 0 → 4 ≤ q.chain.lastCompletedStep ∧ q.chain.execIndex = 0 :=
    fun hn => hguard.resolve_left hn
  cases hbuf : q.chain.respBuffering with
  | true =>
    set q₁ : Response := { q with
      respChunk := [part]
      respChunkLen := chunkLen [part]
      respChunkEof := q.respChunkEof || chunkEof setup [part] } with hq₁
    have hkept : bodyFilterResume setup q [part] guest = q₁ := by
      simp only [bodyFilterResume, hbuf, if_true, hq₁]
    simp only [hkept]
    refine ⟨⟨h.free, h.order, fun hn => ?_⟩, fun _ hn => ⟨(hpast hn).1, .inl (hpast hn).2⟩⟩
    obtain ⟨hsteps, hindex, -, hidle, hunentered, hbody, hheaders, -⟩ := h.rest hn
    refine ⟨hsteps, hindex, fun hl => ?_, fun hst => ?_, hunentered, hbody, hheaders,
      .inl (hpast hn).2⟩
    · exact absurd hl (Nat.not_lt.mpr (hpast hn).1)
    · exact absurd ((hidle hst).2.symm.trans hbuf) (by decide)
  | false =>
    have hready : n ≠ 0 → BodyReady n { q with respChunk := [part] } := by
      intro hn
      obtain ⟨hl, hx⟩ := hpast hn
      have hrest := h.rest hn
      have hentered := entered_of_past hrest hl
      exact ⟨hl, hrest.index, hrest.headers hl, .inl hx, hentered⟩
    obtain ⟨hinv, hl, hquiet⟩ := bodyFilterResume_inv setup h.free h.order hready hbuf hg
    refine ⟨hinv, fun hbuf' hn => ⟨hl hn, ?_⟩⟩
    have hparts : (bodyFilterResume setup q [part] guest).respBufs = q.respBufs ∧
        (bodyFilterResume setup q [part] guest).respChunk = [part] := by
      simp only [bodyFilterResume, hbuf, Bool.false_eq_true, if_false]
      exact ⟨rfl, rfl⟩
    have hnil : q.respBufs = [] := by
      by_contra hne
      exact absurd ((hquiet hne hn).symm.trans hbuf') (by decide)
    have hfresh := (hinv.rest hn).fresh
    rw [ids, hparts.2] at hfresh
    rw [hparts.1, hnil]
    exact hfresh

theorem bodyFilterHandler_inv {n : ℕ} {q : Response} {c : Chunk} (h : Inv n q)
    (hguard : n = 0 ∨ 4 ≤ q.chain.lastCompletedStep ∧ q.chain.execIndex = 0)
    (hg : ∀ i, Answers (c.guest i) ∧ Answers (c.guestAgain i)) :
    Inv n (bodyFilterHandler setup q c) := by
  set q₁ : Response := { q with received := q.received + 1 } with hq₁
  have hinv : Inv n q₁ := by
    refine ⟨h.free, h.order, fun hn => ?_⟩
    obtain ⟨hsteps, hindex, hearly, hidle, hunentered, hbody, hheaders, hfresh⟩ := h.rest hn
    exact ⟨hsteps, hindex, hearly, hidle, hunentered, hbody, hheaders, hfresh⟩
  set part : Part := ⟨q.received, c.len, c.lastBuf, c.lastInChain⟩ with hpart
  obtain ⟨harrived, hready⟩ :=
    arrival_inv setup part hinv hguard fun i => (hg i).1
  simp only [bodyFilterHandler]
  split
  · rename_i hbuf
    exact bufferChunk_inv setup part harrived (hready hbuf) fun i => (hg i).2
  · exact sendChunk_inv harrived c.sent

/-! ### The run -/

theorem next_inv {n : ℕ} {q : Response} {c : ResponseFilter.Input} (h : Inv n q)
    (hg : AllAnswer c) (hguard : Guard q c) : Inv n (next setup q c) := by
  have hx : n ≠ 0 → q.chain.execIndex < n := fun hn => (h.rest hn).index
  cases c with
  | request phase hasBody guest =>
    exact still_inv h (handler_still setup.inAccess phase hasBody h.free hx hg) rfl rfl rfl
  | headerFilter guest => exact headerFilter_inv setup h hg
  | chunk c =>
    rw [Guard, h.free.size] at hguard
    exact bodyFilterHandler_inv setup h hguard hg
  | dispatching k =>
    exact still_inv h (still_fields h.free rfl (.inr rfl) (.inl rfl) rfl rfl rfl rfl) rfl rfl rfl
  | dispatched k failed g pending guest =>
    obtain ⟨hf, hgk, hguest⟩ := hg
    obtain ⟨t, resumes, hc, he⟩ := dispatchResume_completes h.free k pending
      (answers setup q q.chain.step guest) hf hgk
    simp only [next, enter, he]
    exact completion_inv setup h hc k pending resumes hguest
  | foreign k g pending guest =>
    obtain ⟨hgk, hguest⟩ := hg
    obtain ⟨t, hc, he⟩ := foreignCallback_completes h.free k pending
      (answers setup q q.chain.step guest) hgk
    simp only [next, enter, he]
    exact completion_inv setup h hc k pending true hguest
  | upstream st guest =>
    exact still_inv h (upstream_still h.free hx hg.1 hg.2) rfl rfl rfl

theorem newResponse_inv {pwexecs : List Exec} (h : ∀ e ∈ pwexecs, e.ecode = none) :
    Inv pwexecs.length (newResponse pwexecs) := by
  refine ⟨?_, each_nil InOrder, fun hn => ?_⟩
  · exact (RequestSteps.newRequest_good false h).chain.free
  · have hearly : (newResponse pwexecs).chain.lastCompletedStep = 0 := rfl
    have hstep : (newResponse pwexecs).chain.step = .reqHeaders := rfl
    constructor
    · exact .inl (.inl rfl)
    · exact Nat.pos_of_ne_zero hn
    · exact fun _ => ⟨rfl, rfl⟩
    · exact fun _ => ⟨rfl, rfl⟩
    · exact fun _ => ⟨.inl rfl, by simp [hearly]⟩
    · simp [hstep]
    · simp [hearly]
    · exact .inl rfl

/-- If every chunk finds the headers step completed and the chain at its head,
no filter gets the body before the headers and no chunk skips the first filter. -/
theorem response_in_order (pwexecs : List Exec) (hnew : ∀ e ∈ pwexecs, e.ecode = none)
    (inputs : List ResponseFilter.Input) (hanswer : ∀ c ∈ inputs, AllAnswer c)
    (hguard : Meets (ResponseFilter.step setup) Guard (newResponse pwexecs) inputs) :
    Each InOrder (exec (ResponseFilter.step setup) (newResponse pwexecs) inputs).1.offers := by
  have hinv : Inv pwexecs.length
      (exec (ResponseFilter.step setup) (newResponse pwexecs) inputs).1 := by
    apply exec_invariant _ (fun q c => AllAnswer c ∧ Guard q c) (Inv pwexecs.length)
    · intro q c h hc
      exact next_inv setup h hc.1 hc.2
    · exact newResponse_inv hnew
    · exact meets_and _ inputs _ (meets_of_forall _ AllAnswer inputs _ hanswer) hguard
  exact hinv.order

end

def chunkOf (lastBuf : Bool) (pauser : ℕ) : Chunk :=
  ⟨5, lastBuf, false, .ok, fun i => returns (if i = pauser then .pause else .cont),
    fun _ => returns .cont, true⟩

theorem returns_answers (pauser i : ℕ) :
    Answers (returns (if i = pauser then .pause else .cont)) := by
  refine ⟨rfl, fun _ => rfl, ?_, by simp [returns]⟩
  split
  · exact .inr rfl
  · exact .inl rfl

theorem chunkOf_answers (lastBuf : Bool) (pauser : ℕ) :
    AllAnswer (.chunk (chunkOf lastBuf pauser)) :=
  fun i => ⟨returns_answers pauser i, rfl, fun _ => rfl, .inl rfl, by simp [chunkOf, returns]⟩

/-- The last filter pauses in the headers step, the first one on the first chunk. -/
def buffered : List ResponseFilter.Input :=
  [.headerFilter fun i => returns (if i = 1 then .pause else .cont),
    .chunk (chunkOf false 0), .chunk (chunkOf true 2)]

theorem response_in_order_buffered :
    Each InOrder (exec (ResponseFilter.step ⟨true, 0, false⟩)
      (newResponse [created 0, created 1]) buffered).1.offers := by
  have hnew : ∀ e ∈ [created 0, created 1], e.ecode = none := by simp [created]
  have hall : ∀ c ∈ buffered, AllAnswer c := by
    intro c hc
    simp only [buffered, List.mem_cons, List.not_mem_nil, or_false] at hc
    rcases hc with rfl | rfl | rfl
    · exact returns_answers 1
    · exact chunkOf_answers false 0
    · exact chunkOf_answers true 2
  have hguard : Meets (ResponseFilter.step ⟨true, 0, false⟩) Guard
      (newResponse [created 0, created 1]) buffered :=
    ⟨trivial, .inr (by decide), .inr (by decide), trivial⟩
  exact response_in_order ⟨true, 0, false⟩ _ hnew buffered hall hguard

/-- The first of two filters pauses in the headers step: the second one gets the
body without the headers, and the first one never gets it. -/
def headersPaused : List ResponseFilter.Input :=
  [.headerFilter fun i => returns (if i = 0 then .pause else .cont), .chunk (chunkOf true 2)]

theorem body_before_headers :
    (∀ c ∈ headersPaused, AllAnswer c) ∧
    ¬ Each InOrder (exec (ResponseFilter.step ⟨true, 0, false⟩)
      (newResponse [created 0, created 1]) headersPaused).1.offers := by
  constructor
  · intro c hc
    simp only [headersPaused, List.mem_cons, List.not_mem_nil, or_false] at hc
    rcases hc with rfl | rfl
    · exact returns_answers 0
    · exact chunkOf_answers true 2
  · intro h
    have hoffers : (exec (ResponseFilter.step ⟨true, 0, false⟩)
        (newResponse [created 0, created 1]) headersPaused).1.offers =
        [.headers 0] ++ .body 1 [0] :: [] := by decide
    have hbefore := (h _ _ _ hoffers).1
    exact absurd hbefore (by decide)

end NgxWasm.Http.ResponseOrder
