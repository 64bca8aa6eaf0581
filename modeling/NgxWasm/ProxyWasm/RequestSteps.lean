import NgxWasm.ProxyWasm.ResumeSweep

/-!
# The request steps (ngx_wasm_ops.c, ngx_http_wasm_module.c)

The request headers and the request body step are entered by the phase handlers,
which stay where they are when the chain yields, and again by the completions of
dispatches and foreign calls. With `proxy_wasm_request_headers_in_access` the
headers wait for the access phase, which not every request has.
-/

namespace NgxWasm.ProxyWasm.RequestSteps
open NgxWasm.Lib Run NgxWasm.ProxyWasm.Resume NgxWasm.ProxyWasm.ResumeIndex
open NgxWasm.ProxyWasm.ResumeEntry NgxWasm.ProxyWasm.ResumeSweep

/-! ### Phases -/

structure Request where
  chain : Chain
  position : Phase

/-- The request phases of `ngx_wasm_op_proxy_wasm_handler`; `hasBody` tells
whether the body has been received and is not empty. -/
def handler (inAccess : Bool) (s : Chain) (phase : Phase) (hasBody : Bool) (guest : ℕ → Guest) :
    Chain × Rc :=
  let s := { s with phase := phase }
  match phase with
  | .rewrite => if inAccess then (s, .ok) else resume s .reqHeaders guest
  | .access => if inAccess then resume s .reqHeaders guest else (s, .ok)
  | .content => if hasBody then resume s .reqBody guest else (s, .ok)
  | _ => (s, .declined)

def nextPosition (hasAccess : Bool) : Phase → Phase
  | .rewrite => if hasAccess then .access else .content
  | _ => .content

/-- The module's handler of the phase that the request is in, which the request
leaves unless the handler yields or fails. -/
def runPhase (inAccess hasAccess : Bool) (q : Request) (hasBody : Bool) (guest : ℕ → Guest) :
    Request × Rc :=
  let r := handler inAccess q.chain q.position hasBody guest
  match r.2 with
  | .again | .error | .http _ => (⟨r.1, q.position⟩, r.2)
  | _ => (⟨r.1, nextPosition hasAccess q.position⟩, r.2)

/-- `resumeHttpRequest` is the guest's call to go on; it only writes `rctx->env`. -/
inductive Input where
  | phase (hasBody : Bool) (guest : ℕ → Guest)
  | resumeHttpRequest
  | dispatching (k : ℕ)
  | dispatched (k : ℕ) (failed : Bool) (g : Guest) (pending : Bool) (guest : ℕ → Guest)
  | foreign (k : ℕ) (g : Guest) (pending : Bool) (guest : ℕ → Guest)

def onChain (q : Request) (r : Chain × Rc) : Request × Rc := (⟨r.1, q.position⟩, r.2)

def step (inAccess hasAccess : Bool) (q : Request) : Input → Request × Rc
  | .phase hasBody guest => runPhase inAccess hasAccess q hasBody guest
  | .resumeHttpRequest => (q, .ok)
  | .dispatching k => onChain q (dispatchWait q.chain k)
  | .dispatched k failed g pending guest =>
    onChain q (dispatchResume q.chain k failed g pending guest)
  | .foreign k g pending guest => onChain q (foreignCallback q.chain k g pending guest)

def newRequest (pwexecs : List Exec) : Request := ⟨newChain pwexecs, .rewrite⟩

/-! ### Properties -/

def AllAnswer : Input → Prop
  | .phase _ guest => ∀ i, Answers (guest i)
  | .resumeHttpRequest => True
  | .dispatching _ => True
  | .dispatched _ failed g _ guest =>
    (failed = true ∨ g.trapped = false) ∧ Answers g ∧ ∀ i, Answers (guest i)
  | .foreign _ g _ guest => Answers g ∧ ∀ i, Answers (guest i)

/-- The entries that ran the step, in that order. -/
def ranIn (step : Step) (s : Chain) : List ℕ := ((ran s).filter fun p => p.1 = step).map Prod.snd

/-- The step ran in a front part of the chain, once for each entry, and in the
whole chain if it counts as completed. -/
def RanInOrder (n : ℕ) (step : Step) (s : Chain) : Prop :=
  ∃ m ≤ n, ranIn step s = List.range m ∧ (step.toNat ≤ s.lastCompletedStep → m = n)

def IsRequest (step : Step) : Prop := step = .reqHeaders ∨ step = .reqBody

theorem IsRequest.walks {step : Step} (h : IsRequest step) : Walks step := by
  rcases h with rfl | rfl
  · exact ⟨by decide, by decide⟩
  · exact ⟨by decide, by decide⟩

theorem enterStep_request {s : Chain} {step : Step} (hstep : IsRequest step)
    (hl : s.lastCompletedStep < step.toNat) :
    enterStep s step = some { s with step := step } := by
  rcases hstep with rfl | rfl
  · exact if_neg (Nat.not_le.mpr hl)
  · exact if_neg (Nat.not_le.mpr hl)

theorem resume_completed {s : Chain} {step : Step} (guest : ℕ → Guest) (hstep : IsRequest step)
    (hl : step.toNat ≤ s.lastCompletedStep) :
    resume s step guest = ({ s with step := step }, .ok) := by
  rcases hstep with rfl | rfl
  · simp [resume, enterStep, hl]
  · simp [resume, enterStep, hl]

/-! ### The invariant -/

/-- How far the two steps have got, for `last_completed_step` and `exec_index`. -/
inductive Progress (n : ℕ) : ℕ → ℕ → List ℕ → List ℕ → Prop where
  | headers (x : ℕ) : x = 0 ∨ x < n → Progress n 0 x (List.range x) []
  | body (x : ℕ) : x = 0 ∨ x < n → Progress n 1 x (List.range n) (List.range x)
  | finished : Progress n 2 0 (List.range n) (List.range n)

structure Inv (n : ℕ) (s : Chain) : Prop where
  free : Free n s
  atStep : IsRequest s.step
  progress : Progress n s.lastCompletedStep s.execIndex (ranIn .reqHeaders s) (ranIn .reqBody s)
  order : s.step = .reqBody → 1 ≤ s.lastCompletedStep ∨ n = 0

theorem inv_fields {n : ℕ} {s t : Chain} (h : Inv n s) (hp : t.pwexecs = s.pwexecs)
    (ha : t.action = .cont ∨ t.action = .pause) (hs : t.step = s.step)
    (hl : t.lastCompletedStep = s.lastCompletedStep) (hx : t.execIndex = s.execIndex)
    (ht : t.trace = s.trace) : Inv n t := by
  constructor
  · exact free_fields h.free hp ha
  · exact hs ▸ h.atStep
  · rw [hl, hx, ranIn, ranIn, ran, ht]
    exact h.progress
  · rw [hs, hl]
    exact h.order

theorem range_append_range' (x m : ℕ) (h : x ≤ m) :
    List.range x ++ List.range' x (m - x) = List.range m := by
  rw [List.range_eq_range', List.range_eq_range']
  have happ := List.range'_append_1 (s := 0) (m := x) (n := m - x)
  rw [Nat.zero_add, Nat.add_sub_of_le h] at happ
  exact happ

theorem ranIn_swept {n i m : ℕ} {step : Step} {guest : ℕ → Guest} {s : Chain} {r : Chain × Rc}
    (hw : Swept n step guest i m s r) :
    ranIn step r.1 = ranIn step s ++ List.range' i (m - i) ∧
      ∀ st, st ≠ step → ranIn st r.1 = ranIn st s := by
  constructor
  · simp [ranIn, hw.ran, List.filter_map, Function.comp_def]
  · intro st hst
    simp [ranIn, hw.ran, List.filter_map, Function.comp_def, hst.symm]

/-- The step stopped at the end or in front of the entry behind those that ran it. -/
theorem swept_request {n i m : ℕ} {step : Step} {guest : ℕ → Guest} {s : Chain} {r : Chain × Rc}
    (hstep : IsRequest step) (hw : Swept n step guest i m s r) :
    m = n ∧ r.1.execIndex = 0 ∧ r.1.lastCompletedStep = step.toNat ∨
      m < n ∧ r.1.execIndex = m ∧ r.1.lastCompletedStep = s.lastCompletedStep ∧ r.2 = .again := by
  rcases hw.left with hl | hl | ⟨hb, -⟩
  · exact .inl hl
  · exact .inr hl
  · rcases hstep with rfl | rfl <;> simp at hb

/-- The run of a step from the head of the chain or from where it yielded. -/
theorem progress_sweeps {n m : ℕ} {s : Chain} {step : Step} {guest : ℕ → Guest} {r : Chain × Rc}
    (hstep : IsRequest step) (hl : s.lastCompletedStep + 1 = step.toNat)
    (h : Progress n s.lastCompletedStep s.execIndex (ranIn .reqHeaders s) (ranIn .reqBody s))
    (hm : s.execIndex ≤ m) (hw : Swept n step guest s.execIndex m s r) :
    Progress n r.1.lastCompletedStep r.1.execIndex (ranIn .reqHeaders r.1) (ranIn .reqBody r.1) := by
  obtain ⟨hran, hothers⟩ := ranIn_swept hw
  have hleft := swept_request hstep hw
  generalize hH : ranIn .reqHeaders s = H at h
  generalize hB : ranIn .reqBody s = B at h
  generalize hL : s.lastCompletedStep = L at h hl hleft
  generalize hX : s.execIndex = X at h hm hran
  rcases hstep with rfl | rfl
  · have hbody := hothers .reqBody (by decide)
    cases h with
    | headers x hx =>
      rw [hH, range_append_range' X m hm] at hran
      rw [hran, hbody, hB]
      rcases hleft with ⟨rfl, h0, hc⟩ | ⟨hlt, hx', hc, -⟩
      · rw [h0, hc]
        exact .body 0 (.inl rfl)
      · rw [hx', hc]
        exact .headers m (.inr hlt)
    | body x hx => simp [Step.toNat] at hl
    | finished => simp [Step.toNat] at hl
  · have hheaders := hothers .reqHeaders (by decide)
    cases h with
    | headers x hx => simp [Step.toNat] at hl
    | body x hx =>
      rw [hB, range_append_range' X m hm] at hran
      rw [hran, hheaders, hH]
      rcases hleft with ⟨rfl, h0, hc⟩ | ⟨hlt, hx', hc, -⟩
      · rw [h0, hc]
        exact .finished
      · rw [hx', hc]
        exact .body m (.inr hlt)
    | finished => simp [Step.toNat] at hl

theorem progress_index {n L x : ℕ} {headers body : List ℕ} (h : Progress n L x headers body) :
    x = 0 ∨ x < n := by
  cases h with
  | headers x hx => exact hx
  | body x hx => exact hx
  | finished => exact .inl rfl

theorem resume_inv {n : ℕ} {s : Chain} {step : Step} {guest : ℕ → Guest} (h : Inv n s)
    (hp : pausable s.phase = true) (hstep : IsRequest step)
    (ho : step = .reqBody → 1 ≤ s.lastCompletedStep ∨ n = 0) (hg : ∀ i, Answers (guest i)) :
    Inv n (resume s step guest).1 ∧
      ((resume s step guest).2 = .again ∨ (resume s step guest).2 = .ok ∧
        (1 ≤ (resume s step guest).1.lastCompletedStep ∨ n = 0)) ∧
      s.lastCompletedStep ≤ (resume s step guest).1.lastCompletedStep := by
  have hone : 1 ≤ step.toNat := by
    rcases hstep with rfl | rfl <;> decide
  by_cases hl : step.toNat ≤ s.lastCompletedStep
  · rw [resume_completed guest hstep hl]
    have hdone : 1 ≤ s.lastCompletedStep := hone.trans hl
    exact ⟨⟨⟨h.free.size, h.free.ecodes, h.free.action⟩, hstep, h.progress, fun _ => .inl hdone⟩,
      .inr ⟨rfl, .inl hdone⟩, le_rfl⟩
  · have hlt : s.lastCompletedStep < step.toNat := Nat.lt_of_not_le hl
    by_cases hn : n = 0
    · have hres : resume s step guest = ({ s with step := step }, .ok) := by
        have henter := enterStep_request hstep hlt
        have hzero : Chain.nfilters { s with step := step } - s.execIndex = 0 := by
          rw [show Chain.nfilters { s with step := step } = s.nfilters from rfl, h.free.size, hn]
          exact Nat.zero_sub _
        simp only [resume, henter, hzero]
        rfl
      rw [hres]
      exact ⟨⟨⟨h.free.size, h.free.ecodes, h.free.action⟩, hstep, h.progress, fun _ => .inr hn⟩,
        .inr ⟨rfl, .inr hn⟩, le_rfl⟩
    · have hl' : s.lastCompletedStep + 1 = step.toNat := by
        rcases hstep with rfl | rfl
        · have : s.lastCompletedStep < 1 := hlt
          show s.lastCompletedStep + 1 = 1
          omega
        · have : s.lastCompletedStep < 2 := hlt
          have := (ho rfl).resolve_right hn
          show s.lastCompletedStep + 1 = 2
          omega
      have hx : s.execIndex < n := by
        rcases progress_index h.progress with hx | hx
        · omega
        · exact hx
      obtain ⟨m, hm, -, hw⟩ := resume_sweeps hstep.walks (enterStep_request hstep hlt)
        (free_fields h.free rfl h.free.action) rfl hp hg hx
      have hprog := progress_sweeps (s := { s with step := step }) hstep hl' h.progress hm hw
      have hmono : s.lastCompletedStep ≤ (resume s step guest).1.lastCompletedStep ∧
          ((resume s step guest).2 ≠ .again → 1 ≤ (resume s step guest).1.lastCompletedStep) := by
        rcases swept_request hstep hw with ⟨-, -, hc⟩ | ⟨-, -, hc, ha⟩
        · rw [hc]
          exact ⟨Nat.le_of_lt hlt, fun _ => hone⟩
        · rw [hc]
          exact ⟨le_rfl, fun hna => absurd ha hna⟩
      have hinv : Inv n (resume s step guest).1 := by
        constructor
        · exact hw.free
        · rw [hw.atStep]
          exact hstep
        · exact hprog
        · rw [hw.atStep]
          intro hb
          exact (ho hb).imp_left fun hle => hle.trans hmono.1
      refine ⟨hinv, ?_, hmono.1⟩
      rcases hw.rc with hok | hag
      · exact .inr ⟨hok, .inl (hmono.2 (by rw [hok]; decide))⟩
      · exact .inl hag

/-! ### Completions -/

/-- The callback of a completion touches neither of the two steps. -/
theorem completed_inv {n : ℕ} {s t : Chain} (h : Inv n s) (hc : Completed n s t) : Inv n t := by
  obtain ⟨l, hl, hsteps⟩ := hc.ran
  have hran : ∀ st, IsRequest st → ranIn st t = ranIn st s := by
    intro st hst
    have hnone : l.filter (fun p => p.1 = st) = [] := by
      apply List.filter_eq_nil_iff.mpr
      intro p hp heq
      have hps : p.1 = st := by simpa using heq
      rcases hsteps p hp with hs | hs
      · rw [hps] at hs
        rcases hst with rfl | rfl <;> simp at hs
      · rw [hps] at hs
        rcases hst with rfl | rfl <;> simp at hs
    simp [ranIn, hl, hnone]
  constructor
  · exact hc.free
  · exact hc.atStep ▸ h.atStep
  · rw [hran .reqHeaders (.inl rfl), hran .reqBody (.inr rfl), hc.completed, hc.index]
    exact h.progress
  · rw [hc.atStep, hc.completed]
    exact h.order

theorem afterCallback_inv {n : ℕ} {s t : Chain} (h : Inv n s) (hc : Completed n s t) (k : ℕ)
    (pending resumes : Bool) {guest : ℕ → Guest} (hg : ∀ i, Answers (guest i)) :
    Inv n (afterCallback t k pending resumes guest).1 ∧
      s.lastCompletedStep ≤ (afterCallback t k pending resumes guest).1.lastCompletedStep := by
  have ht : Inv n t := completed_inv h hc
  rw [← hc.completed]
  rcases afterCallback_cases t k pending resumes guest with ⟨rc, he⟩ | ⟨rc, he⟩ | he
  · rw [he]
    exact ⟨inv_fields ht rfl (.inr rfl) rfl rfl rfl rfl, le_rfl⟩
  · rw [he]
    exact ⟨inv_fields ht rfl (.inl rfl) rfl rfl rfl rfl, le_rfl⟩
  · rw [he]
    have hcont : Inv n { t with action := .cont } := inv_fields ht rfl (.inl rfl) rfl rfl rfl rfl
    have hp : pausable t.phase = true := by
      rw [hc.phase]
      rfl
    obtain ⟨hinv, -, hmono⟩ := resume_inv hcont hp ht.atStep ht.order hg
    exact ⟨hinv, hmono⟩

theorem dispatchResume_inv {n : ℕ} {s : Chain} (h : Inv n s) (k : ℕ) {failed : Bool} {g : Guest}
    (pending : Bool) {guest : ℕ → Guest} (hf : failed = true ∨ g.trapped = false) (hg : Answers g)
    (hguest : ∀ i, Answers (guest i)) :
    Inv n (dispatchResume s k failed g pending guest).1 ∧
      s.lastCompletedStep ≤ (dispatchResume s k failed g pending guest).1.lastCompletedStep := by
  obtain ⟨t, resumes, hc, he⟩ := dispatchResume_completes h.free k pending guest hf hg
  rw [he]
  exact afterCallback_inv h hc k pending resumes hguest

theorem foreignCallback_inv {n : ℕ} {s : Chain} (h : Inv n s) (k : ℕ) {g : Guest} (pending : Bool)
    {guest : ℕ → Guest} (hg : Answers g) (hguest : ∀ i, Answers (guest i)) :
    Inv n (foreignCallback s k g pending guest).1 ∧
      s.lastCompletedStep ≤ (foreignCallback s k g pending guest).1.lastCompletedStep := by
  obtain ⟨t, hc, he⟩ := foreignCallback_completes h.free k pending guest hg
  rw [he]
  exact afterCallback_inv h hc k pending true hguest

/-! ### The run -/

/-- Behind the phase that enters the headers, that step is completed. -/
structure Good (inAccess : Bool) (n : ℕ) (q : Request) : Prop where
  chain : Inv n q.chain
  position : q.position = .rewrite ∨ q.position = .access ∨ q.position = .content
  entered : (q.position = .access → inAccess = false) → q.position ≠ .rewrite →
    1 ≤ q.chain.lastCompletedStep ∨ n = 0

theorem onChain_good {inAccess : Bool} {n : ℕ} {q : Request} (h : Good inAccess n q)
    {r : Chain × Rc} (hr : Inv n r.1) (hl : q.chain.lastCompletedStep ≤ r.1.lastCompletedStep) :
    Good inAccess n (onChain q r).1 :=
  ⟨hr, h.position, fun h1 h2 => (h.entered h1 h2).imp_left fun hle => hle.trans hl⟩

/-- The handler either yields, and the request stays in its phase, or leaves it. -/
theorem runPhase_moves {inAccess hasAccess hasBody : Bool} {n : ℕ} {q : Request}
    {guest : ℕ → Guest} (h : Good inAccess n q) {r : Chain × Rc}
    (hr : handler inAccess q.chain q.position hasBody guest = r) (hinv : Inv n r.1)
    (hl : q.chain.lastCompletedStep ≤ r.1.lastCompletedStep)
    (hrc : r.2 = .again ∨ r.2 = .ok ∧ Good inAccess n ⟨r.1, nextPosition hasAccess q.position⟩) :
    Good inAccess n (runPhase inAccess hasAccess q hasBody guest).1 := by
  simp only [runPhase, hr]
  rcases hrc with hag | ⟨hok, hgood⟩
  · simp only [hag]
    exact onChain_good h hinv hl
  · simp only [hok]
    exact hgood

/-- The phase that enters the headers is only left when they are completed. -/
theorem runPhase_headers {inAccess hasAccess hasBody : Bool} {n : ℕ} {q : Request}
    {guest : ℕ → Guest} (h : Good inAccess n q) (hp : pausable q.position = true)
    (hr : handler inAccess q.chain q.position hasBody guest =
      resume { q.chain with phase := q.position } .reqHeaders guest)
    (hnext : nextPosition hasAccess q.position = .access ∨
      nextPosition hasAccess q.position = .content) (hg : ∀ i, Answers (guest i)) :
    Good inAccess n (runPhase inAccess hasAccess q hasBody guest).1 := by
  have hphase : Inv n { q.chain with phase := q.position } :=
    inv_fields h.chain rfl h.chain.free.action rfl rfl rfl rfl
  obtain ⟨hinv, hrc, hl⟩ := resume_inv hphase hp (.inl rfl) (by simp) hg
  apply runPhase_moves h hr hinv hl
  exact hrc.imp_right fun hok => ⟨hok.1, hinv, .inr hnext, fun _ _ => hok.2⟩

theorem runPhase_good {inAccess hasAccess : Bool} (hcfg : inAccess = true → hasAccess = true)
    {n : ℕ} {q : Request} (h : Good inAccess n q) (hasBody : Bool) {guest : ℕ → Guest}
    (hg : ∀ i, Answers (guest i)) :
    Good inAccess n (runPhase inAccess hasAccess q hasBody guest).1 := by
  obtain ⟨s, p⟩ := q
  have hphase : Inv n { s with phase := p } :=
    inv_fields h.chain rfl h.chain.free.action rfl rfl rfl rfl
  rcases h.position with hq | hq | hq
  · change p = .rewrite at hq
    subst hq
    cases inAccess with
    | false =>
      apply runPhase_headers h rfl rfl _ hg
      cases hasAccess with
      | true => exact .inl rfl
      | false => exact .inr rfl
    | true =>
      have hnext : nextPosition hasAccess .rewrite = .access := by
        rw [hcfg rfl]
        rfl
      apply runPhase_moves h rfl hphase le_rfl
      refine .inr ⟨rfl, hphase, .inr (.inl hnext), fun hacc => ?_⟩
      exact absurd (hacc hnext) (by decide)
  · change p = .access at hq
    subst hq
    cases inAccess with
    | true => exact runPhase_headers h rfl rfl (.inr rfl) hg
    | false =>
      apply runPhase_moves h rfl hphase le_rfl
      exact .inr ⟨rfl, hphase, .inr (.inr rfl), fun _ _ => h.entered (fun _ => rfl) (by simp)⟩
  · change p = .content at hq
    subst hq
    have hone : 1 ≤ s.lastCompletedStep ∨ n = 0 := h.entered (by simp) (by simp)
    cases hasBody with
    | true =>
      obtain ⟨hinv, hrc, hl⟩ := resume_inv hphase rfl (.inr rfl) (fun _ => hone) hg
      have hr : handler inAccess s .content true guest =
        resume { s with phase := .content } .reqBody guest := rfl
      apply runPhase_moves h hr hinv hl
      exact hrc.imp_right fun hok => ⟨hok.1, hinv, .inr (.inr rfl), fun _ _ => hok.2⟩
    | false =>
      have hr : handler inAccess s .content false guest = ({ s with phase := .content }, .ok) := rfl
      apply runPhase_moves h hr hphase le_rfl
      exact .inr ⟨rfl, hphase, .inr (.inr rfl), fun _ _ => hone⟩

theorem step_good {inAccess hasAccess : Bool} (hcfg : inAccess = true → hasAccess = true) {n : ℕ}
    {q : Request} {c : Input} (h : Good inAccess n q) (hc : AllAnswer c) :
    Good inAccess n (step inAccess hasAccess q c).1 := by
  cases c with
  | phase hasBody guest => exact runPhase_good hcfg h hasBody hc
  | resumeHttpRequest => exact h
  | dispatching k =>
    exact onChain_good h (inv_fields h.chain rfl (.inr rfl) rfl rfl rfl rfl) le_rfl
  | dispatched k failed g pending guest =>
    obtain ⟨hf, hg, hguest⟩ := hc
    obtain ⟨hinv, hl⟩ := dispatchResume_inv h.chain k pending hf hg hguest
    exact onChain_good h hinv hl
  | foreign k g pending guest =>
    obtain ⟨hg, hguest⟩ := hc
    obtain ⟨hinv, hl⟩ := foreignCallback_inv h.chain k pending hg hguest
    exact onChain_good h hinv hl

theorem newRequest_good (inAccess : Bool) {pwexecs : List Exec} (h : ∀ e ∈ pwexecs, e.ecode = none) :
    Good inAccess pwexecs.length (newRequest pwexecs) := by
  have hfree : Free pwexecs.length (newChain pwexecs) := by
    refine ⟨rfl, ?_, .inl rfl⟩
    funext i
    show pwexecs[i]?.bind Exec.ecode = none
    cases hget : pwexecs[i]? with
    | none => rfl
    | some e => exact h e (List.mem_of_getElem? hget)
  have hinv : Inv pwexecs.length (newChain pwexecs) :=
    ⟨hfree, .inl rfl, .headers 0 (.inl rfl), by simp [newChain]⟩
  exact ⟨hinv, .inl rfl, fun _ hne => absurd rfl hne⟩

theorem progress_inOrder {n : ℕ} {s : Chain} (h : Inv n s) {step : Step} (hs : IsRequest step) :
    RanInOrder n step s := by
  have hprog := h.progress
  generalize hH : ranIn .reqHeaders s = H at hprog
  generalize hB : ranIn .reqBody s = B at hprog
  unfold RanInOrder
  generalize s.lastCompletedStep = L at hprog
  generalize s.execIndex = X at hprog
  rcases hs with rfl | rfl
  · cases hprog with
    | headers x hx => exact ⟨X, by omega, hH, by simp [Step.toNat]⟩
    | body x hx => exact ⟨n, le_rfl, hH, fun _ => rfl⟩
    | finished => exact ⟨n, le_rfl, hH, fun _ => rfl⟩
  · cases hprog with
    | headers x hx => exact ⟨0, Nat.zero_le n, hB, by simp [Step.toNat]⟩
    | body x hx => exact ⟨X, by omega, hB, by simp [Step.toNat]⟩
    | finished => exact ⟨n, le_rfl, hB, fun _ => rfl⟩

/-- The last of two filters pauses in both steps; the first time its call is
answered, the second time it only asks to go on. -/
def pausedInputs : List Input :=
  [.phase true fun i => returns (if i = 1 then .pause else .cont), .dispatching 1,
    .dispatched 1 false (returns .cont) false fun _ => returns .cont,
    .phase true fun _ => returns .cont, .phase true fun _ => returns .cont,
    .phase true fun i => returns (if i = 1 then .pause else .cont), .resumeHttpRequest,
    .phase true fun _ => returns .cont]

end NgxWasm.ProxyWasm.RequestSteps
