import NgxWasm.Lib.Run
import NgxWasm.ProxyWasm.ResumeCallback
import NgxWasm.ProxyWasm.ResumeEnd
import NgxWasm.ProxyWasm.ResumeSweep

/-!
# Upstream steps and the steps of the main request (ngx_http_wasm_upstream.c 378-401)

`ngx_proxy_wasm_upstream_resume` runs `on_upstream_select`, `on_next_upstream` and
`on_upstream_info` through the chain of the request. It puts `step` and `last_completed_step`
back; the phase, the index and the action are what the loop leaves.
-/

namespace NgxWasm.ProxyWasm.UpstreamFrame

open NgxWasm NgxWasm.Lib
open NgxWasm.ProxyWasm.Resume NgxWasm.ProxyWasm.ResumeIndex NgxWasm.ProxyWasm.ResumeEntry
open NgxWasm.ProxyWasm.ResumeCallback (runStep_frame)
open NgxWasm.ProxyWasm.ResumeSweep

/-! ### What comes back -/

/-- The steps that `ngx_proxy_wasm_upstream_resume` is called with. -/
inductive Upstream where
  | select
  | next
  | info
  deriving Repr, DecidableEq

def Upstream.step : Upstream → Step
  | .select => .upstreamSelect
  | .next => .nextUpstream
  | .info => .upstreamInfo

structure Restored (s t : Chain) : Prop where
  step : t.step = s.step
  lastCompletedStep : t.lastCompletedStep = s.lastCompletedStep
  execIndex : t.execIndex = s.execIndex
  action : t.action = s.action
  phase : t.phase = s.phase

/-- The callbacks of a run of calls. -/
def callbacks (s : Chain) (calls : List Call) : List (Step × ℕ) :=
  (ran (Run.exec callStep s calls).1).drop (ran s).length

/-- Whatever comes next runs the same filters. -/
def SameFilters (s t : Chain) : Prop := ∀ calls, callbacks t calls = callbacks s calls

/-- The loop is not entered, or left by the first check of a filter. -/
def Untouched (s : Chain) : Prop :=
  s.nfilters ≤ s.execIndex ∨ ecodeAt s s.execIndex ≠ none ∨ s.action = .pause

/-- The callback ends without an error and without a `DONE`. -/
def Passes (s : Chain) (guest : ℕ → Guest) (i : ℕ) : Prop :=
  ecodeAt s i = none ∧ Restores (guest i) ∧ (guest i).rc = .ok ∧ (guest i).host ≠ some .done

/-- Every filter of the chain is run from the first one on. -/
def Completes (s : Chain) (guest : ℕ → Guest) : Prop :=
  s.action = .cont ∧ s.execIndex = 0 ∧ ∀ i < s.nfilters, Passes s guest i

/-! ### Chains that go on alike -/

structure Alike (s t : Chain) : Prop where
  size : t.nfilters = s.nfilters
  ecodes : ecodeAt t = ecodeAt s
  execIndex : t.execIndex = s.execIndex
  action : t.action = s.action
  step : t.step = s.step
  lastCompletedStep : t.lastCompletedStep = s.lastCompletedStep
  phase : t.phase = s.phase
  buffering : t.respBuffering = s.respBuffering

theorem Alike.refl (s : Chain) : Alike s s := ⟨rfl, rfl, rfl, rfl, rfl, rfl, rfl, rfl⟩

theorem Alike.symm {s t : Chain} (h : Alike s t) : Alike t s :=
  ⟨h.size.symm, h.ecodes.symm, h.execIndex.symm, h.action.symm, h.step.symm,
    h.lastCompletedStep.symm, h.phase.symm, h.buffering.symm⟩

theorem Alike.trans {s t u : Chain} (h : Alike s t) (h' : Alike t u) : Alike s u :=
  ⟨h'.size.trans h.size, h'.ecodes.trans h.ecodes, h'.execIndex.trans h.execIndex,
    h'.action.trans h.action, h'.step.trans h.step,
    h'.lastCompletedStep.trans h.lastCompletedStep, h'.phase.trans h.phase,
    h'.buffering.trans h.buffering⟩

theorem Alike.restored {s t : Chain} (h : Alike s t) : Restored s t :=
  ⟨h.step, h.lastCompletedStep, h.execIndex, h.action, h.phase⟩

theorem alike_setLogged (s : Chain) (i : ℕ) : Alike s (setLogged s i) :=
  ⟨setLogged_nfilters s i, funext fun j => ecodeAt_setLogged s i j, rfl, rfl, rfl, rfl, rfl, rfl⟩

theorem alike_setIctx (s : Chain) (i ictx : ℕ) : Alike s (setIctx s i ictx) :=
  ⟨setIctx_nfilters s i ictx, funext fun j => ecodeAt_setIctx s i j ictx, rfl, rfl, rfl, rfl, rfl,
    rfl⟩

/-- The trace and `pausedBy` are not looked at. -/
theorem alike_record (s : Chain) (p : Option ℕ) (l : List Event) :
    Alike s { s with pausedBy := p, trace := l } :=
  ⟨rfl, rfl, rfl, rfl, rfl, rfl, rfl, rfl⟩

theorem Alike.setEcode {s t : Chain} (h : Alike s t) (i : ℕ) (e : Option Err) :
    Alike (Resume.setEcode s i e) (Resume.setEcode t i e) := by
  refine ⟨?_, ?_, h.execIndex, h.action, h.step, h.lastCompletedStep, h.phase, h.buffering⟩
  · rw [setEcode_nfilters, setEcode_nfilters, h.size]
  · funext j
    rw [ecodeAt_setEcode, ecodeAt_setEcode, h.size, h.ecodes]

/-- Two chains that are alike after the same callbacks, on top of those of two others. -/
structure Beside (s t s' t' : Chain) : Prop where
  alike : Alike s' t'
  more : ∃ l, ran s' = ran s ++ l ∧ ran t' = ran t ++ l

theorem Beside.of_silent {s t s' t' : Chain} (h : Alike s' t') (hs : ran s' = ran s)
    (ht : ran t' = ran t) : Beside s t s' t' :=
  ⟨h, [], by rw [hs, List.append_nil], by rw [ht, List.append_nil]⟩

theorem Beside.trans {s t s' t' s'' t'' : Chain} (h : Beside s t s' t')
    (h' : Beside s' t' s'' t'') : Beside s t s'' t'' := by
  obtain ⟨l, hs, ht⟩ := h.more
  obtain ⟨l', hs', ht'⟩ := h'.more
  refine ⟨h'.alike, l ++ l', ?_, ?_⟩
  · rw [hs', hs, List.append_assoc]
  · rw [ht', ht, List.append_assoc]

theorem alike_entry {s t : Chain} (h : Alike s t) {i : ℕ} {e : Exec}
    (he : s.pwexecs[i]? = some e) : ∃ e', t.pwexecs[i]? = some e' ∧ e'.ecode = e.ecode := by
  have hi : i < s.nfilters := (List.getElem?_eq_some_iff.mp he).1
  obtain ⟨e', he', hcode⟩ := exists_entry (s := t) (h.size ▸ hi)
  refine ⟨e', he', ?_⟩
  rw [hcode, h.ecodes, ecodeAt, he]
  rfl

theorem alike_missing {s t : Chain} (h : Alike s t) {i : ℕ} (hi : s.pwexecs[i]? = none) :
    t.pwexecs[i]? = none := by
  have hsize : t.pwexecs.length = s.pwexecs.length := h.size
  rw [List.getElem?_eq_none_iff] at hi ⊢
  omega

theorem badReturn_beside {s t : Chain} (h : Alike s t) :
    Beside s t (badReturnAction s) (badReturnAction t) := by
  refine Beside.of_silent ?_ (by simp [ran, badReturnAction, ranOf, setEcode])
    (by simp [ran, badReturnAction, ranOf, setEcode])
  refine ⟨?_, ?_, h.execIndex, h.action, h.step, h.lastCompletedStep, h.phase, h.buffering⟩
  · show (setEcode t t.execIndex _).nfilters = (setEcode s s.execIndex _).nfilters
    rw [setEcode_nfilters, setEcode_nfilters, h.size]
  · show ecodeAt (setEcode t t.execIndex _) = ecodeAt (setEcode s s.execIndex _)
    rw [h.execIndex]
    exact (h.setEcode s.execIndex _).ecodes

theorem action2rc_bad {s : Chain} {i : ℕ} (hi : i < s.nfilters) (he : ecodeAt s i = none)
    (hs : s.step ≠ .done) (ha : s.action = .pause) (hp : pausable s.phase = false) :
    action2rc s i = (badReturnAction s, .error) := by
  obtain ⟨e, hget, hec⟩ := exists_entry hi
  rw [he] at hec
  simp [action2rc, hget, hec, hs, ha, hp]

theorem action2rc_nyi {s : Chain} {i : ℕ} (hi : i < s.nfilters) (he : ecodeAt s i = none)
    (hs : s.step ≠ .done) (ha : nyiAction s.action = true) :
    action2rc s i = (setEcode s i (some .unknown), .error) := by
  obtain ⟨e, hget, hec⟩ := exists_entry hi
  rw [he] at hec
  simp only [action2rc, hget, hec, Option.isSome_none, Bool.false_eq_true, if_false, if_neg hs]
  cases hact : s.action <;> first | rfl | exact absurd ha (by rw [hact]; decide)

theorem action2rc_beside {s t : Chain} (h : Alike s t) (i : ℕ) :
    Beside s t (action2rc s i).1 (action2rc t i).1 ∧ (action2rc t i).2 = (action2rc s i).2 := by
  by_cases hi : i < s.nfilters
  · have hti : i < t.nfilters := h.size ▸ hi
    by_cases he : ecodeAt s i = none
    · have hte : ecodeAt t i = none := h.ecodes ▸ he
      obtain ⟨hsdone, hscont, hsfin, hspause⟩ := action2rc_free hi he
      obtain ⟨htdone, htcont, htfin, htpause⟩ := action2rc_free hti hte
      by_cases hdone : s.step = .done
      · rw [hsdone hdone, htdone (h.step.trans hdone)]
        exact ⟨Beside.of_silent h rfl rfl, rfl⟩
      · have hdone' : t.step ≠ .done := h.step ▸ hdone
        cases hact : s.action with
        | cont =>
          rw [hscont hdone hact, htcont hdone' (h.action.trans hact)]
          exact ⟨Beside.of_silent h rfl rfl, rfl⟩
        | done =>
          rw [hsfin hdone hact, htfin hdone' (h.action.trans hact)]
          refine ⟨Beside.of_silent ?_ rfl rfl, rfl⟩
          exact ⟨h.size, h.ecodes, h.execIndex, rfl, h.step, h.lastCompletedStep, h.phase, h.buffering⟩
        | pause =>
          cases hp : pausable s.phase with
          | true =>
            rw [hspause hdone hact hp, htpause hdone' (h.action.trans hact) (h.phase ▸ hp)]
            refine ⟨Beside.of_silent ?_ rfl rfl, rfl⟩
            refine ⟨h.size, h.ecodes, h.execIndex, h.action, h.step, h.lastCompletedStep, h.phase, ?_⟩
            show (t.respBuffering || decide (t.phase = .bodyFilter)) = _
            rw [h.buffering, h.phase]
          | false =>
            rw [action2rc_bad hi he hdone hact hp,
              action2rc_bad hti hte hdone' (h.action.trans hact) (h.phase ▸ hp)]
            exact ⟨badReturn_beside h, rfl⟩
        | endStream | wait | waitFull | close | other n =>
          have hnyi : nyiAction s.action = true := by rw [hact]; rfl
          rw [action2rc_nyi hi he hdone hnyi,
            action2rc_nyi hti hte hdone' (h.action ▸ hnyi)]
          exact ⟨Beside.of_silent (h.setEcode i _) rfl rfl, rfl⟩
    · obtain ⟨s', hs, hs'⟩ := action2rc_errored hi he
      obtain ⟨t', ht, ht'⟩ := action2rc_errored hti (h.ecodes ▸ he)
      have hlogged {u u' : Chain} (hu : u' = u ∨ u' = setLogged u i) : Alike u u' ∧ ran u' = ran u := by
        rcases hu with rfl | rfl
        · exact ⟨Alike.refl _, rfl⟩
        · exact ⟨alike_setLogged u i, rfl⟩
      obtain ⟨hsa, hsr⟩ := hlogged hs'
      obtain ⟨hta, htr⟩ := hlogged ht'
      rw [hs, ht]
      exact ⟨Beside.of_silent ((hsa.symm.trans h).trans hta) hsr htr, rfl⟩
  · have hs : s.pwexecs[i]? = none := List.getElem?_eq_none_iff.mpr (not_lt.mp hi)
    simp only [action2rc, hs, alike_missing h hs]
    exact ⟨Beside.of_silent h rfl rfl, trivial⟩

/-- The callback of an entry on instances that may differ. -/
theorem alike_called {s t : Chain} (h : Alike s t) (i : ℕ) (step : Step) (a : Action)
    (ictx ictx' : ℕ) (p p' : Option ℕ) (l l' : List Event) :
    Alike { setIctx { s with step := step, action := a } i ictx with pausedBy := p, trace := l }
      { setIctx { t with step := step, action := a } i ictx' with pausedBy := p', trace := l' } := by
  refine ⟨?_, ?_, h.execIndex, rfl, rfl, h.lastCompletedStep, h.phase, h.buffering⟩
  · show (setIctx t i ictx').nfilters = (setIctx s i ictx).nfilters
    rw [setIctx_nfilters, setIctx_nfilters, h.size]
  · show ecodeAt (setIctx t i ictx') = ecodeAt (setIctx s i ictx)
    funext j
    rw [ecodeAt_setIctx, ecodeAt_setIctx, h.ecodes]

theorem createFailed_beside {s t : Chain} (h : Alike s t) (i ictx : ℕ) (e : CreatePoint × Err) :
    Beside s t (createFailed s i ictx e) (createFailed t i ictx e) := by
  have hictx : Alike (setIctx s i ictx) (setIctx t i ictx) :=
    ((alike_setIctx s i ictx).symm.trans h).trans (alike_setIctx t i ictx)
  obtain ⟨point, e⟩ := e
  cases point with
  | root => exact Beside.of_silent h rfl rfl
  | log => exact Beside.of_silent (hictx.setEcode i _) rfl rfl
  | context =>
    have hset := hictx.setEcode i (some e)
    refine Beside.of_silent ?_ (by simp [ran, createFailed, ranOf, setEcode, setIctx])
      (by simp [ran, createFailed, ranOf, setEcode, setIctx])
    exact ⟨hset.size, hset.ecodes, hset.execIndex, hset.action, hset.step, hset.lastCompletedStep,
      hset.phase, hset.buffering⟩

theorem runStep_beside {s t : Chain} (h : Alike s t) (i : ℕ) (step : Step) (g : Guest) :
    Beside s t (runStep s i step g).1 (runStep t i step g).1 ∧
      (runStep t i step g).2 = (runStep s i step g).2 := by
  unfold runStep
  cases he : s.pwexecs[i]? with
  | none =>
    rw [alike_missing h he]
    exact ⟨Beside.of_silent h rfl rfl, rfl⟩
  | some e =>
    obtain ⟨e', he', hcode⟩ := alike_entry h he
    rw [he']
    dsimp only
    split
    · exact ⟨createFailed_beside h i g.ictx _, rfl⟩
    · rw [h.action]
      have hcalled := alike_called h i step (nextAction step s.action g)
      split
      · refine ⟨⟨hcalled _ _ _ _ _ _, [(step, i)], ?_, ?_⟩, hcode⟩
        · simp [ran, ranOf, setIctx]
        · simp [ran, ranOf, setIctx]
      · refine ⟨⟨(hcalled _ _ _ _ _ _).setEcode i _, [(step, i)], ?_, ?_⟩, rfl⟩
        · simp [ran, ranOf, setIctx, setEcode]
        · simp [ran, ranOf, setIctx, setEcode]

/-! ### Whole calls -/

/-- `exec_index` is moved on. -/
def advances (step : Step) : Action → Bool
  | .cont => true
  | .done => true
  | .pause => decide (step ≠ .respBody)
  | _ => false

theorem advance_if (step : Step) (s : Chain) :
    advance step s =
      if advances step s.action = true then { s with execIndex := s.execIndex + 1 } else s := by
  obtain ⟨pwexecs, execIndex, action, st, completed, phase, buffering, pausedBy, trace⟩ := s
  cases action <;> simp [advance, advances]

theorem advance_alike {s t : Chain} (h : Alike s t) (step : Step) :
    Alike (advance step s) (advance step t) := by
  rw [advance_if, advance_if]
  by_cases hadv : advances step s.action = true
  · have hadv' : advances step t.action = true := h.action ▸ hadv
    rw [if_pos hadv, if_pos hadv']
    exact ⟨h.size, h.ecodes, congrArg (· + 1) h.execIndex, h.action, h.step, h.lastCompletedStep,
      h.phase, h.buffering⟩
  · have hadv' : ¬ advances step t.action = true := h.action ▸ hadv
    rw [if_neg hadv, if_neg hadv']
    exact h

theorem advance_ran (step : Step) (s : Chain) : ran (advance step s) = ran s := by
  rcases advance_eq step s with he | he <;> rw [he]
  rfl

theorem nextStep_alike {s t : Chain} (h : Alike s t) : Alike (nextStep s) (nextStep t) := by
  unfold nextStep
  rw [h.size, h.execIndex]
  split
  · exact ⟨h.size, h.ecodes, rfl, h.action, h.step, congrArg Step.toNat h.step, h.phase, h.buffering⟩
  · exact h

theorem nextStep_ran (s : Chain) : ran (nextStep s) = ran s := by
  unfold nextStep
  split <;> rfl

/-- By induction on the filters that are left; every check and every callback is made beside. -/
theorem resumeLoop_beside (step : Step) (guest : ℕ → Guest) (k : ℕ) :
    ∀ (i : ℕ) (s t : Chain) (rc : Rc), Alike s t →
      Beside s t (resumeLoop step guest k i s rc).1 (resumeLoop step guest k i t rc).1 ∧
        (resumeLoop step guest k i t rc).2 = (resumeLoop step guest k i s rc).2 := by
  induction k with
  | zero =>
    intro i s t rc h
    exact ⟨Beside.of_silent h rfl rfl, rfl⟩
  | succ k ih =>
    intro i s t rc h
    have haccess : Alike { s with trace := s.trace ++ [.access i] }
        { t with trace := t.trace ++ [.access i] } :=
      ((alike_record s s.pausedBy _).symm.trans h).trans (alike_record t t.pausedBy _)
    have hsilent := Beside.of_silent haccess (ran_access s i) (ran_access t i)
    obtain ⟨hcheck, hrc⟩ := action2rc_beside haccess i
    have hchecked := hsilent.trans hcheck
    simp only [resumeLoop]
    rw [hrc]
    split
    · exact ⟨hchecked, hrc⟩
    · split
      · exact ⟨hchecked, hrc⟩
      · obtain ⟨hrun, hcode⟩ := runStep_beside hcheck.alike i step (guest i)
        rw [hcode]
        have hcoded := hrun.alike.setEcode i
          (runStep (action2rc { s with trace := s.trace ++ [.access i] } i).1 i step (guest i)).2
        have hset := (hchecked.trans hrun).trans (Beside.of_silent hcoded rfl rfl)
        split
        · exact ⟨hset, rfl⟩
        · have hadv := Beside.of_silent (advance_alike hset.alike step) (advance_ran step _)
            (advance_ran step _)
          obtain ⟨hlast, hrc'⟩ := action2rc_beside hadv.alike i
          have hall := (hset.trans hadv).trans hlast
          rw [hrc']
          split
          · exact ⟨hall, hrc'⟩
          · have hnext := Beside.of_silent (nextStep_alike hlast.alike) (nextStep_ran _) (nextStep_ran _)
            obtain ⟨hrest, hrest'⟩ := ih (i + 1) _ _ _ hnext.alike
            exact ⟨(hall.trans hnext).trans hrest, hrest'⟩

theorem alike_step {s t : Chain} (h : Alike s t) (step : Step) :
    Alike { s with step := step } { t with step := step } :=
  ⟨h.size, h.ecodes, h.execIndex, h.action, rfl, h.lastCompletedStep, h.phase, h.buffering⟩

theorem alike_phase {s t : Chain} (h : Alike s t) (phase : Phase) :
    Alike { s with phase := phase } { t with phase := phase } :=
  ⟨h.size, h.ecodes, h.execIndex, h.action, h.step, h.lastCompletedStep, rfl, h.buffering⟩

theorem alike_action {s t : Chain} (h : Alike s t) (a : Action) (p p' : Option ℕ) :
    Alike { s with action := a, pausedBy := p } { t with action := a, pausedBy := p' } :=
  ⟨h.size, h.ecodes, h.execIndex, rfl, h.step, h.lastCompletedStep, h.phase, h.buffering⟩

theorem enterStep_alike {s t : Chain} (h : Alike s t) (step : Step) :
    (enterStep s step = none ∧ enterStep t step = none) ∨
      ∃ s' t', enterStep s step = some s' ∧ enterStep t step = some t' ∧ Alike s' t' ∧
        ran s' = ran s ∧ ran t' = ran t := by
  have hstep := alike_step h step
  have hguarded : ((if step.toNat ≤ s.lastCompletedStep then none else some { s with step := step }) =
        none ∧
      (if step.toNat ≤ t.lastCompletedStep then none else some { t with step := step }) = none) ∨
      ∃ s' t',
        (if step.toNat ≤ s.lastCompletedStep then none else some { s with step := step }) = some s' ∧
        (if step.toNat ≤ t.lastCompletedStep then none else some { t with step := step }) = some t' ∧
        Alike s' t' ∧ ran s' = ran s ∧ ran t' = ran t := by
    by_cases hdone : step.toNat ≤ s.lastCompletedStep
    · exact .inl ⟨if_pos hdone, if_pos (h.lastCompletedStep ▸ hdone)⟩
    · exact .inr ⟨_, _, if_neg hdone, if_neg (h.lastCompletedStep ▸ hdone), hstep, rfl, rfl⟩
  cases step with
  | respHeaders =>
    right
    by_cases hfirst : s.lastCompletedStep < Step.respHeaders.toNat
    · refine ⟨_, _, congrArg some (if_pos hfirst),
        congrArg some (if_pos (h.lastCompletedStep ▸ hfirst)), ?_, rfl, rfl⟩
      exact ⟨h.size, h.ecodes, rfl, h.action, rfl, h.lastCompletedStep, h.phase, h.buffering⟩
    · exact ⟨_, _, congrArg some (if_neg hfirst),
        congrArg some (if_neg (h.lastCompletedStep ▸ hfirst)), hstep, rfl, rfl⟩
  | reqHeaders | reqBody | reqTrailers | respTrailers | log | foreignCallback => exact hguarded
  | done | respBody | tick | dispatchResponse | upstreamSelect | nextUpstream | upstreamInfo =>
    exact .inr ⟨_, _, rfl, rfl, hstep, rfl, rfl⟩

theorem resume_beside {s t : Chain} (h : Alike s t) (step : Step) (guest : ℕ → Guest) :
    Beside s t (resume s step guest).1 (resume t step guest).1 ∧
      (resume t step guest).2 = (resume s step guest).2 := by
  unfold resume
  rcases enterStep_alike h step with ⟨hs, ht⟩ | ⟨s', t', hs, ht, halike, hrs, hrt⟩
  · rw [hs, ht]
    exact ⟨Beside.of_silent (alike_step h step) rfl rfl, rfl⟩
  · rw [hs, ht]
    dsimp only
    rw [halike.size, halike.execIndex]
    obtain ⟨hloop, hrc⟩ := resumeLoop_beside step guest (s'.nfilters - s'.execIndex) s'.execIndex
      s' t' .ok halike
    exact ⟨(Beside.of_silent halike hrs hrt).trans hloop, hrc⟩

theorem opHandler_beside {s t : Chain} (h : Alike s t) (phase : Phase) (guest : ℕ → Guest) :
    Beside s t (opHandler s phase guest).1 (opHandler t phase guest).1 := by
  have hphase : Beside s t { s with phase := phase } { t with phase := phase } :=
    Beside.of_silent (alike_phase h phase) rfl rfl
  unfold opHandler
  cases phaseStep phase with
  | none => exact hphase
  | some step => exact hphase.trans (resume_beside (alike_phase h phase) step guest).1

theorem afterCallback_beside {s t : Chain} (h : Alike s t) (k : ℕ) (pending resumes : Bool)
    (guest : ℕ → Guest) :
    Beside s t (afterCallback s k pending resumes guest).1
      (afterCallback t k pending resumes guest).1 := by
  have hpause : Beside s t { s with action := .pause, pausedBy := some k }
      { t with action := .pause, pausedBy := some k } :=
    Beside.of_silent (alike_action h .pause _ _) rfl rfl
  have hcont : Beside s t { s with action := .cont } { t with action := .cont } :=
    Beside.of_silent (alike_action h .cont s.pausedBy t.pausedBy) rfl rfl
  have hresume : Beside s t (resume { s with action := .cont } s.step guest).1
      (resume { t with action := .cont } t.step guest).1 := by
    have hsame : (resume { t with action := .cont } t.step guest).1 =
        (resume { t with action := .cont } s.step guest).1 := by
      congr 2
      exact h.step
    rw [hsame]
    exact hcont.trans (resume_beside hcont.alike s.step guest).1
  cases pending with
  | true => exact hpause
  | false =>
    cases resumes with
    | true => exact hresume
    | false => exact hcont

/-- A callback in the background phase, and what comes after it. -/
theorem background_beside {s t : Chain} (h : Alike s t) (k : ℕ) (step : Step) (g : Guest)
    (keeps : Option Err → Bool) (pending : Bool) (resumes : Option Err → Bool)
    (guest : ℕ → Guest) (st st' : Step) (hst : st' = st) :
    let after := fun (u : Chain) (was : Step) =>
      let r := runStep { u with phase := .background } k step g
      (afterCallback (if keeps r.2 then r.1 else { r.1 with step := was }) k pending (resumes r.2)
        guest).1
    Beside s t (after s st) (after t st') := by
  obtain ⟨hrun, hcode⟩ := runStep_beside (alike_phase h .background) k step g
  have hphase : Beside s t { s with phase := .background } { t with phase := .background } :=
    Beside.of_silent (alike_phase h .background) rfl rfl
  have hran := hphase.trans hrun
  intro after
  simp only [after, hcode, hst]
  split
  · exact hran.trans (afterCallback_beside hran.alike k pending _ guest)
  · have hback : Beside s t
        { (runStep { s with phase := .background } k step g).1 with step := st }
        { (runStep { t with phase := .background } k step g).1 with step := st } :=
      hran.trans (Beside.of_silent (alike_step hran.alike st) rfl rfl)
    exact hback.trans (afterCallback_beside hback.alike k pending _ guest)

theorem dispatchResume_beside {s t : Chain} (h : Alike s t) (k : ℕ) (failed : Bool) (g : Guest)
    (pending : Bool) (guest : ℕ → Guest) :
    Beside s t (dispatchResume s k failed g pending guest).1
      (dispatchResume t k failed g pending guest).1 := by
  have hcharged : Beside s t
      (if g.trapped && !failed then setEcode s k (some .instanceTrapped) else s)
      (if g.trapped && !failed then setEcode t k (some .instanceTrapped) else t) := by
    split
    · exact Beside.of_silent (h.setEcode k _) rfl rfl
    · exact Beside.of_silent h rfl rfl
  exact hcharged.trans (background_beside hcharged.alike k .dispatchResponse g (·.isSome) pending
    (fun e => !(failed || g.trapped || e.isSome)) guest _ _ hcharged.alike.step)

theorem foreignCallback_beside {s t : Chain} (h : Alike s t) (k : ℕ) (g : Guest) (pending : Bool)
    (guest : ℕ → Guest) :
    Beside s t (foreignCallback s k g pending guest).1 (foreignCallback t k g pending guest).1 :=
  background_beside h k .foreignCallback g (fun _ => false) pending (fun _ => true) guest _ _ h.step

theorem upstreamResume_beside {s t : Chain} (h : Alike s t) (step : Step) (guest : ℕ → Guest) :
    Beside s t (upstreamResume s step guest).1 (upstreamResume t step guest).1 := by
  have hphase : Beside s t { s with phase := .background } { t with phase := .background } :=
    Beside.of_silent (alike_phase h .background) rfl rfl
  have hrun := hphase.trans (resume_beside hphase.alike step guest).1
  obtain ⟨halike, hmore⟩ := hrun
  exact ⟨⟨halike.size, halike.ecodes, halike.execIndex, halike.action, h.step, h.lastCompletedStep,
    halike.phase, halike.buffering⟩, hmore⟩

theorem callStep_beside {s t : Chain} (h : Alike s t) (c : Call) :
    Beside s t (callStep s c).1 (callStep t c).1 := by
  cases c with
  | handler phase guest => exact opHandler_beside h phase guest
  | bodyFilter guest =>
    have hcont : Beside s t { s with action := .cont } { t with action := .cont } :=
      Beside.of_silent (alike_action h .cont s.pausedBy t.pausedBy) rfl rfl
    have hrun := hcont.trans (opHandler_beside hcont.alike .bodyFilter guest)
    simp only [callStep, bodyFilterResume]
    by_cases hbuf : s.respBuffering = true
    · rw [if_pos hbuf, if_pos (h.buffering.trans hbuf)]
      exact Beside.of_silent h rfl rfl
    · rw [if_neg hbuf, if_neg (h.buffering ▸ hbuf)]
      exact hrun
  | buffered =>
    refine Beside.of_silent ?_ rfl rfl
    exact ⟨h.size, h.ecodes, h.execIndex, h.action, h.step, h.lastCompletedStep, h.phase, rfl⟩
  | upstream step guest => exact upstreamResume_beside h step guest
  | dispatching k => exact Beside.of_silent (alike_action h .pause _ _) rfl rfl
  | dispatched k failed g pending guest => exact dispatchResume_beside h k failed g pending guest
  | «foreign» k g pending guest => exact foreignCallback_beside h k g pending guest

/-- Chains that are alike run the same filters from there on. -/
theorem exec_beside (calls : List Call) :
    ∀ s t : Chain, Alike s t →
      Beside s t (Run.exec callStep s calls).1 (Run.exec callStep t calls).1 := by
  induction calls with
  | nil => exact fun s t h => Beside.of_silent h rfl rfl
  | cons c calls ih =>
    intro s t h
    have hstep := callStep_beside h c
    exact hstep.trans (ih _ _ hstep.alike)

theorem Alike.sameFilters {s t : Chain} (h : Alike s t) : SameFilters s t := by
  intro calls
  obtain ⟨l, hs, ht⟩ := (exec_beside calls s t h).more
  rw [callbacks, callbacks, hs, ht, List.drop_left, List.drop_left]

/-! ### One filter of an upstream step -/

theorem upstream_returned (u : Upstream) (old : Action) (g : Guest) :
    returnedAction u.step old g = old := by
  cases u <;> rfl

theorem upstream_rc (u : Upstream) (g : Guest) : stepRc u.step g = g.rc := by
  cases u <;> rfl

theorem upstream_not_done (u : Upstream) : u.step ≠ .done := by
  cases u <;> decide

/-- The action that a host call wrote is dropped unless it is `DONE`. -/
theorem upstream_action (u : Upstream) (g : Guest) :
    nextAction u.step .cont g = if g.host = some .done then .done else .cont := by
  unfold nextAction
  rw [upstream_returned]
  by_cases hdone : g.host = some .done
  · rw [if_pos hdone, hdone]
    rfl
  · rw [if_neg hdone]
    have hcur : ¬ (g.host.getD .cont ≠ .cont ∧ g.host.getD .cont = .done) := by
      intro ⟨_, hcur⟩
      cases hhost : g.host with
      | none =>
        rw [hhost] at hcur
        exact absurd hcur (by decide)
      | some a =>
        rw [hhost] at hcur hdone
        exact hdone (congrArg some hcur)
    exact if_neg hcur

theorem runStep_phase (s : Chain) (i : ℕ) (step : Step) (g : Guest) :
    (runStep s i step g).1.phase = s.phase := by
  unfold runStep
  cases s.pwexecs[i]? with
  | none => rfl
  | some e =>
    dsimp only
    split
    · rename_i failure _ _
      obtain ⟨point, e⟩ := failure
      cases point <;> rfl
    · split <;> rfl

/-- With a `DONE` of a host call the result of the callback is not looked at. -/
theorem runStep_finishes {s : Chain} {i : ℕ} (u : Upstream) {g : Guest} (ha : s.action = .cont)
    (hd : g.host = some .done) :
    runStep s i u.step g = runStep s i u.step { g with rc := .ok } := by
  have hnext : nextAction u.step s.action { g with rc := .ok } = nextAction u.step s.action g := by
    rw [ha, upstream_action, upstream_action]
  have hover : g.host.getD s.action ≠ returnedAction u.step s.action g ∧
      g.host.getD s.action = .done := by
    rw [upstream_returned, ha, hd]
    exact ⟨by decide, rfl⟩
  have hover' : g.host.getD s.action ≠ returnedAction u.step s.action { g with rc := .ok } ∧
      g.host.getD s.action = .done := by
    rw [upstream_returned, ha, hd]
    exact ⟨by decide, rfl⟩
  unfold runStep
  simp only [hnext, if_pos hover, if_pos hover']

theorem runStep_fails {s : Chain} {i : ℕ} (u : Upstream) {g : Guest} (hi : i < s.nfilters)
    (ha : s.action = .cont) (hbad : ¬ Restores g ∨ g.host ≠ some .done ∧ g.rc ≠ .ok) :
    ∃ t e, runStep s i u.step g = (t, some e) := by
  by_cases hg : Restores g
  · obtain ⟨hd, hrc⟩ := hbad.resolve_left (fun hno => hno hg)
    obtain ⟨e, hget, -⟩ := exists_entry hi
    have hover : ¬ (g.host.getD s.action ≠ returnedAction u.step s.action g ∧
        g.host.getD s.action = .done) := by
      rw [upstream_returned, ha]
      intro ⟨_, hcur⟩
      cases hhost : g.host with
      | none =>
        rw [hhost] at hcur
        exact absurd hcur (by decide)
      | some a =>
        rw [hhost] at hcur
        exact hd (hhost.trans (congrArg some hcur))
    unfold runStep
    rw [hget]
    dsimp only
    split
    · rename_i htr hce
      exact absurd (hg htr) (by simp [hce])
    · rw [if_neg hover, upstream_rc]
      cases hcode : g.rc with
      | ok => exact absurd hcode hrc
      | abort => exact ⟨_, _, rfl⟩
      | error => exact ⟨_, _, rfl⟩
  · obtain ⟨t, e, hrun, -⟩ := ResumeEnd.runStep_gone u.step hi hg
    exact ⟨t, e, hrun⟩

section
variable {u : Upstream} {guest : ℕ → Guest} {s : Chain} {i : ℕ} (k : ℕ) (rc : Rc)

/-- An entry with an error ends the step, and so does a callback with one. -/
theorem upstreamLoop_stuck (hi : i < s.nfilters) (hx : s.execIndex = i) (hs : s.step = u.step)
    (ha : s.action = .cont)
    (hbad : ecodeAt s i ≠ none ∨ ¬ Restores (guest i) ∨
      (guest i).host ≠ some .done ∧ (guest i).rc ≠ .ok) :
    ∃ t, (resumeLoop u.step guest (k + 1) i s rc).1 = t ∧ t.phase = s.phase ∧
      t.nfilters = s.nfilters ∧ t.execIndex = i ∧ ecodeAt t i ≠ none := by
  set v : Chain := { s with trace := s.trace ++ [.access i] } with hv
  by_cases he : ecodeAt s i = none
  · have hfail := hbad.resolve_left (fun hno => hno he)
    have hstep : v.step ≠ .done := hs ▸ upstream_not_done u
    have hok : action2rc v i = (v, .ok) := (action2rc_free (s := v) hi he).2.1 hstep ha
    obtain ⟨t, e, hrun⟩ := runStep_fails (s := v) u hi ha hfail
    obtain ⟨hsize, hindex, -⟩ := runStep_frame v i u.step (guest i)
    have hphase := runStep_phase v i u.step (guest i)
    rw [hrun] at hsize hindex hphase
    refine ⟨setEcode t i (some e), ?_, hphase, ?_, hindex.trans hx, ?_⟩
    · simp [resumeLoop, ← hv, hok, upstream_not_done, hrun]
    · rw [setEcode_nfilters]
      exact hsize
    · have hlt : i < t.nfilters := by
        rw [show t.nfilters = s.nfilters from hsize]
        exact hi
      rw [ecodeAt_setEcode, if_pos ⟨rfl, hlt⟩]
      exact Option.some_ne_none e
  · obtain ⟨t, hrc, ht⟩ := action2rc_errored (s := v) hi he
    refine ⟨t, by simp [resumeLoop, ← hv, hrc], ?_⟩
    rcases ht with rfl | rfl
    · exact ⟨rfl, rfl, hx, he⟩
    · refine ⟨rfl, setLogged_nfilters v i, hx, ?_⟩
      rw [ecodeAt_setLogged]
      exact he

/-- The callback of an entry without error goes through. -/
theorem upstreamLoop_called (hi : i < s.nfilters) (hx : s.execIndex = i) (hs : s.step = u.step)
    (ha : s.action = .cont) (he : ecodeAt s i = none) (hg : Restores (guest i))
    (hrc : (guest i).host = some .done ∨ (guest i).rc = .ok) :
    ∃ t, t.step = u.step ∧ t.action = .cont ∧ t.phase = s.phase ∧ t.nfilters = s.nfilters ∧
      ecodeAt t = ecodeAt s ∧ t.respBuffering = s.respBuffering ∧
      (((guest i).host = some .done ∧ t.execIndex = i + 1 ∧
          resumeLoop u.step guest (k + 1) i s rc = (t, .done)) ∨
        ((guest i).host ≠ some .done ∧ t.execIndex = (if s.nfilters ≤ i + 1 then 0 else i + 1) ∧
          resumeLoop u.step guest (k + 1) i s rc = resumeLoop u.step guest k (i + 1) t .ok)) := by
  set v : Chain := { s with trace := s.trace ++ [.access i] } with hv
  have hne (w : Chain) (hw : w.step = u.step) : w.step ≠ .done := hw ▸ upstream_not_done u
  have hok : action2rc v i = (v, .ok) := (action2rc_free (s := v) hi he).2.1 (hne v hs) ha
  obtain ⟨t, hrun, hvis, hact⟩ : ∃ t, runStep v i u.step (guest i) = (t, none) ∧
      Visited v i u.step t ∧ t.action = nextAction u.step .cont (guest i) := by
    by_cases hd : (guest i).host = some .done
    · obtain ⟨t, hrun, hvis, hact⟩ := runStep_visits (s := v) u.step (g := { guest i with rc := .ok })
        hi he hg (upstream_rc u _)
      refine ⟨t, (runStep_finishes (s := v) u ha hd).trans hrun, hvis, ?_⟩
      rw [hact, show v.action = .cont from ha, upstream_action, upstream_action]
    · obtain ⟨t, hrun, hvis, hact⟩ := runStep_visits (s := v) u.step hi he hg
        ((upstream_rc u _).trans (hrc.resolve_left hd))
      exact ⟨t, hrun, hvis, hact.trans (congrArg (nextAction u.step · (guest i)) ha)⟩
  rw [upstream_action] at hact
  have hte : ecodeAt t = ecodeAt s := hvis.ecodes
  have htn : t.nfilters = s.nfilters := hvis.size
  have htx : t.execIndex = i := hvis.index.trans hx
  -- behind the callback and the move of the index
  set w : Chain := { setEcode t i none with execIndex := i + 1 } with hw
  have hwn : w.nfilters = s.nfilters := (setEcode_nfilters t i none).trans htn
  have hwe : ecodeAt w = ecodeAt s := (setEcode_none (by rw [hte, he])).trans hte
  have hwi : ecodeAt w i = none := by rw [hwe, he]
  by_cases hd : (guest i).host = some .done
  · rw [if_pos hd] at hact
    have hadv : advance u.step (setEcode t i none) = w := by
      simp [advance, hw, setEcode, hact, htx]
    have hfin : action2rc w i = ({ w with action := .cont }, .done) :=
      (action2rc_free (by omega) hwi).2.2.1 (hne w hvis.atStep) hact
    refine ⟨{ w with action := .cont }, hvis.atStep, rfl, hvis.phase, hwn, hwe, hvis.buffering,
      .inl ⟨hd, rfl, ?_⟩⟩
    simp [resumeLoop, ← hv, hok, upstream_not_done, hrun, hadv, hfin]
  · rw [if_neg hd] at hact
    have hadv : advance u.step (setEcode t i none) = w := by
      simp [advance, hw, setEcode, hact, htx]
    have hgo : action2rc w i = (w, .ok) :=
      (action2rc_free (by omega) hwi).2.1 (hne w hvis.atStep) hact
    have hloop : resumeLoop u.step guest (k + 1) i s rc =
        resumeLoop u.step guest k (i + 1) (nextStep w) .ok := by
      simp [resumeLoop, ← hv, hok, upstream_not_done, hrun, hadv, hgo]
    by_cases hlast : s.nfilters ≤ i + 1
    · have hnext : nextStep w = { w with lastCompletedStep := w.step.toNat, execIndex := 0 } :=
        if_pos (hwn ▸ hlast)
      rw [hnext] at hloop
      exact ⟨{ w with lastCompletedStep := w.step.toNat, execIndex := 0 }, hvis.atStep, hact,
        hvis.phase, hwn, hwe, hvis.buffering, .inr ⟨hd, by rw [if_pos hlast], hloop⟩⟩
    · have hnext : nextStep w = w := if_neg (hwn ▸ hlast)
      rw [hnext] at hloop
      exact ⟨w, hvis.atStep, hact, hvis.phase, hwn, hwe, hvis.buffering,
        .inr ⟨hd, by rw [if_neg hlast], hloop⟩⟩

end

/-! ### The chain of an upstream step -/

/-- What the loop from filter `i` on leaves. -/
structure Swept (guest : ℕ → Guest) (s : Chain) (i k : ℕ) (t : Chain) : Prop where
  phase : t.phase = s.phase
  size : t.nfilters = s.nfilters
  through : (∀ j, i ≤ j → j < s.nfilters → Passes s guest j) → t.action = .cont ∧
    (0 < k → t.execIndex = 0) ∧ (k = 0 → t.execIndex = s.execIndex) ∧ ecodeAt t = ecodeAt s ∧
    t.respBuffering = s.respBuffering
  stopped : ∀ j, i ≤ j → j < s.nfilters → ¬ Passes s guest j →
    i < t.execIndex ∨ t.execIndex = i ∧ ecodeAt t i ≠ none

theorem passes_congr {s t : Chain} (h : ecodeAt t = ecodeAt s) (guest : ℕ → Guest) (i : ℕ) :
    Passes t guest i ↔ Passes s guest i := by
  rw [Passes, Passes, h]

theorem upstreamLoop_sweeps (u : Upstream) (guest : ℕ → Guest) (k : ℕ) :
    ∀ (i : ℕ) (s : Chain) (rc : Rc), s.step = u.step → s.action = .cont → i + k = s.nfilters →
      (0 < k → s.execIndex = i) → Swept guest s i k (resumeLoop u.step guest k i s rc).1 := by
  induction k with
  | zero =>
    intro i s rc _ ha hik _
    refine ⟨rfl, rfl, ?_, ?_⟩
    · intro _
      exact ⟨ha, fun hk => absurd hk (by omega), fun _ => rfl, rfl, rfl⟩
    · intro j hj hlt
      omega
  | succ k ih =>
    intro i s rc hs ha hik hx
    have hx := hx (by omega)
    have hi : i < s.nfilters := by omega
    by_cases hcall : ecodeAt s i = none ∧ Restores (guest i) ∧
        ((guest i).host = some .done ∨ (guest i).rc = .ok)
    · obtain ⟨he, hg, hrc⟩ := hcall
      obtain ⟨t, hts, hta, htp, htn, hte, htb, hcases⟩ :=
        upstreamLoop_called (u := u) k rc hi hx hs ha he hg hrc
      rcases hcases with ⟨hd, htx, hloop⟩ | ⟨hd, htx, hloop⟩
      · rw [hloop]
        refine ⟨htp, htn, ?_, ?_⟩
        · intro hall
          exact absurd hd (hall i le_rfl hi).2.2.2
        · intro _ _ _ _
          left
          show i < t.execIndex
          omega
      · rw [hloop]
        have hrest := ih (i + 1) t .ok hts hta (by omega) (by
          intro hk
          rw [htx, if_neg (by omega)])
        have hpass : Passes s guest i := ⟨he, hg, hrc.resolve_left hd, hd⟩
        refine ⟨hrest.phase.trans htp, hrest.size.trans htn, ?_, ?_⟩
        · intro hall
          obtain ⟨hact, hzero, hkeep, hecodes, hbuf⟩ := hrest.through fun j hj hlt =>
            (passes_congr hte guest j).mpr (hall j (by omega) (htn ▸ hlt))
          refine ⟨hact, ?_, fun hk => absurd hk (by omega), hecodes.trans hte, hbuf.trans htb⟩
          intro _
          by_cases hk : k = 0
          · rw [hkeep hk, htx, if_pos (by omega)]
          · exact hzero (by omega)
        · intro j hj hlt hbad
          have hne : j ≠ i := by
            rintro rfl
            exact hbad hpass
          have hstop := hrest.stopped j (by omega) (htn ▸ hlt)
            (fun hyes => hbad ((passes_congr hte guest j).mp hyes))
          omega
    · have hbad : ecodeAt s i ≠ none ∨ ¬ Restores (guest i) ∨
          (guest i).host ≠ some .done ∧ (guest i).rc ≠ .ok := by
        by_contra hno
        simp only [not_or, not_not, not_and] at hno
        obtain ⟨he, hg, hrc⟩ := hno
        exact hcall ⟨he, hg, or_iff_not_imp_left.mpr hrc⟩
      obtain ⟨t, hloop, hphase, hsize, hindex, hecode⟩ :=
        upstreamLoop_stuck (u := u) k rc hi hx hs ha hbad
      rw [hloop]
      refine ⟨hphase, hsize, ?_, fun _ _ _ _ => .inr ⟨hindex, hecode⟩⟩
      intro hall
      have hpass := hall i le_rfl hi
      exact absurd ⟨hpass.1, hpass.2.1, .inr hpass.2.2.1⟩ hcall

theorem upstreamResume_eq (u : Upstream) (s : Chain) (guest : ℕ → Guest) :
    let v := { s with phase := Phase.background, step := u.step }
    (upstreamResume s u.step guest).1 =
      { (resumeLoop u.step guest (s.nfilters - s.execIndex) s.execIndex v .ok).1 with
        step := s.step, lastCompletedStep := s.lastCompletedStep } := by
  cases u <;> rfl

/-- The first check of a filter ends the step. -/
theorem upstream_first_check {u : Upstream} {s : Chain} (guest : ℕ → Guest)
    (hi : s.execIndex < s.nfilters) {t : Chain} {rc : Rc} (hrc : rc ≠ .ok)
    (hcheck : action2rc { s with
      phase := .background, step := u.step, trace := s.trace ++ [.access s.execIndex] }
      s.execIndex = (t, rc)) :
    (upstreamResume s u.step guest).1 =
      { t with step := s.step, lastCompletedStep := s.lastCompletedStep } := by
  obtain ⟨k, hk⟩ : ∃ k, s.nfilters - s.execIndex = k + 1 := ⟨_, (Nat.succ_pred (by omega)).symm⟩
  rw [upstreamResume_eq, hk]
  simp only [resumeLoop]
  rw [hcheck, if_pos hrc]

theorem upstream_untouched {u : Upstream} {s : Chain} {guest : ℕ → Guest}
    (hphase : s.phase = .background) (h : Untouched s) :
    Alike s (upstreamResume s u.step guest).1 := by
  by_cases hi : s.execIndex < s.nfilters
  · set v : Chain := { s with
      phase := .background, step := u.step, trace := s.trace ++ [.access s.execIndex] } with hv
    by_cases he : ecodeAt s s.execIndex = none
    · have hpause : s.action = .pause :=
        (h.resolve_left (by omega)).resolve_left (fun hno => hno he)
      have hcheck := (action2rc_free (s := v) hi he).2.2.2 (upstream_not_done u) hpause rfl
      rw [upstream_first_check guest hi (by decide) hcheck]
      exact ⟨rfl, rfl, rfl, rfl, rfl, rfl, hphase.symm, Bool.or_false _⟩
    · obtain ⟨t, hcheck, ht⟩ := action2rc_errored (s := v) hi he
      rw [upstream_first_check guest hi (by simp) hcheck]
      rcases ht with rfl | rfl
      · exact ⟨rfl, rfl, rfl, rfl, rfl, rfl, hphase.symm, rfl⟩
      · exact ⟨setLogged_nfilters s _, funext fun j => ecodeAt_setLogged s _ j, rfl, rfl, rfl, rfl,
          hphase.symm, rfl⟩
  · have hzero : s.nfilters - s.execIndex = 0 := by omega
    rw [upstreamResume_eq, hzero]
    exact ⟨rfl, rfl, rfl, rfl, rfl, rfl, hphase.symm, rfl⟩

theorem upstream_sweeps (u : Upstream) {s : Chain} (guest : ℕ → Guest)
    (hi : s.execIndex < s.nfilters) (ha : s.action = .cont) :
    Swept guest { s with phase := .background, step := u.step } s.execIndex
      (s.nfilters - s.execIndex) (upstreamResume s u.step guest).1 := by
  have hsweep := upstreamLoop_sweeps u guest (s.nfilters - s.execIndex) s.execIndex
    { s with phase := .background, step := u.step } .ok rfl ha
    (show s.execIndex + (s.nfilters - s.execIndex) = s.nfilters by omega) (fun _ => rfl)
  rw [upstreamResume_eq]
  exact ⟨hsweep.phase, hsweep.size, hsweep.through, hsweep.stopped⟩

theorem upstream_completes {u : Upstream} {s : Chain} {guest : ℕ → Guest}
    (hphase : s.phase = .background) (h : Completes s guest) :
    Alike s (upstreamResume s u.step guest).1 := by
  obtain ⟨ha, hzero, hall⟩ := h
  by_cases hi : s.execIndex < s.nfilters
  · have hsweep := upstream_sweeps u guest hi ha
    obtain ⟨hact, hindex, -, hecodes, hbuf⟩ := hsweep.through fun j _ hlt => hall j hlt
    refine ⟨hsweep.size, hecodes, ?_, hact.trans ha.symm, ?_, ?_, hsweep.phase.trans hphase.symm, hbuf⟩
    · rw [hindex (by omega), hzero]
    · rw [upstreamResume_eq]
    · rw [upstreamResume_eq]
  · exact upstream_untouched hphase (.inl (not_lt.mp hi))

/-! ### A filter with an error -/

/-- A callback that fails at once. -/
def failing : ℕ → Guest := fun _ => ⟨false, 0, none, .error, .cont, none⟩

/-- The response body step, once the buffer is given back. -/
def bodyCalls : List Call := [.buffered, .bodyFilter failing]

/-- The chain at the first filter of that step. -/
def atBody (s : Chain) : Chain :=
  { s with
    respBuffering := false, action := .cont, phase := .bodyFilter, step := .respBody
    trace := s.trace ++ [.access s.execIndex] }

theorem body_loop {s : Chain} (hi : s.execIndex < s.nfilters) :
    ∃ k, (Run.exec callStep s bodyCalls).1 =
      (resumeLoop .respBody failing (k + 1) s.execIndex { atBody s with trace := s.trace } .ok).1 := by
  obtain ⟨k, hk⟩ : ∃ k, s.nfilters - s.execIndex = k + 1 := ⟨_, (Nat.succ_pred (by omega)).symm⟩
  refine ⟨k, ?_⟩
  rw [← hk]
  rfl

theorem body_runs {s : Chain} (hi : s.execIndex < s.nfilters) (he : ecodeAt s s.execIndex = none) :
    callbacks s bodyCalls = [(.respBody, s.execIndex)] := by
  obtain ⟨k, hloop⟩ := body_loop hi
  have hcheck : action2rc (atBody s) s.execIndex = (atBody s, .ok) :=
    (action2rc_free (s := atBody s) hi he).2.1 Step.noConfusion rfl
  obtain ⟨e, hget, -⟩ := exists_entry hi
  obtain ⟨t, hrun, hran⟩ : ∃ t, runStep (atBody s) s.execIndex .respBody (failing s.execIndex) =
      (t, some .unknown) ∧ ran t = ran s ++ [(.respBody, s.execIndex)] := by
    have hget' : (atBody s).pwexecs[s.execIndex]? = some e := hget
    unfold runStep
    rw [hget']
    refine ⟨_, rfl, ?_⟩
    rw [← ran_access s s.execIndex]
    exact List.filterMap_append
  have hend : (resumeLoop .respBody failing (k + 1) s.execIndex { atBody s with trace := s.trace }
      .ok).1 = setEcode t s.execIndex (some .unknown) := by
    have hstart : { atBody s with trace := s.trace ++ [.access s.execIndex] } = atBody s := rfl
    simp only [resumeLoop, hstart, hcheck, hrun]
    rfl
  rw [callbacks, hloop, hend, show ran (setEcode t s.execIndex (some .unknown)) = ran t from rfl, hran,
    List.drop_left]

theorem body_skips {s : Chain} (hi : s.execIndex < s.nfilters) (he : ecodeAt s s.execIndex ≠ none) :
    callbacks s bodyCalls = [] := by
  obtain ⟨k, hloop⟩ := body_loop hi
  obtain ⟨t, hcheck, ht⟩ := action2rc_errored (s := atBody s) hi he
  have hend : (resumeLoop .respBody failing (k + 1) s.execIndex { atBody s with trace := s.trace }
      .ok).1 = t := by
    have hstart : { atBody s with trace := s.trace ++ [.access s.execIndex] } = atBody s := rfl
    simp only [resumeLoop, hstart, hcheck]
    rfl
  have hran : ran t = ran s := by
    rcases ht with rfl | rfl <;> exact ran_access s s.execIndex
  rw [callbacks, hloop, hend, hran, List.drop_length]

/-- A filter that got an error is not run any more. -/
theorem not_sameFilters {s t : Chain} (hi : s.execIndex < s.nfilters)
    (he : ecodeAt s s.execIndex = none) (hsize : t.nfilters = s.nfilters)
    (hx : t.execIndex = s.execIndex) (hte : ecodeAt t s.execIndex ≠ none) : ¬ SameFilters s t := by
  intro hsame
  have hbody := hsame bodyCalls
  rw [body_runs hi he, body_skips (s := t) (by rw [hsize, hx]; exact hi) (by rw [hx]; exact hte)]
    at hbody
  exact absurd hbody (by simp)

theorem action2rc_phase (s : Chain) (i : ℕ) : (action2rc s i).1.phase = s.phase := by
  unfold action2rc
  cases s.pwexecs[i]? with
  | none => rfl
  | some e =>
    dsimp only
    split
    · split <;> rfl
    · split
      · rfl
      · cases s.action with
        | pause =>
          dsimp only
          split <;> rfl
        | _ => rfl

theorem advance_phase (step : Step) (s : Chain) : (advance step s).phase = s.phase := by
  rcases advance_eq step s with he | he <;> rw [he]

theorem nextStep_phase (s : Chain) : (nextStep s).phase = s.phase := by
  unfold nextStep
  split <;> rfl

theorem resumeLoop_phase (step : Step) (guest : ℕ → Guest) (k : ℕ) :
    ∀ (i : ℕ) (s : Chain) (rc : Rc), (resumeLoop step guest k i s rc).1.phase = s.phase := by
  induction k with
  | zero =>
    intro i s rc
    rfl
  | succ k ih =>
    intro i s rc
    have hcheck := action2rc_phase { s with trace := s.trace ++ [.access i] } i
    have hrun := runStep_phase (action2rc { s with trace := s.trace ++ [.access i] } i).1 i step
      (guest i)
    simp only [resumeLoop]
    split
    · exact hcheck
    · split
      · exact hcheck
      · split
        · exact hrun.trans hcheck
        · have hlast := (action2rc_phase (advance step (setEcode
            (runStep (action2rc { s with trace := s.trace ++ [.access i] } i).1 i step (guest i)).1 i
            (runStep (action2rc { s with trace := s.trace ++ [.access i] } i).1 i step
              (guest i)).2)) i).trans (advance_phase step _)
          split
          · exact hlast.trans (hrun.trans hcheck)
          · rw [ih, nextStep_phase]
            exact hlast.trans (hrun.trans hcheck)

theorem upstream_phase (u : Upstream) (s : Chain) (guest : ℕ → Guest) :
    (upstreamResume s u.step guest).1.phase = .background := by
  rw [upstreamResume_eq]
  exact resumeLoop_phase u.step guest _ _ _ _

/-- The five fields come back and the same filters run afterwards exactly where no filter is
entered, or all of them are run, from the first to the last one. -/
theorem upstream_restores_iff (u : Upstream) (s : Chain) (guest : ℕ → Guest) :
    (Restored s (upstreamResume s u.step guest).1 ∧ SameFilters s (upstreamResume s u.step guest).1) ↔
      s.phase = .background ∧ (Untouched s ∨ Completes s guest) := by
  constructor
  · intro ⟨hback, hsame⟩
    have hphase : s.phase = .background := hback.phase.symm.trans (upstream_phase u s guest)
    refine ⟨hphase, ?_⟩
    by_contra hneither
    rw [not_or, Untouched, not_or, not_or, not_le, not_not] at hneither
    obtain ⟨⟨hi, he, hpause⟩, hcomplete⟩ := hneither
    by_cases hcont : s.action = .cont
    · have hsweep := upstream_sweeps u guest hi hcont
      by_cases hall : ∀ j, s.execIndex ≤ j → j < s.nfilters → Passes s guest j
      · have hzero := (hsweep.through hall).2.1 (by omega)
        rw [hback.execIndex] at hzero
        exact hcomplete ⟨hcont, hzero, fun j hlt => hall j (by omega) hlt⟩
      · simp only [not_forall] at hall
        obtain ⟨j, hj, hlt, hbad⟩ := hall
        rcases hsweep.stopped j hj hlt hbad with hmoved | ⟨hx, hte⟩
        · rw [hback.execIndex] at hmoved
          omega
        · exact not_sameFilters hi he hsweep.size hx hte hsame
    · set v : Chain := { s with
        phase := .background, step := u.step, trace := s.trace ++ [.access s.execIndex] } with hv
      by_cases hdone : s.action = .done
      · have hcheck := (action2rc_free (s := v) hi he).2.2.1 (upstream_not_done u) hdone
        have hact := hback.action
        rw [upstream_first_check guest hi (by decide) hcheck] at hact
        exact hcont hact.symm
      · have hnyi : nyiAction s.action = true := by
          cases hact : s.action <;> first | rfl | exact absurd hact (by assumption)
        have hcheck := action2rc_nyi (s := v) hi he (upstream_not_done u) hnyi
        refine not_sameFilters hi he ?_ hback.execIndex ?_ hsame
        · rw [upstream_first_check guest hi (by decide) hcheck]
          exact setEcode_nfilters v s.execIndex _
        · rw [upstream_first_check guest hi (by decide) hcheck]
          show ecodeAt (setEcode v s.execIndex (some .unknown)) s.execIndex ≠ none
          rw [ecodeAt_setEcode, if_pos ⟨rfl, hi⟩]
          exact Option.some_ne_none _
  · intro ⟨hphase, hcases⟩
    have halike : Alike s (upstreamResume s u.step guest).1 := by
      rcases hcases with huntouched | hcomplete
      · exact upstream_untouched hphase huntouched
      · exact upstream_completes hphase hcomplete
    exact ⟨halike.restored, halike.sameFilters⟩

/-- Two filters at their second upstream step; the first one sends a local response. -/
def atSecondSelect : Chain :=
  { newChain [created 1, created 2] with
    step := .reqBody, lastCompletedStep := Step.reqHeaders.toNat, phase := .background }

theorem local_response_moves_index :
    ¬ ∀ (u : Upstream) (s : Chain) (guest : ℕ → Guest),
      Restored s (upstreamResume s u.step guest).1 ∧
        SameFilters s (upstreamResume s u.step guest).1 := by
  intro hall
  have hindex := (hall .select atSecondSelect
    (fun i => { returns .cont with host := if i = 0 then some .done else none })).1.execIndex
  exact absurd hindex (by decide)

end NgxWasm.ProxyWasm.UpstreamFrame
