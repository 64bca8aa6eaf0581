import NgxWasm.ProxyWasm.Resume
import NgxWasm.Lib.Run

/-!
# Which entries a chain touches

Every entry that `ngx_proxy_wasm_resume` touches exists, and the error for a
`PAUSE` that the phase does not allow lands in the filter that paused, in runs
in which no pending `PAUSE` of another filter meets the log or trailers phase.
-/

namespace NgxWasm.ProxyWasm.ResumeIndex
open NgxWasm.Lib Run NgxWasm.ProxyWasm.Resume

def Sane (n : ℕ) : Event → Prop
  | .access i => i < n
  | .ran _ => True
  | .created _ => True
  | .badReturn stored returner => returner = some stored

structure Inv (n : ℕ) (s : Chain) : Prop where
  size : s.nfilters = n
  index : s.execIndex ≤ n
  sane : ∀ e ∈ s.trace, Sane n e

/-! ### Branches -/

def nyiAction : Action → Bool
  | .cont => false
  | .pause => false
  | .done => false
  | _ => true

/-- The branches of `action2rc`, each with its guard. -/
inductive ActionBranch (s : Chain) (i : ℕ) : Chain × Rc → Prop where
  | missing : s.pwexecs[i]? = none → ActionBranch s i (s, .error)
  | errored (e : Exec) (t : Chain) : s.pwexecs[i]? = some e → e.ecode.isSome →
    t = s ∨ t = setLogged s i → ActionBranch s i (t, .http 500)
  | forced (e : Exec) : s.pwexecs[i]? = some e → e.ecode = none → s.step = .done →
    ActionBranch s i (s, .ok)
  | finished : s.step ≠ .done → s.action = .done →
    ActionBranch s i ({ s with action := .cont }, .done)
  | goesOn (e : Exec) : s.pwexecs[i]? = some e → e.ecode = none → s.step ≠ .done →
    s.action = .cont → ActionBranch s i (s, .ok)
  | yields : s.step ≠ .done → s.action = .pause → pausable s.phase = true →
    ActionBranch s i ({ s with respBuffering := s.respBuffering || s.phase = .bodyFilter }, .again)
  | bad (e : Exec) : s.pwexecs[i]? = some e → e.ecode = none → s.step ≠ .done →
    s.action = .pause → pausable s.phase = false → ActionBranch s i (badReturnAction s, .error)
  | nyi (e : Exec) : s.pwexecs[i]? = some e → nyiAction s.action = true →
    ActionBranch s i (setEcode s i (some .unknown), .error)

theorem action2rc_branch (s : Chain) (i : ℕ) : ActionBranch s i (action2rc s i) := by
  unfold action2rc
  cases he : s.pwexecs[i]? with
  | none => exact .missing he
  | some e =>
    cases hc : e.ecode with
    | some c =>
      simp only [hc, Option.isSome_some, if_true]
      refine .errored e _ he (by simp [hc]) ?_
      split
      · exact .inr rfl
      · exact .inl rfl
    | none =>
      simp only [hc, Option.isSome_none, Bool.false_eq_true, if_false]
      by_cases hs : s.step = .done
      · rw [if_pos hs]
        exact .forced e he hc hs
      · rw [if_neg hs]
        cases ha : s.action with
        | cont => exact .goesOn e he hc hs ha
        | done => exact .finished hs ha
        | pause =>
          cases hp : pausable s.phase with
          | true =>
            have hb : ActionBranch s i _ := .yields hs ha hp
            rw [ha] at hb
            exact hb
          | false => exact .bad e he hc hs ha hp
        | endStream | wait | waitFull | close | other n => exact .nyi e he (by rw [ha]; rfl)

/-! ### Frames -/

@[simp] theorem setEcode_nfilters (s : Chain) (i : ℕ) (e : Option Err) :
    (setEcode s i e).nfilters = s.nfilters := by
  simp [setEcode, Chain.nfilters]

@[simp] theorem setLogged_nfilters (s : Chain) (i : ℕ) : (setLogged s i).nfilters = s.nfilters := by
  simp [setLogged, Chain.nfilters]

@[simp] theorem setIctx_nfilters (s : Chain) (i ictx : ℕ) :
    (setIctx s i ictx).nfilters = s.nfilters := by
  simp [setIctx, Chain.nfilters]

theorem inv_setEcode {n : ℕ} {s : Chain} (h : Inv n s) (i : ℕ) (e : Option Err) :
    Inv n (setEcode s i e) := ⟨by rw [setEcode_nfilters, h.size], h.index, h.sane⟩

theorem inv_setIctx {n : ℕ} {s : Chain} (h : Inv n s) (i ictx : ℕ) : Inv n (setIctx s i ictx) :=
  ⟨by rw [setIctx_nfilters, h.size], h.index, h.sane⟩

theorem createFailed_inv {n : ℕ} {s : Chain} (h : Inv n s) (i ictx : ℕ) (e : CreatePoint × Err) :
    Inv n (createFailed s i ictx e) ∧ (createFailed s i ictx e).phase = s.phase ∧
      (createFailed s i ictx e).execIndex = s.execIndex := by
  obtain ⟨p, e⟩ := e
  cases p with
  | root => exact ⟨h, rfl, rfl⟩
  | log => exact ⟨inv_setEcode (inv_setIctx h i ictx) i _, rfl, rfl⟩
  | context =>
    have hs := inv_setEcode (inv_setIctx h i ictx) i (some e)
    refine ⟨⟨hs.size, hs.index, fun ev hev => ?_⟩, rfl, rfl⟩
    rcases List.mem_append.mp hev with hev | hev
    · exact h.sane ev hev
    · rw [List.mem_singleton.mp hev]
      trivial

theorem runStep_spec {n : ℕ} {s : Chain} (h : Inv n s) (i : ℕ) (step : Step) (g : Guest) :
    Inv n (runStep s i step g).1 ∧ (runStep s i step g).1.phase = s.phase ∧
      (runStep s i step g).1.execIndex = s.execIndex ∧
      ((runStep s i step g).2 = none → (runStep s i step g).1.step = step ∧
        (runStep s i step g).1.action = nextAction step s.action g) := by
  have hsane : ∀ r, ∀ e ∈ s.trace ++ [.ran r], Sane n e := by
    intro r e he
    rcases List.mem_append.mp he with he | he
    · exact h.sane e he
    · rw [List.mem_singleton.mp he]
      trivial
  unfold runStep
  cases hp : s.pwexecs[i]? with
  | none => exact ⟨h, rfl, rfl, by simp⟩
  | some pwexec =>
    dsimp only
    split
    · obtain ⟨hc, hp, hx⟩ := createFailed_inv h i g.ictx ‹_›
      exact ⟨hc, hp, hx, by simp⟩
    · have hinv : ∀ ictx p r, Inv n { setIctx { s with
            step := step, action := nextAction step s.action g } i ictx with
            pausedBy := p, trace := s.trace ++ [.ran r] } := by
        intro ictx p r
        refine ⟨?_, h.index, hsane r⟩
        show (setIctx _ i ictx).nfilters = n
        rw [setIctx_nfilters]
        exact h.size
      by_cases hd : g.host.getD s.action ≠ returnedAction step s.action g ∧
          g.host.getD s.action = .done
      · simp only [if_pos hd]
        exact ⟨hinv _ _ _, rfl, rfl, fun _ => ⟨rfl, rfl⟩⟩
      · simp only [if_neg hd]
        exact ⟨inv_setEcode (hinv _ _ _) _ _, rfl, rfl, fun _ => ⟨rfl, rfl⟩⟩

/-! ### One iteration -/

/-- If the check at entry `i` meets a bad `PAUSE`, then it is that of the filter
at `exec_index`. -/
def Owned (n : ℕ) (s : Chain) (i : ℕ) : Prop :=
  s.step = .done ∨ pausable s.phase = true ∨
    (s.action = .pause → ∀ e, s.pwexecs[i]? = some e → e.ecode = none →
      s.execIndex < n ∧ s.pausedBy = some s.execIndex)

theorem action2rc_spec {n : ℕ} {s : Chain} {i : ℕ} (h : Inv n s) (ho : Owned n s i) :
    Inv n (action2rc s i).1 ∧ (action2rc s i).1.phase = s.phase ∧
      (action2rc s i).1.step = s.step ∧ (action2rc s i).1.execIndex = s.execIndex ∧
      ((action2rc s i).2 = .ok → (action2rc s i).1 = s ∧ (s.step = .done ∨ s.action = .cont)) ∧
      ((action2rc s i).2 = .again → pausable s.phase = true) := by
  have hb := action2rc_branch s i
  generalize action2rc s i = r at hb ⊢
  cases hb with
  | missing _ => exact ⟨h, rfl, rfl, rfl, by simp, by simp⟩
  | errored e t _ _ ht =>
    rcases ht with rfl | rfl
    · exact ⟨h, rfl, rfl, rfl, by simp, by simp⟩
    · exact ⟨⟨by rw [setLogged_nfilters, h.size], h.index, h.sane⟩, rfl, rfl, rfl, by simp, by simp⟩
  | forced e _ _ hs => exact ⟨h, rfl, rfl, rfl, fun _ => ⟨rfl, .inl hs⟩, by simp⟩
  | finished _ _ => exact ⟨⟨h.size, h.index, h.sane⟩, rfl, rfl, rfl, by simp, by simp⟩
  | goesOn e _ _ _ ha => exact ⟨h, rfl, rfl, rfl, fun _ => ⟨rfl, .inr ha⟩, by simp⟩
  | yields _ _ hp => exact ⟨⟨h.size, h.index, h.sane⟩, rfl, rfl, rfl, by simp, fun _ => hp⟩
  | bad e he hc hs ha hp =>
    obtain ⟨hlt, hown⟩ : s.execIndex < n ∧ s.pausedBy = some s.execIndex := by
      rcases ho with ho | ho | ho
      · exact absurd ho hs
      · rw [hp] at ho
        exact absurd ho (by simp)
      · exact ho ha e he hc
    refine ⟨⟨by simp [badReturnAction, Chain.nfilters, setEcode, ← h.size], h.index, ?_⟩, rfl, rfl,
      rfl, by simp, by simp⟩
    intro ev hev
    rcases List.mem_append.mp hev with hev | hev
    · exact h.sane ev hev
    · simp only [List.mem_cons, List.not_mem_nil, or_false] at hev
      rcases hev with rfl | rfl
      · exact hlt
      · exact hown
  | nyi e _ _ => exact ⟨inv_setEcode h _ _, rfl, rfl, rfl, by simp, by simp⟩

theorem advance_eq (step : Step) (s : Chain) :
    advance step s = s ∨ advance step s = { s with execIndex := s.execIndex + 1 } := by
  unfold advance
  split
  · exact .inr rfl
  · exact .inr rfl
  · split
    · exact .inr rfl
    · exact .inl rfl
  · exact .inl rfl

theorem advance_spec {n : ℕ} {s : Chain} (h : Inv n s) (hlt : s.execIndex < n) (step : Step) :
    Inv n (advance step s) ∧ (advance step s).phase = s.phase ∧
      (advance step s).step = s.step ∧ (advance step s).action = s.action ∧
      (advance step s).execIndex ≤ s.execIndex + 1 := by
  rcases advance_eq step s with he | he
  · rw [he]
    exact ⟨h, rfl, rfl, rfl, Nat.le_succ _⟩
  · rw [he]
    exact ⟨⟨h.size, hlt, h.sane⟩, rfl, rfl, rfl, Nat.le_refl _⟩

theorem nextStep_spec {n : ℕ} {s : Chain} (h : Inv n s) :
    Inv n (nextStep s) ∧ (nextStep s).phase = s.phase ∧ (nextStep s).step = s.step ∧
      (nextStep s).action = s.action ∧ (nextStep s).execIndex ≤ s.execIndex := by
  unfold nextStep
  split
  · exact ⟨⟨h.size, Nat.zero_le _, h.sane⟩, rfl, rfl, rfl, Nat.zero_le _⟩
  · exact ⟨h, rfl, rfl, rfl, Nat.le_refl _⟩

def Quiet (phase : Phase) (step : Step) (guest : ℕ → Guest) : Prop :=
  step = .done ∨ pausable phase = true ∨ ∀ j, nextAction step .cont (guest j) ≠ .pause

/-! ### The loop -/

theorem resumeLoop_inv {n : ℕ} (step : Step) (guest : ℕ → Guest) (k : ℕ) :
    ∀ (i : ℕ) (s : Chain) (rc : Rc), Inv n s → s.step = step → i + k = n → s.execIndex ≤ i →
      Quiet s.phase step guest → Owned n s i → Inv n (resumeLoop step guest k i s rc).1 := by
  induction k with
  | zero => intro i s rc h _ _ _ _ _; exact h
  | succ k ih =>
    intro i s rc h hstep hik hle hq ho
    have hacc : Inv n { s with trace := s.trace ++ [.access i] } := by
      refine ⟨h.size, h.index, fun e he => ?_⟩
      rcases List.mem_append.mp he with he | he
      · exact h.sane e he
      · rw [List.mem_singleton.mp he]
        show i < n
        omega
    obtain ⟨hc, -, -, -, hok, -⟩ := action2rc_spec (i := i) hacc ho
    simp only [resumeLoop]
    split
    · exact hc
    · rename_i hrc
      obtain ⟨heq, hact⟩ := hok (not_not.mp hrc)
      split
      · exact hc
      · rw [heq]
        obtain ⟨hr, hphase, hidx, hrun⟩ := runStep_spec hacc i step (guest i)
        generalize runStep { s with trace := s.trace ++ [.access i] } i step (guest i) = r
          at hr hphase hidx hrun ⊢
        have hset : Inv n (setEcode r.1 i r.2) := inv_setEcode hr i r.2
        split
        · exact hset
        · rename_i hnone
          obtain ⟨hrs, hra⟩ := hrun (by simpa using hnone)
          have hidx' : (setEcode r.1 i r.2).execIndex = s.execIndex := hidx
          obtain ⟨hadv, hap, has, haa, hai⟩ := advance_spec hset (by omega) step
          have hphase' : (advance step (setEcode r.1 i r.2)).phase = s.phase := hap.trans hphase
          have hstep' : (advance step (setEcode r.1 i r.2)).step = step := has.trans hrs
          -- behind the callback a `PAUSE` is either allowed or not there
          have hpause : step = .done ∨ pausable s.phase = true ∨
              (advance step (setEcode r.1 i r.2)).action ≠ .pause := by
            rcases hq with hq | hq | hq
            · exact .inl hq
            · exact .inr (.inl hq)
            · rcases hact with hd | hcont
              · exact .inl (hstep.symm.trans hd)
              · refine .inr (.inr ?_)
                rw [haa]
                show r.1.action ≠ .pause
                rw [hra, show _ = Action.cont from hcont]
                exact hq i
          have howned : ∀ j, Owned n (advance step (setEcode r.1 i r.2)) j := by
            intro j
            rcases hpause with hp | hp | hp
            · exact .inl (hstep'.trans hp)
            · exact .inr (.inl (hphase'.symm ▸ hp))
            · exact .inr (.inr fun ha => absurd ha hp)
          obtain ⟨hc2, hp2, hs2, hi2, hok2, hag2⟩ := action2rc_spec hadv (howned i)
          split
          · exact hc2
          · rename_i hgo
            obtain ⟨hn, hnp, hns, hna, hni⟩ := nextStep_spec hc2
            refine ih (i + 1) _ _ hn (hns.trans (hs2.trans hstep')) (by omega) (by omega) ?_ ?_
            · rw [hnp, hp2, hphase']
              exact hq
            · by_cases hag : (action2rc (advance step (setEcode r.1 i r.2)) i).2 = .again
              · refine .inr (.inl ?_)
                rw [hnp, hp2]
                exact hag2 hag
              · have hrc2 : (action2rc (advance step (setEcode r.1 i r.2)) i).2 = .ok := by
                  by_contra hne
                  exact hgo ⟨hne, hag⟩
                rcases hpause with hp | hp | hp
                · exact .inl (by rw [hns, hs2, hstep', hp])
                · exact .inr (.inl (by rw [hnp, hp2, hphase', hp]))
                · refine .inr (.inr fun ha => ?_)
                  rw [hna, (hok2 hrc2).1] at ha
                  exact absurd ha hp

/-! ### Calls -/

theorem enterStep_eq {s t : Chain} {step : Step} (h : enterStep s step = some t) :
    t = { s with step := step } ∨
      step = .respHeaders ∧ t = { s with step := step, execIndex := 0 } := by
  cases step with
  | respHeaders =>
    simp only [enterStep, Option.some.injEq] at h
    split at h
    · exact .inr ⟨rfl, h.symm⟩
    · exact .inl h.symm
  | reqHeaders | reqBody | reqTrailers | respTrailers | log | foreignCallback =>
    simp only [enterStep] at h
    split at h
    · simp at h
    · exact .inl (Option.some.inj h).symm
  | done | respBody | tick | dispatchResponse | upstreamSelect | nextUpstream | upstreamInfo =>
    exact .inl (Option.some.inj h).symm

theorem resume_inv {n : ℕ} {s : Chain} {step : Step} {guest : ℕ → Guest} (h : Inv n s)
    (hq : Quiet s.phase step guest)
    (ho : step = .done ∨ pausable s.phase = true ∨ step ≠ .respHeaders ∧
      (s.action = .pause → ∀ e, s.pwexecs[s.execIndex]? = some e → e.ecode = none →
        s.pausedBy = some s.execIndex)) :
    Inv n (resume s step guest).1 := by
  unfold resume
  cases he : enterStep s step with
  | none => exact ⟨h.size, h.index, h.sane⟩
  | some t =>
    have hn : s.pwexecs.length = n := h.size
    rcases enterStep_eq he with rfl | ⟨hs, rfl⟩
    · refine resumeLoop_inv step guest _ _ _ _ ⟨h.size, h.index, h.sane⟩ rfl ?_ (Nat.le_refl _) hq ?_
      · show s.execIndex + (s.pwexecs.length - s.execIndex) = n
        have := h.index
        omega
      · rcases ho with ho | ho | ⟨-, ho⟩
        · exact .inl ho
        · exact .inr (.inl ho)
        · refine .inr (.inr fun ha e hget hc => ⟨?_, ho ha e hget hc⟩)
          exact hn ▸ (List.getElem?_eq_some_iff.mp hget).1
    · refine resumeLoop_inv step guest _ _ _ _ ⟨h.size, Nat.zero_le _, h.sane⟩ rfl ?_
        (Nat.le_refl _) hq ?_
      · show 0 + (s.pwexecs.length - 0) = n
        omega
      · rcases ho with ho | ho | ⟨ho, -⟩
        · exact .inl ho
        · exact .inr (.inl ho)
        · exact absurd hs ho

theorem resume_inv_pausable {n : ℕ} {s : Chain} (step : Step) (guest : ℕ → Guest) (h : Inv n s)
    (hp : pausable s.phase = true) : Inv n (resume s step guest).1 :=
  resume_inv h (.inr (.inl hp)) (.inr (.inl hp))

/-- A `PAUSE` left behind when the step is entered was left by the filter at `exec_index`. -/
def PauseOwned (s : Chain) (step : Step) : Prop :=
  s.action = .pause → s.lastCompletedStep < step.toNat →
    ∀ e, s.pwexecs[s.execIndex]? = some e → e.ecode = none → s.pausedBy = some s.execIndex

/-- The log and trailers phases are only entered with such a `PAUSE`, and no
filter returns `PAUSE` from its trailers callback. -/
def Legal (s : Chain) : Call → Prop
  | .handler .log _ => PauseOwned s .log
  | .handler .trailerFilter guest =>
    PauseOwned s .respTrailers ∧
      ∀ i, (guest i).ret = .pause → (guest i).rc ≠ .ok ∨ (guest i).host = some .done
  | _ => True

theorem nextAction_ne_pause {step : Step} {old : Action} {g : Guest}
    (h : returnedAction step old g ≠ .pause ∨ g.host = some .done) :
    nextAction step old g ≠ .pause := by
  by_cases hr : returnedAction step old g = .pause
  · have hh := h.resolve_left (not_not.mpr hr)
    simp [nextAction, hr, hh]
  · simp only [nextAction]
    split
    · simp
    · exact hr

theorem nextAction_log (g : Guest) : nextAction .log .cont g ≠ .pause :=
  nextAction_ne_pause (.inl (by simp [returnedAction, returnsAction]))

theorem nextAction_respTrailers {g : Guest}
    (hg : g.ret = .pause → g.rc ≠ .ok ∨ g.host = some .done) :
    nextAction .respTrailers .cont g ≠ .pause := by
  apply nextAction_ne_pause
  by_cases hrc : g.rc = .ok
  · by_cases hret : g.ret = .pause
    · exact .inr ((hg hret).resolve_left (not_not.mpr hrc))
    · exact .inl (by simpa [returnedAction, returnsAction, stepRc, hrc] using hret)
  · exact .inl (by simp [returnedAction, returnsAction, stepRc, hrc])

theorem resume_inv_owned {n : ℕ} {s : Chain} {step : Step} {guest : ℕ → Guest} (h : Inv n s)
    (hq : Quiet s.phase step guest) (ho : PauseOwned s step) (hne : step ≠ .respHeaders)
    (hexit : s.lastCompletedStep ≥ step.toNat → enterStep s step = none) :
    Inv n (resume s step guest).1 := by
  by_cases hl : s.lastCompletedStep < step.toNat
  · exact resume_inv h hq (.inr (.inr ⟨hne, fun ha => ho ha hl⟩))
  · unfold resume
    rw [hexit (Nat.le_of_not_lt hl)]
    exact ⟨h.size, h.index, h.sane⟩

theorem opHandler_inv {n : ℕ} {s : Chain} (h : Inv n s) (phase : Phase) (guest : ℕ → Guest)
    (hl : Legal s (.handler phase guest)) : Inv n (opHandler s phase guest).1 := by
  have hs : Inv n { s with phase := phase } := ⟨h.size, h.index, h.sane⟩
  cases phase with
  | preaccess | background => exact hs
  | rewrite | access | content | headerFilter | bodyFilter => exact resume_inv_pausable _ guest hs rfl
  | done => exact resume_inv hs (.inl rfl) (.inl rfl)
  | log =>
    refine resume_inv_owned hs (.inr (.inr fun j => nextAction_log _)) hl (by simp) fun hge => ?_
    simp only [enterStep]
    exact if_pos hge
  | trailerFilter =>
    refine resume_inv_owned hs (.inr (.inr fun j => nextAction_respTrailers (hl.2 j))) hl.1
      (by simp) fun hge => ?_
    simp only [enterStep]
    exact if_pos hge

theorem afterCallback_inv {n : ℕ} {s : Chain} (h : Inv n s) (hp : pausable s.phase = true) (k : ℕ)
    (pending resumes : Bool) (guest : ℕ → Guest) :
    Inv n (afterCallback s k pending resumes guest).1 := by
  have hs : ∀ a p, Inv n { s with action := a, pausedBy := p } := fun _ _ =>
    ⟨h.size, h.index, h.sane⟩
  unfold afterCallback
  split
  · exact hs _ _
  · split
    · exact resume_inv_pausable _ guest (hs _ _) hp
    · exact hs _ _

theorem background_inv {n : ℕ} {s : Chain} (h : Inv n s) (k : ℕ) (step : Step) (g : Guest) :
    Inv n (runStep { s with phase := .background } k step g).1 ∧
      pausable (runStep { s with phase := .background } k step g).1.phase = true := by
  have hbg : Inv n { s with phase := .background } := ⟨h.size, h.index, h.sane⟩
  obtain ⟨hr, hp, -⟩ := runStep_spec hbg k step g
  rw [hp]
  exact ⟨hr, rfl⟩

theorem dispatchResume_inv {n : ℕ} {s : Chain} (h : Inv n s) (k : ℕ) (failed : Bool) (g : Guest)
    (pending : Bool) (guest : ℕ → Guest) :
    Inv n (dispatchResume s k failed g pending guest).1 := by
  simp only [dispatchResume]
  generalize hs : (if (g.trapped && !failed) = true then setEcode s k (some .instanceTrapped)
    else s) = s'
  have hi : Inv n s' := by
    rw [← hs]
    split
    · exact inv_setEcode h _ _
    · exact h
  obtain ⟨hr, hp⟩ := background_inv hi k .dispatchResponse g
  generalize runStep { s' with phase := .background } k .dispatchResponse g = r at hr hp ⊢
  refine afterCallback_inv ?_ ?_ _ _ _ _
  · split
    · exact hr
    · exact ⟨hr.size, hr.index, hr.sane⟩
  · split
    · exact hp
    · exact hp

theorem foreignCallback_inv {n : ℕ} {s : Chain} (h : Inv n s) (k : ℕ) (g : Guest) (pending : Bool)
    (guest : ℕ → Guest) : Inv n (foreignCallback s k g pending guest).1 := by
  obtain ⟨hr, hp⟩ := background_inv h k .foreignCallback g
  simp only [foreignCallback]
  generalize runStep { s with phase := .background } k .foreignCallback g = r at hr hp ⊢
  refine afterCallback_inv ?_ ?_ _ _ _ _
  · exact ⟨hr.size, hr.index, hr.sane⟩
  · exact hp

theorem callStep_inv {n : ℕ} {s : Chain} {c : Call} (h : Inv n s) (hl : Legal s c) :
    Inv n (callStep s c).1 := by
  have hbg : Inv n { s with phase := .background } := ⟨h.size, h.index, h.sane⟩
  cases c with
  | handler phase guest => exact opHandler_inv h phase guest hl
  | bodyFilter guest =>
    simp only [callStep, bodyFilterResume]
    split
    · exact h
    · refine resume_inv_pausable _ guest ?_ rfl
      exact ⟨h.size, h.index, h.sane⟩
  | buffered | dispatching k => exact ⟨h.size, h.index, h.sane⟩
  | upstream step guest =>
    have hr := resume_inv_pausable step guest hbg rfl
    exact ⟨hr.size, hr.index, hr.sane⟩
  | dispatched k failed g pending guest => exact dispatchResume_inv h k failed g pending guest
  | foreign k g pending guest => exact foreignCallback_inv h k g pending guest

theorem newChain_inv (pwexecs : List Exec) : Inv pwexecs.length (newChain pwexecs) :=
  ⟨rfl, Nat.zero_le _, by simp [newChain]⟩

/-- In every run that stays legal the chain only touches its own entries, and
the error of a bad `PAUSE` is stored in the filter that paused. -/
theorem entries_sane (pwexecs : List Exec) (calls : List Call)
    (h : Meets callStep Legal (newChain pwexecs) calls) :
    ∀ e ∈ (exec callStep (newChain pwexecs) calls).1.trace, Sane pwexecs.length e :=
  (exec_invariant callStep Legal (Inv pwexecs.length) (fun _ _ hi hl => callStep_inv hi hl) calls
    (newChain pwexecs) (newChain_inv pwexecs) h).sane

theorem entries_sane_single_filter :
    .badReturn 0 (some 0) ∈ (exec callStep (newChain [created 0])
        [.handler .rewrite fun _ => returns .pause, .handler .log fun _ => returns .cont]).1.trace ∧
      ∀ e ∈ (exec callStep (newChain [created 0]) [.handler .rewrite fun _ => returns .pause,
        .handler .log fun _ => returns .cont]).1.trace, Sane 1 e := by
  refine ⟨by decide, entries_sane [created 0] _ ⟨trivial, fun _ _ _ _ _ => ?_, trivial⟩⟩
  decide

/-- The first of two filters pauses in the rewrite phase; in the log phase the
second one is charged. -/
theorem pause_charged_to_next_filter :
    ¬ ∀ e ∈ (exec callStep (newChain [created 0, created 1]) [.handler .rewrite fun _ => returns .pause,
      .handler .log fun _ => returns .cont]).1.trace, Sane 2 e := by
  intro h
  have hbad := h (.badReturn 1 (some 0)) (by decide)
  exact absurd (Option.some.inj hbad) (by decide)

end NgxWasm.ProxyWasm.ResumeIndex
