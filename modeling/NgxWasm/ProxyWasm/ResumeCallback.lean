import NgxWasm.ProxyWasm.ResumeIndex

/-!
# The entry at `exec_index` during a callback

Whenever the chain loop runs a filter, `exec_index` names the entry of that very
filter. Only the callbacks of dispatched and foreign calls run elsewhere.
-/

namespace NgxWasm.ProxyWasm.ResumeCallback
open NgxWasm.ProxyWasm.Resume NgxWasm.ProxyWasm.ResumeIndex

def OwnEntry (r : Ran) : Prop := r.execIndex = r.i ∧ r.target = some r.ictx

def callback : Event → Option Ran
  | .ran r => some r
  | .created r => some r
  | _ => none

def Extends (s s' : Chain) : Prop :=
  ∃ evs, s'.trace = s.trace ++ evs ∧ ∀ e ∈ evs, ∀ r, callback e = some r → OwnEntry r

def Reached (g : Guest) : Prop :=
  ∀ e, g.trapped = true → g.createErr = some e → e.1 = .context

def CallbackIn (s : Chain) (i : ℕ) (g : Guest) (r : Ran) : Prop :=
  ∃ pwexec, s.pwexecs[i]? = some pwexec ∧ Reached g ∧ r.i = i ∧ r.execIndex = s.execIndex ∧
    r.ictx = (if g.trapped then g.ictx else pwexec.ictx) ∧
    r.target = ictxAt (setIctx s i r.ictx) s.execIndex

/-- An action without an answer only stays behind together with an error of the
entry at `exec_index`, at which the chain will stop. -/
def Settled (s : Chain) : Prop :=
  nyiAction s.action = true → ∃ e, s.pwexecs[s.execIndex]? = some e ∧ e.ecode ≠ none

theorem Extends.of_eq {s s' : Chain} (h : s'.trace = s.trace) : Extends s s' :=
  ⟨[], by rw [h, List.append_nil], by simp⟩

theorem Extends.trans {s t u : Chain} (h : Extends s t) (h' : Extends t u) : Extends s u := by
  obtain ⟨es, hs, he⟩ := h
  obtain ⟨fs, ht, hf⟩ := h'
  refine ⟨es ++ fs, by rw [ht, hs, List.append_assoc], fun e hm => ?_⟩
  rcases List.mem_append.mp hm with hm | hm
  · exact he e hm
  · exact hf e hm

theorem settled_of_known {s : Chain} (h : nyiAction s.action = false) : Settled s :=
  fun hn => absurd (h.symm.trans hn) (by simp)

theorem setEcode_getElem {s : Chain} {i : ℕ} {e : Exec} (h : s.pwexecs[i]? = some e)
    (ecode : Option Err) :
    (setEcode s i ecode).pwexecs[i]? = some { e with ecode := ecode } := by
  simp [setEcode, h]

theorem settled_setEcode {s : Chain} {i : ℕ} (hi : i < s.nfilters) (hx : s.execIndex = i)
    {ecode : Option Err} (he : ecode ≠ none) : Settled (setEcode s i ecode) := by
  intro _
  have hget : s.pwexecs[i]? = some s.pwexecs[i] := List.getElem?_eq_getElem hi
  exact ⟨_, by rw [show (setEcode s i ecode).execIndex = i from hx]; exact setEcode_getElem hget _, he⟩

/-! ### One iteration -/

theorem action2rc_own {s : Chain} {i : ℕ} (hi : i < s.nfilters)
    (h : s.execIndex = i ∨ nyiAction s.action = false) :
    Extends s (action2rc s i).1 ∧ (action2rc s i).1.nfilters = s.nfilters ∧
      ((action2rc s i).2 ≠ .ok → Settled (action2rc s i).1) ∧
      ((action2rc s i).2 = .ok → (action2rc s i).1 = s ∧
        (∃ e, s.pwexecs[i]? = some e ∧ e.ecode = none) ∧ (s.step = .done ∨ s.action = .cont)) ∧
      ((action2rc s i).2 = .again → s.step ≠ .done ∧ (action2rc s i).1.action = .pause ∧
        (action2rc s i).1.step = s.step) := by
  have hb := action2rc_branch s i
  generalize action2rc s i = r at hb ⊢
  cases hb with
  | missing hn =>
    rw [List.getElem?_eq_getElem hi] at hn
    exact absurd hn (by simp)
  | errored e t he hc ht =>
    have hset : Settled s := by
      intro hn
      rcases h with rfl | h
      · exact ⟨e, he, by simpa [Option.isSome_iff_ne_none] using hc⟩
      · rw [h] at hn
        exact absurd hn (by simp)
    rcases ht with rfl | rfl
    · exact ⟨.of_eq rfl, rfl, fun _ => hset, by simp, by simp⟩
    · refine ⟨.of_eq rfl, setLogged_nfilters s i, fun _ hn => ?_, by simp, by simp⟩
      obtain ⟨e', he', hc'⟩ := hset hn
      show ∃ f, (s.pwexecs.modify i _)[s.execIndex]? = some f ∧ _
      rw [List.getElem?_modify, he']
      refine ⟨_, rfl, ?_⟩
      simp only
      split <;> exact hc'
  | forced e he hc hs =>
    exact ⟨.of_eq rfl, rfl, by simp, fun _ => ⟨rfl, ⟨e, he, hc⟩, .inl hs⟩, by simp⟩
  | finished _ _ => exact ⟨.of_eq rfl, rfl, fun _ => settled_of_known rfl, by simp, by simp⟩
  | goesOn e he hc _ ha =>
    exact ⟨.of_eq rfl, rfl, by simp, fun _ => ⟨rfl, ⟨e, he, hc⟩, .inr ha⟩, by simp⟩
  | yields hs ha _ =>
    exact ⟨.of_eq rfl, rfl, fun _ => settled_of_known (by simp [ha, nyiAction]), by simp,
      fun _ => ⟨hs, ha, rfl⟩⟩
  | bad e _ _ _ ha _ =>
    refine ⟨⟨[.access s.execIndex, .badReturn s.execIndex s.pausedBy], rfl, by simp [callback]⟩,
      ?_, ?_, by simp, by simp⟩
    · exact setEcode_nfilters s s.execIndex _
    · exact fun _ => settled_of_known (by simp [badReturnAction, setEcode, ha, nyiAction])
  | nyi e _ hn =>
    refine ⟨.of_eq rfl, setEcode_nfilters s i _, fun _ => ?_, by simp, by simp⟩
    rcases h with hx | h
    · exact settled_setEcode hi hx (by simp)
    · rw [h] at hn
      exact absurd hn (by simp)

theorem runStep_trace (s : Chain) (i : ℕ) (step : Step) (g : Guest) :
    ∃ evs, (runStep s i step g).1.trace = s.trace ++ evs ∧
      (evs = [] ∨ ∃ e r, evs = [e] ∧ callback e = some r ∧ CallbackIn s i g r) := by
  unfold runStep
  cases hp : s.pwexecs[i]? with
  | none => exact ⟨[], (List.append_nil _).symm, .inl rfl⟩
  | some pwexec =>
    dsimp only
    split
    · rename_i e ht hc
      obtain ⟨p, e⟩ := e
      cases p with
      | root | log => exact ⟨[], (List.append_nil _).symm, .inl rfl⟩
      | context =>
        have hreach : Reached g := by
          intro e' _ he'
          rw [hc] at he'
          rw [← Option.some.inj he']
        exact ⟨_, rfl, .inr ⟨_, _, rfl, rfl, pwexec, hp, hreach, rfl, rfl, by simp [ht], rfl⟩⟩
    · rename_i hno
      have hreach : Reached g := fun e ht hc => absurd hc (hno e ht)
      split
      · exact ⟨_, rfl, .inr ⟨_, _, rfl, rfl, pwexec, hp, hreach, rfl, rfl, rfl, rfl⟩⟩
      · exact ⟨_, rfl, .inr ⟨_, _, rfl, rfl, pwexec, hp, hreach, rfl, rfl, rfl, rfl⟩⟩

theorem ownEntry_of_callbackIn {s : Chain} {i : ℕ} {g : Guest} {r : Ran} (h : CallbackIn s i g r)
    (hx : s.execIndex = i) : OwnEntry r := by
  obtain ⟨pwexec, hp, -, hi, he, -, ht⟩ := h
  refine ⟨by rw [he, hx, hi], ?_⟩
  rw [ht, hx]
  simp [ictxAt, setIctx, hp]

theorem runStep_frame (s : Chain) (i : ℕ) (step : Step) (g : Guest) :
    (runStep s i step g).1.nfilters = s.nfilters ∧
      (runStep s i step g).1.execIndex = s.execIndex ∧
      ((runStep s i step g).2 = none → (runStep s i step g).1.step = step ∧
        (runStep s i step g).1.action = nextAction step s.action g) := by
  unfold runStep
  cases hp : s.pwexecs[i]? with
  | none => exact ⟨rfl, rfl, by simp⟩
  | some pwexec =>
    dsimp only
    split
    · rename_i e ht hc
      obtain ⟨p, e⟩ := e
      cases p with
      | root => exact ⟨rfl, rfl, by simp⟩
      | log | context =>
        refine ⟨?_, rfl, by simp⟩
        exact (setEcode_nfilters _ i _).trans (setIctx_nfilters s i _)
    · split
      · exact ⟨setIctx_nfilters _ i _, rfl, fun _ => ⟨rfl, rfl⟩⟩
      · refine ⟨?_, rfl, fun _ => ⟨rfl, rfl⟩⟩
        exact (setEcode_nfilters _ i _).trans (setIctx_nfilters _ i _)

theorem runStep_own {s : Chain} {i : ℕ} (hx : s.execIndex = i) (step : Step) (g : Guest) :
    Extends s (runStep s i step g).1 := by
  obtain ⟨evs, htrace, hevs⟩ := runStep_trace s i step g
  refine ⟨evs, htrace, fun e he r hr => ?_⟩
  rcases hevs with rfl | ⟨e', r', rfl, hr', hin⟩
  · simp at he
  · rw [List.mem_singleton.mp he, hr'] at hr
    exact Option.some.inj hr ▸ ownEntry_of_callbackIn hin hx

theorem advance_nyi {s : Chain} (step : Step) (h : nyiAction s.action = true) :
    advance step s = s := by
  unfold advance
  cases ha : s.action with
  | cont | done | pause => simp [ha, nyiAction] at h
  | endStream | wait | waitFull | close | other n => rfl

theorem advance_passed {s : Chain} {step : Step} (h : nyiAction s.action = false)
    (hs : step = .done ∨ s.action = .cont) :
    advance step s = { s with execIndex := s.execIndex + 1 } := by
  unfold advance
  cases ha : s.action with
  | cont | done => rfl
  | pause =>
    have hd : step = .done := hs.resolve_right (by simp [ha])
    simp [hd]
  | endStream | wait | waitFull | close | other n => simp [ha, nyiAction] at h

theorem nextAction_done_known {old : Action} (g : Guest) (h : nyiAction old = false) :
    nyiAction (nextAction .done old g) = false := by
  simp only [nextAction, returnedAction, returnsAction, Bool.false_and, Bool.false_eq_true, if_false]
  split
  · rfl
  · exact h

/-! ### The loop -/

/-- The loop at entry `i` with `k` more entries: it is over, or `exec_index` is
at `i`, or a pending `PAUSE` will stop it. -/
def LoopState (step : Step) (s : Chain) (i k : ℕ) : Prop :=
  k = 0 ∧ Settled s ∨ s.execIndex = i ∧ (step = .done → Settled s) ∨
    s.action = .pause ∧ step ≠ .done

theorem nextStep_extends (s : Chain) : Extends s (nextStep s) := by
  unfold nextStep
  split
  · exact .of_eq rfl
  · exact .of_eq rfl

theorem nextStep_frame (s : Chain) :
    (nextStep s).nfilters = s.nfilters ∧ (nextStep s).action = s.action ∧
      (nextStep s).step = s.step := by
  unfold nextStep
  split
  · exact ⟨rfl, rfl, rfl⟩
  · exact ⟨rfl, rfl, rfl⟩

theorem nextStep_execIndex {s : Chain} (h : s.execIndex < s.nfilters) :
    (nextStep s).execIndex = s.execIndex := by
  unfold nextStep
  rw [if_neg (by omega)]

theorem action2rc_pending {s : Chain} {i : ℕ} (ha : s.action = .pause) (hs : s.step ≠ .done) :
    (action2rc s i).2 ≠ .ok := by
  have hb := action2rc_branch s i
  generalize action2rc s i = r at hb ⊢
  cases hb with
  | forced _ _ _ h => exact absurd h hs
  | goesOn _ _ _ _ h =>
    rw [ha] at h
    exact absurd h (by simp)
  | missing _ | errored _ _ _ _ _ | finished _ _ | yields _ _ _ | bad _ _ _ _ _ _ | nyi _ _ _ =>
    simp

theorem advance_frame (step : Step) (t : Chain) :
    Extends t (advance step t) ∧ (advance step t).nfilters = t.nfilters ∧
      (advance step t).step = t.step ∧ (advance step t).action = t.action := by
  rcases advance_eq step t with he | he
  · rw [he]
    exact ⟨.of_eq rfl, rfl, rfl, rfl⟩
  · rw [he]
    exact ⟨.of_eq rfl, rfl, rfl, rfl⟩

/-- The iteration behind the callback of entry `i`: the loop stops, or it is ready
for the entries that are left. -/
theorem advance_own {step : Step} {t : Chain} {i k : ℕ} (hx : t.execIndex = i) (hs : t.step = step)
    (hn : i + (k + 1) = t.nfilters) (hdone : step = .done → nyiAction t.action = false) :
    Extends t (action2rc (advance step t) i).1 ∧
      (action2rc (advance step t) i).1.nfilters = t.nfilters ∧
      ((action2rc (advance step t) i).2 ≠ .ok → Settled (action2rc (advance step t) i).1) ∧
      ((action2rc (advance step t) i).2 = .ok ∨ (action2rc (advance step t) i).2 = .again →
        (nextStep (action2rc (advance step t) i).1).step = step ∧
          LoopState step (nextStep (action2rc (advance step t) i).1) (i + 1) k ∧
          Settled (nextStep (action2rc (advance step t) i).1)) := by
  obtain ⟨hae, han, has, haa⟩ := advance_frame step t
  have hknown : (advance step t).execIndex = i ∨ nyiAction (advance step t).action = false := by
    cases hb : nyiAction t.action with
    | true => exact .inl (by rw [advance_nyi step hb, hx])
    | false => exact .inr (by rw [haa, hb])
  obtain ⟨hc, hcn, hcs, hok, hag⟩ := action2rc_own (by omega) hknown
  obtain ⟨hnn, hna, hns⟩ := nextStep_frame (action2rc (advance step t) i).1
  refine ⟨hae.trans hc, hcn.trans han, hcs, ?_⟩
  rintro (hrc | hrc)
  · obtain ⟨heq, -, hact⟩ := hok hrc
    have hpass : step = .done ∨ t.action = .cont := by
      rw [has, haa, hs] at hact
      exact hact
    have hk : nyiAction t.action = false := by
      rcases hpass with hd | hcont
      · exact hdone hd
      · rw [hcont]
        rfl
    have hmoved : (advance step t).execIndex = i + 1 := by rw [advance_passed hk hpass, ← hx]
    rw [heq] at hna hns ⊢
    have hset : Settled (nextStep (advance step t)) := settled_of_known (by rw [hna, haa, hk])
    refine ⟨hns.trans (has.trans hs), ?_, hset⟩
    rcases Nat.eq_zero_or_pos k with rfl | hk
    · exact .inl ⟨rfl, hset⟩
    · refine .inr (.inl ⟨?_, fun _ => hset⟩)
      rw [nextStep_execIndex (by omega), hmoved]
  · obtain ⟨hd, hpa, hps⟩ := hag hrc
    have hpause : (nextStep (action2rc (advance step t) i).1).action = .pause := hna.trans hpa
    refine ⟨hns.trans (hps.trans (has.trans hs)), .inr (.inr ⟨hpause, ?_⟩), ?_⟩
    · rw [← hs, ← has]
      exact hd
    · exact settled_of_known (by rw [hpause]; rfl)

theorem resumeLoop_own (step : Step) (guest : ℕ → Guest) (k : ℕ) :
    ∀ (i : ℕ) (s : Chain) (rc : Rc), s.step = step → (0 < k → i + k = s.nfilters) →
      LoopState step s i k → (k = 0 → Settled s) →
      Extends s (resumeLoop step guest k i s rc).1 ∧ Settled (resumeLoop step guest k i s rc).1 ∧
        (resumeLoop step guest k i s rc).1.nfilters = s.nfilters := by
  induction k with
  | zero => intro i s rc _ _ _ hz; exact ⟨.of_eq rfl, hz rfl, rfl⟩
  | succ k ih =>
    intro i s rc hstep hik hl _
    have hn : i + (k + 1) = s.nfilters := hik (Nat.succ_pos _)
    have hi : i < s.nfilters := by omega
    have hacc : Extends s { s with trace := s.trace ++ [.access i] } :=
      ⟨[.access i], rfl, by simp [callback]⟩
    have hknown : s.execIndex = i ∨ nyiAction s.action = false := by
      rcases hl with ⟨h, -⟩ | ⟨h, -⟩ | ⟨h, -⟩
      · exact absurd h (by omega)
      · exact .inl h
      · exact .inr (by simp [h, nyiAction])
    obtain ⟨hc, hcn, hcs, hok, -⟩ :=
      action2rc_own (s := { s with trace := s.trace ++ [.access i] }) (i := i) hi hknown
    simp only [resumeLoop]
    split
    · rename_i hrc
      exact ⟨hacc.trans hc, hcs hrc, hcn⟩
    · rename_i hrc
      obtain ⟨heq, hentry, hact⟩ := hok (not_not.mp hrc)
      -- a pending `PAUSE` has been answered above
      obtain ⟨hx, hdone⟩ : s.execIndex = i ∧ (step = .done → Settled s) := by
        rcases hl with ⟨h, -⟩ | h | ⟨h, hd⟩
        · exact absurd h (by omega)
        · exact h
        · exact absurd (not_not.mp hrc) (action2rc_pending h (by rw [hstep]; exact hd))
      split
      · rename_i hskip
        rw [heq]
        have hd : step = .done := by simp at hskip; exact hskip.1
        exact ⟨hacc, hdone hd, rfl⟩
      · rw [heq]
        have hr := runStep_own (s := { s with trace := s.trace ++ [.access i] }) hx step (guest i)
        obtain ⟨hrn, hri, hrun⟩ :=
          runStep_frame { s with trace := s.trace ++ [.access i] } i step (guest i)
        generalize runStep { s with trace := s.trace ++ [.access i] } i step (guest i) = r
          at hr hrn hri hrun ⊢
        have hset : Extends s (setEcode r.1 i r.2) := (hacc.trans hr).trans (.of_eq rfl)
        have hsn : (setEcode r.1 i r.2).nfilters = s.nfilters := (setEcode_nfilters _ _ _).trans hrn
        split
        · rename_i herr
          refine ⟨hset, settled_setEcode (hrn ▸ hi) (hri.trans hx) ?_, hsn⟩
          exact Option.isSome_iff_ne_none.mp herr
        · rename_i hnone
          obtain ⟨hrs, hra⟩ := hrun (by simpa using hnone)
          have hnext : step = .done → nyiAction (setEcode r.1 i r.2).action = false := by
            intro hd
            show nyiAction r.1.action = false
            rw [hra, hd]
            apply nextAction_done_known
            by_contra hny
            -- the entry that is called has no error
            obtain ⟨e, he, hec⟩ := hdone hd (by simpa using hny)
            obtain ⟨e', he', hec'⟩ := hentry
            rw [hx] at he
            exact hec (Option.some.inj (he.symm.trans he') ▸ hec')
          obtain ⟨hae, han, has, hgo⟩ :=
            advance_own (t := setEcode r.1 i r.2) (hri.trans hx) hrs (hn.trans hsn.symm) hnext
          generalize action2rc (advance step (setEcode r.1 i r.2)) i = c at hae han has hgo ⊢
          split
          · rename_i hstop
            exact ⟨hset.trans hae, has hstop.1, han.trans hsn⟩
          · rename_i hcont
            have hrc2 : c.2 = .ok ∨ c.2 = .again := by
              by_contra hne
              exact hcont (not_or.mp hne)
            obtain ⟨hns, hls, hset'⟩ := hgo hrc2
            have hnn : (nextStep c.1).nfilters = s.nfilters :=
              (nextStep_frame c.1).1.trans (han.trans hsn)
            obtain ⟨h1, h2, h3⟩ := ih (i + 1) (nextStep c.1) c.2 hns (fun hk => by omega) hls
              (fun _ => hset')
            exact ⟨((hset.trans hae).trans (nextStep_extends _)).trans h1, h2, h3.trans hnn⟩

/-! ### Calls -/

theorem resume_own {s : Chain} (h : Settled s) (step : Step) (guest : ℕ → Guest) :
    Extends s (resume s step guest).1 ∧ Settled (resume s step guest).1 := by
  unfold resume
  cases he : enterStep s step with
  | none => exact ⟨.of_eq rfl, h⟩
  | some t =>
    rcases enterStep_eq he with rfl | ⟨hs, rfl⟩
    · obtain ⟨h1, h2, -⟩ := resumeLoop_own step guest (s.nfilters - s.execIndex) s.execIndex
        { s with step := step } .ok rfl (fun hk => by show _ = s.nfilters; omega)
        (.inr (.inl ⟨rfl, fun _ => h⟩)) (fun _ => h)
      exact ⟨.trans (.of_eq rfl) h1, h2⟩
    · -- a chain without entries has nothing to settle
      have hz : s.nfilters - 0 = 0 → Settled { s with step := step, execIndex := 0 } := by
        intro hz hn
        obtain ⟨e, hget, -⟩ := h hn
        have hlt : s.execIndex < s.nfilters := (List.getElem?_eq_some_iff.mp hget).1
        omega
      obtain ⟨h1, h2, -⟩ := resumeLoop_own step guest (s.nfilters - 0) 0
        { s with step := step, execIndex := 0 } .ok rfl (fun _ => by show _ = s.nfilters; omega)
        (.inr (.inl ⟨rfl, fun hd => absurd (hs.symm.trans hd) (by simp)⟩)) hz
      exact ⟨.trans (.of_eq rfl) h1, h2⟩

theorem opHandler_own {s : Chain} (h : Settled s) (phase : Phase) (guest : ℕ → Guest) :
    Extends s (opHandler s phase guest).1 ∧ Settled (opHandler s phase guest).1 := by
  unfold opHandler
  cases phaseStep phase with
  | none => exact ⟨.of_eq rfl, h⟩
  | some step =>
    obtain ⟨h1, h2⟩ := resume_own (s := { s with phase := phase }) h step guest
    exact ⟨.trans (.of_eq rfl) h1, h2⟩

theorem afterCallback_own (s : Chain) (k : ℕ) (pending resumes : Bool) (guest : ℕ → Guest) :
    Extends s (afterCallback s k pending resumes guest).1 ∧
      Settled (afterCallback s k pending resumes guest).1 := by
  unfold afterCallback
  split
  · exact ⟨.of_eq rfl, settled_of_known rfl⟩
  · split
    · obtain ⟨h1, h2⟩ :=
        resume_own (s := { s with action := .cont }) (settled_of_known rfl) s.step guest
      exact ⟨.trans (.of_eq rfl) h1, h2⟩
    · exact ⟨.of_eq rfl, settled_of_known rfl⟩

def Outside (s : Chain) (c : Call) (r : Ran) : Prop :=
  match c with
  | .dispatched k _ g _ _ => CallbackIn s k g r
  | .foreign k g _ _ => CallbackIn s k g r
  | _ => False

/-- A call runs at most one callback outside of the loop, at its beginning. -/
def CallTrace (s : Chain) (c : Call) (s' : Chain) : Prop :=
  ∃ first rest, s'.trace = s.trace ++ first ++ rest ∧
    (∀ e ∈ rest, ∀ r, callback e = some r → OwnEntry r) ∧
    (first = [] ∨ ∃ e r, first = [e] ∧ callback e = some r ∧ Outside s c r)

theorem callTrace_of_extends {s s' : Chain} (c : Call) (h : Extends s s') : CallTrace s c s' := by
  obtain ⟨evs, htrace, hown⟩ := h
  exact ⟨[], evs, by rw [htrace, List.append_nil], hown, .inl rfl⟩

theorem callTrace_of_callback {s s' t : Chain} {c : Call} {k : ℕ} {g : Guest} {evs : List Event}
    (htrace : t.trace = s.trace ++ evs)
    (hevs : evs = [] ∨ ∃ e r, evs = [e] ∧ callback e = some r ∧ CallbackIn s k g r)
    (hout : ∀ r, CallbackIn s k g r → Outside s c r) (h : Extends t s') : CallTrace s c s' := by
  obtain ⟨rest, hrest, hown⟩ := h
  refine ⟨evs, rest, by rw [hrest, htrace], hown, ?_⟩
  rcases hevs with hevs | ⟨e, r, hevs, hr, hin⟩
  · exact .inl hevs
  · exact .inr ⟨e, r, hevs, hr, hout r hin⟩

theorem callbackIn_setEcode {s : Chain} {k : ℕ} {g : Guest} {r : Ran} {ecode : Option Err}
    (h : CallbackIn (setEcode s k ecode) k g r) : CallbackIn s k g r := by
  obtain ⟨pwexec, hp, hreach, hi, he, hictx, ht⟩ := h
  obtain ⟨pw, hpw, rfl⟩ : ∃ pw, s.pwexecs[k]? = some pw ∧ { pw with ecode := ecode } = pwexec := by
    simpa [setEcode] using hp
  refine ⟨pw, hpw, hreach, hi, he, hictx, ?_⟩
  rw [ht]
  simp only [ictxAt, setIctx, setEcode, List.getElem?_modify]
  cases s.pwexecs[s.execIndex]? with
  | none => rfl
  | some q =>
    by_cases hk : k = s.execIndex
    · simp [hk]
    · simp [hk]

theorem dispatchResume_trace (s : Chain) (k : ℕ) (failed : Bool) (g : Guest) (pending : Bool)
    (guest : ℕ → Guest) :
    CallTrace s (.dispatched k failed g pending guest) (dispatchResume s k failed g pending guest).1 ∧
      Settled (dispatchResume s k failed g pending guest).1 := by
  simp only [dispatchResume]
  generalize hs : (if (g.trapped && !failed) = true then setEcode s k (some .instanceTrapped)
    else s) = s'
  have htr : s'.trace = s.trace := by
    rw [← hs]
    split
    · rfl
    · rfl
  obtain ⟨evs, htrace, hevs⟩ := runStep_trace { s' with phase := .background } k .dispatchResponse g
  generalize runStep { s' with phase := .background } k .dispatchResponse g = q at htrace ⊢
  generalize ht : (if q.2.isSome = true then q.1 else { q.1 with step := s'.step }) = t
  have htt : t.trace = q.1.trace := by
    rw [← ht]
    split
    · rfl
    · rfl
  obtain ⟨hext, hset⟩ :=
    afterCallback_own t k pending (!(failed || g.trapped || q.2.isSome)) guest
  have hin : ∀ r, CallbackIn s' k g r → CallbackIn s k g r := by
    intro r hr
    rw [← hs] at hr
    split at hr
    · exact callbackIn_setEcode hr
    · exact hr
  have hfirst : evs = [] ∨ ∃ e r, evs = [e] ∧ callback e = some r ∧ CallbackIn s k g r := by
    rcases hevs with hevs | ⟨e, r, hevs, hr, hcb⟩
    · exact .inl hevs
    · exact .inr ⟨e, r, hevs, hr, hin r hcb⟩
  have hgrown : t.trace = s.trace ++ evs := by rw [htt, htrace, ← htr]
  exact ⟨callTrace_of_callback hgrown hfirst (fun r hr => hr) hext, hset⟩

theorem foreignCallback_trace (s : Chain) (k : ℕ) (g : Guest) (pending : Bool)
    (guest : ℕ → Guest) :
    CallTrace s (.foreign k g pending guest) (foreignCallback s k g pending guest).1 ∧
      Settled (foreignCallback s k g pending guest).1 := by
  simp only [foreignCallback]
  obtain ⟨evs, htrace, hevs⟩ := runStep_trace { s with phase := .background } k .foreignCallback g
  generalize runStep { s with phase := .background } k .foreignCallback g = q at htrace ⊢
  obtain ⟨hext, hset⟩ := afterCallback_own { q.1 with step := s.step } k pending true guest
  exact ⟨callTrace_of_callback htrace hevs (fun r hr => hr) hext, hset⟩

theorem callStep_trace {s : Chain} (h : Settled s) (c : Call) :
    CallTrace s c (callStep s c).1 ∧ Settled (callStep s c).1 := by
  cases c with
  | handler phase guest =>
    obtain ⟨h1, h2⟩ := opHandler_own h phase guest
    exact ⟨callTrace_of_extends _ h1, h2⟩
  | bodyFilter guest =>
    simp only [callStep, bodyFilterResume]
    split
    · exact ⟨callTrace_of_extends _ (.of_eq rfl), h⟩
    · obtain ⟨h1, h2⟩ :=
        opHandler_own (s := { s with action := .cont }) (settled_of_known rfl) .bodyFilter guest
      exact ⟨callTrace_of_extends _ (.trans (.of_eq rfl) h1), h2⟩
  | buffered => exact ⟨callTrace_of_extends _ (.of_eq rfl), h⟩
  | dispatching k => exact ⟨callTrace_of_extends _ (.of_eq rfl), settled_of_known rfl⟩
  | upstream step guest =>
    obtain ⟨h1, h2⟩ := resume_own (s := { s with phase := .background }) h step guest
    exact ⟨callTrace_of_extends _ (.trans (.trans (.of_eq rfl) h1) (.of_eq rfl)), h2⟩
  | dispatched k failed g pending guest => exact dispatchResume_trace s k failed g pending guest
  | foreign k g pending guest => exact foreignCallback_trace s k g pending guest

end NgxWasm.ProxyWasm.ResumeCallback
