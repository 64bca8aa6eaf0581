import NgxWasm.ProxyWasm.ResumeEntry

/-!
# Steps without errors

A step whose filters only continue or pause runs a stretch of the chain, from
where it is entered up to the end or to the filter that pauses.
-/

namespace NgxWasm.ProxyWasm.ResumeSweep
open NgxWasm.ProxyWasm.Resume NgxWasm.ProxyWasm.ResumeIndex NgxWasm.ProxyWasm.ResumeEntry

/-- The callback succeeds and returns `CONTINUE` or `PAUSE`. -/
structure Answers (g : Guest) : Prop where
  rc : g.rc = .ok
  restores : Restores g
  ret : g.ret = .cont ∨ g.ret = .pause
  host : g.host ≠ some .done

/-- No entry has an error, and the pending action is one that a guest returned. -/
structure Free (n : ℕ) (s : Chain) : Prop where
  size : s.nfilters = n
  ecodes : ecodeAt s = fun _ => none
  action : s.action = .cont ∨ s.action = .pause

def ranOf : Event → Option (Step × ℕ)
  | .ran r => some (r.step, r.i)
  | _ => none

/-- The callbacks that ran, in order. -/
def ran (s : Chain) : List (Step × ℕ) := s.trace.filterMap ranOf

theorem ran_access (s : Chain) (i : ℕ) :
    ran { s with trace := s.trace ++ [.access i] } = ran s := by
  simp [ran, ranOf]

theorem ran_visited {s t : Chain} {i : ℕ} {step : Step} (h : Visited s i step t) :
    ran t = ran s ++ [(step, i)] := by
  obtain ⟨r, rfl, rfl, htrace⟩ := h.traced
  simp [ran, htrace, ranOf]

theorem free_fields {n : ℕ} {s t : Chain} (h : Free n s) (hp : t.pwexecs = s.pwexecs)
    (ha : t.action = .cont ∨ t.action = .pause) : Free n t := by
  refine ⟨?_, ?_, ha⟩
  · exact (congrArg List.length hp).trans h.size
  · rw [← h.ecodes]
    funext i
    simp only [ecodeAt, hp]

/-! ### Answers -/

/-- What the callback leaves as the pending action. -/
def answer (step : Step) (g : Guest) : Action := if returnsAction step then g.ret else .cont

theorem host_ne_done {g : Guest} (h : Answers g) {old : Action} (hold : old ≠ .done) :
    g.host.getD old ≠ .done := by
  cases hh : g.host with
  | none => exact hold
  | some a =>
    intro ha
    exact h.host (by rw [hh]; exact congrArg some ha)

theorem nextAction_returned {step : Step} {g : Guest} (h : Answers g) {old : Action}
    (hold : old ≠ .done) : nextAction step old g = returnedAction step old g := by
  simp only [nextAction]
  exact if_neg fun hd => host_ne_done h hold hd.2

theorem stepRc_answers {step : Step} {g : Guest} (h : Answers g) (hs : step ≠ .reqTrailers) :
    stepRc step g = .ok := by
  cases step with
  | reqTrailers => exact absurd rfl hs
  | log | done => rfl
  | reqHeaders | reqBody | respHeaders | respBody | respTrailers | tick | dispatchResponse
  | foreignCallback | upstreamSelect | nextUpstream | upstreamInfo => exact h.rc

theorem nextAction_answers {step : Step} {g : Guest} (h : Answers g) (hs : step ≠ .reqTrailers) :
    nextAction step .cont g = answer step g := by
  rw [nextAction_returned h (by decide), returnedAction, answer, stepRc_answers h hs]
  simp

theorem answer_cases (step : Step) {g : Guest} (h : Answers g) :
    answer step g = .cont ∨ answer step g = .pause := by
  unfold answer
  split
  · exact h.ret
  · exact .inl rfl

/-- Where the answer of entry `i` leaves `exec_index`. -/
def nextIndex (step : Step) (a : Action) (i : ℕ) : ℕ :=
  if step = .respBody ∧ a = .pause then i else i + 1

theorem advance_answered (step : Step) {s : Chain} {a : Action} (ha : s.action = a)
    (h : a = .cont ∨ a = .pause) :
    advance step s = { s with execIndex := nextIndex step a s.execIndex } := by
  obtain ⟨pwexecs, execIndex, action, _⟩ := s
  change action = a at ha
  subst ha
  rcases h with rfl | rfl
  · simp [advance, nextIndex]
  · by_cases hbody : step = .respBody
    · simp [advance, nextIndex, hbody]
    · simp [advance, nextIndex, hbody]

/-! ### One entry -/

/-- The steps that the chain runs before the end of the request. -/
structure Walks (step : Step) : Prop where
  done : step ≠ .done
  trailers : step ≠ .reqTrailers

/-- What an entry of the step leaves as it was. -/
structure Kept (n : ℕ) (step : Step) (s t : Chain) : Prop where
  free : Free n t
  atStep : t.step = step
  completed : t.lastCompletedStep = s.lastCompletedStep
  phase : t.phase = s.phase
  buffering : s.phase ≠ .bodyFilter → t.respBuffering = s.respBuffering

section Entry

variable {n : ℕ} {step : Step} {guest : ℕ → Guest} {s : Chain} {i : ℕ} (k : ℕ) (rc : Rc)

/-- A pending `PAUSE` keeps the step from the entry. -/
theorem stepLoop_yields (h : Free n s) (hi : i < n) (hs : s.step = step) (hstep : Walks step)
    (hp : pausable s.phase = true) (ha : s.action = .pause) :
    ∃ t, resumeLoop step guest (k + 1) i s rc = (t, .again) ∧ Kept n step s t ∧
      t.execIndex = s.execIndex ∧ ran t = ran s := by
  set u : Chain := { s with trace := s.trace ++ [.access i] } with hu
  have hui : i < u.nfilters := h.size.symm ▸ hi
  have hrc := (action2rc_free (s := u) hui (congrFun h.ecodes i)).2.2.2 (hs ▸ hstep.done) ha hp
  refine ⟨{ u with respBuffering := u.respBuffering || u.phase = .bodyFilter }, ?_, ?_, rfl,
    ran_access s i⟩
  · simp [resumeLoop, ← hu, hrc]
  · refine ⟨⟨h.size, h.ecodes, h.action⟩, hs, rfl, rfl, fun hphase => ?_⟩
    simp [hu, hphase]

/-- The entry runs the step; what it answers decides where `exec_index` goes. -/
theorem stepLoop_visits (h : Free n s) (hi : i < n) (hx : s.execIndex = i) (hs : s.step = step)
    (hstep : Walks step) (hp : pausable s.phase = true) (ha : s.action = .cont)
    (hg : Answers (guest i)) :
    ∃ v rc', resumeLoop step guest (k + 1) i s rc = resumeLoop step guest k (i + 1) (nextStep v) rc' ∧
      Kept n step s v ∧ v.action = answer step (guest i) ∧
      v.execIndex = nextIndex step (answer step (guest i)) i ∧ ran v = ran s ++ [(step, i)] ∧
      (answer step (guest i) = .cont → rc' = .ok ∧ v.respBuffering = s.respBuffering) ∧
      (answer step (guest i) = .pause → rc' = .again) := by
  set u : Chain := { s with trace := s.trace ++ [.access i] } with hu
  have hui : i < u.nfilters := h.size.symm ▸ hi
  have hue : ecodeAt u i = none := congrFun h.ecodes i
  have hok : action2rc u i = (u, .ok) := (action2rc_free hui hue).2.1 (hs ▸ hstep.done) ha
  obtain ⟨t, hrun, hvis, hact⟩ :=
    runStep_visits step hui hue hg.restores (stepRc_answers hg hstep.trailers)
  rw [show u.action = .cont from ha, nextAction_answers hg hstep.trailers] at hact
  have hti : ecodeAt t i = none := by rw [hvis.ecodes, hue]
  have htx : t.execIndex = i := hvis.index.trans hx
  set v : Chain :=
    { setEcode t i none with execIndex := nextIndex step (answer step (guest i)) i } with hv
  have hvfree : Free n v := by
    constructor
    · exact (setEcode_nfilters t i none).trans (hvis.size.trans h.size)
    · exact (setEcode_none hti).trans (hvis.ecodes.trans h.ecodes)
    · exact hact ▸ answer_cases step hg
  have hvran : ran v = ran s ++ [(step, i)] := by
    have hran : ran t = ran u ++ [(step, i)] := ran_visited hvis
    rw [hu, ran_access] at hran
    exact hran
  have hadv : advance step (setEcode t i none) = v := by
    have hmove := advance_answered step (s := setEcode t i none) hact (answer_cases step hg)
    rw [show (setEcode t i none).execIndex = i from htx] at hmove
    exact hmove
  have hvi : i < v.nfilters := hvfree.size.symm ▸ hi
  have hvp : pausable v.phase = true := by
    rw [show v.phase = s.phase from hvis.phase]
    exact hp
  have hfree := action2rc_free hvi (congrFun hvfree.ecodes i)
  have hvs : v.step ≠ .done := by
    rw [show v.step = step from hvis.atStep]
    exact hstep.done
  rcases answer_cases step hg with hret | hret
  · have hgo : action2rc v i = (v, .ok) := hfree.2.1 hvs (hact.trans hret)
    have hkept : Kept n step s v :=
      ⟨hvfree, hvis.atStep, hvis.completed, hvis.phase, fun _ => hvis.buffering⟩
    refine ⟨v, .ok, ?_, hkept, hact, rfl, hvran, ?_, ?_⟩
    · simp [resumeLoop, ← hu, hok, hstep.done, hrun, hadv, hgo]
    · exact fun _ => ⟨rfl, hvis.buffering⟩
    · intro hpause
      rw [hret] at hpause
      exact absurd hpause (by decide)
  · have hgo := hfree.2.2.2 hvs (hact.trans hret) hvp
    have hkept : Kept n step s
        { v with respBuffering := v.respBuffering || v.phase = .bodyFilter } := by
      refine ⟨free_fields hvfree rfl hvfree.action, hvis.atStep, hvis.completed, hvis.phase, ?_⟩
      intro hphase
      rw [← show v.phase = s.phase from hvis.phase] at hphase
      rw [← show v.respBuffering = s.respBuffering from hvis.buffering]
      simp [hphase]
    refine ⟨{ v with respBuffering := v.respBuffering || v.phase = .bodyFilter }, .again, ?_, hkept,
      hact, rfl, hvran, ?_, fun _ => rfl⟩
    · simp [resumeLoop, ← hu, hok, hstep.done, hrun, hadv, hgo]
    · intro hcont
      rw [hret] at hcont
      exact absurd hcont (by decide)

end Entry

/-! ### One step -/

/-- Entries `i` to `m - 1` ran the step. It is completed, or stopped in front of
the next entry, or (in the body step) stays at the entry that paused. -/
structure Swept (n : ℕ) (step : Step) (guest : ℕ → Guest) (i m : ℕ) (s : Chain)
    (r : Chain × Rc) : Prop where
  free : Free n r.1
  atStep : r.1.step = step
  ran : ran r.1 = ran s ++ (List.range' i (m - i)).map (Prod.mk step)
  left : m = n ∧ r.1.execIndex = 0 ∧ r.1.lastCompletedStep = step.toNat ∨
    m < n ∧ r.1.execIndex = m ∧ r.1.lastCompletedStep = s.lastCompletedStep ∧ r.2 = .again ∨
    step = .respBody ∧ i < m ∧ r.1.execIndex + 1 = m ∧
      r.1.lastCompletedStep = s.lastCompletedStep ∧ r.2 = .again
  rc : r.2 = .ok ∨ r.2 = .again
  entered : s.action = .cont → i < m
  held : s.action = .pause → m = i ∧ r.1.execIndex = s.execIndex
  buffering : s.phase ≠ .bodyFilter → r.1.respBuffering = s.respBuffering
  quiet : s.action = .cont → (∀ j, answer step (guest j) = .cont) →
    m = n ∧ r.1.execIndex = 0 ∧ r.1.respBuffering = s.respBuffering

section Sweep

variable {n : ℕ} {step : Step} {guest : ℕ → Guest} {s : Chain} {i : ℕ} (k : ℕ) (rc : Rc)

theorem swept_yields (h : Free n s) (hi : i < n) (hx : s.execIndex = i) (hs : s.step = step)
    (hstep : Walks step) (hp : pausable s.phase = true) (ha : s.action = .pause) :
    Swept n step guest i i s (resumeLoop step guest (k + 1) i s rc) := by
  obtain ⟨t, hloop, hkept, htx, hran⟩ := stepLoop_yields k rc h hi hs hstep hp ha
  rw [hloop]
  have hne : s.action ≠ .cont := by rw [ha]; decide
  constructor
  · exact hkept.free
  · exact hkept.atStep
  · simp [hran]
  · exact .inr (.inl ⟨hi, htx.trans hx, hkept.completed, rfl⟩)
  · exact .inr rfl
  · exact fun hc => absurd hc hne
  · exact fun _ => ⟨rfl, htx⟩
  · exact hkept.buffering
  · exact fun hc => absurd hc hne

/-- The entry that pauses in the body step is entered again. -/
theorem swept_stays (h : Free n s) (hik : i + (k + 1) = n) (hx : s.execIndex = i) (hs : s.step = .respBody)
    (hp : pausable s.phase = true) (ha : s.action = .cont) (hg : Answers (guest i))
    (hpause : answer .respBody (guest i) = .pause) :
    Swept n .respBody guest i (i + 1) s (resumeLoop .respBody guest (k + 1) i s rc) := by
  have hi : i < n := by omega
  have hwalks : Walks .respBody := ⟨by decide, by decide⟩
  obtain ⟨v, rc', hloop, hkept, hva, hvx, hran, -, hrc⟩ :=
    stepLoop_visits k rc h hi hx hs hwalks hp ha hg
  rw [hpause] at hva hvx
  have hvp : pausable v.phase = true := hkept.phase.symm ▸ hp
  have hnext : nextStep v = v := by
    refine if_neg ?_
    rw [hkept.free.size, hvx]
    exact Nat.not_le.mpr hi
  rw [hnext, hrc hpause] at hloop
  have hloud : ¬ ∀ j, answer .respBody (guest j) = .cont := by
    intro hall
    rw [hall i] at hpause
    exact absurd hpause (by decide)
  have hne : s.action ≠ .pause := by rw [ha]; decide
  have hstays : ∀ t : Chain, Kept n .respBody v t → t.execIndex = i → ran t = ran v →
      Swept n .respBody guest i (i + 1) s (t, .again) := by
    intro t ht htx htr
    constructor
    · exact ht.free
    · exact ht.atStep
    · rw [htr, hran]
      simp
    · exact .inr (.inr ⟨rfl, Nat.lt_succ_self i, congrArg (· + 1) htx,
        ht.completed.trans hkept.completed, rfl⟩)
    · exact .inr rfl
    · exact fun _ => Nat.lt_succ_self i
    · exact fun hc => absurd hc hne
    · intro hphase
      exact (ht.buffering (hkept.phase.symm ▸ hphase)).trans (hkept.buffering hphase)
    · exact fun _ hall => absurd hall hloud
  rw [hloop]
  cases k with
  | zero =>
    have hself : Kept n .respBody v v := ⟨hkept.free, hkept.atStep, rfl, rfl, fun _ => rfl⟩
    exact hstays v hself hvx rfl
  | succ k =>
    have hnexti : i + 1 < n := by omega
    obtain ⟨t, hyield, hkept', htx, hran'⟩ :=
      stepLoop_yields k .again hkept.free hnexti hkept.atStep hwalks hvp hva
    rw [hyield]
    exact hstays t hkept' (htx.trans hvx) hran'

end Sweep

theorem nextIndex_succ {step : Step} {a : Action} (h : ¬ (step = .respBody ∧ a = .pause)) (i : ℕ) :
    nextIndex step a i = i + 1 := if_neg h

theorem stepLoop_sweeps {n : ℕ} {step : Step} (guest : ℕ → Guest) (hstep : Walks step)
    (hg : ∀ i, Answers (guest i)) (k : ℕ) :
    ∀ (i : ℕ) (s : Chain) (rc : Rc), Free n s → s.step = step → pausable s.phase = true →
      s.execIndex = i → i + (k + 1) = n →
      ∃ m, i ≤ m ∧ m ≤ n ∧ Swept n step guest i m s (resumeLoop step guest (k + 1) i s rc) := by
  induction k with
  | zero =>
    intro i s rc h hs hp hx hik
    have hi : i < n := by omega
    rcases h.action with ha | ha
    · by_cases hstay : step = .respBody ∧ answer step (guest i) = .pause
      · obtain ⟨rfl, hpause⟩ := hstay
        exact ⟨i + 1, by omega, by omega, swept_stays 0 rc h hik hx hs hp ha (hg i) hpause⟩
      · obtain ⟨v, rc', hloop, hkept, -, hvx, hran, hcont, hpause⟩ :=
          stepLoop_visits 0 rc h hi hx hs hstep hp ha (hg i)
        rw [nextIndex_succ hstay] at hvx
        have hnext : nextStep v = { v with lastCompletedStep := v.step.toNat, execIndex := 0 } :=
          if_pos (by rw [hkept.free.size, hvx]; omega)
        rw [hnext] at hloop
        refine ⟨n, by omega, le_rfl, ?_⟩
        rw [hloop]
        constructor
        · exact free_fields hkept.free rfl hkept.free.action
        · exact hkept.atStep
        · rw [show n - i = 1 by omega]
          exact hran.trans (by simp)
        · exact .inl ⟨rfl, rfl, congrArg Step.toNat hkept.atStep⟩
        · rcases answer_cases step (hg i) with hret | hret
          · exact .inl (hcont hret).1
          · exact .inr (hpause hret)
        · exact fun _ => hi
        · exact fun hc => absurd (ha.symm.trans hc) (by decide)
        · exact hkept.buffering
        · exact fun _ hall => ⟨rfl, rfl, (hcont (hall i)).2⟩
    · exact ⟨i, le_rfl, by omega, swept_yields 0 rc h hi hx hs hstep hp ha⟩
  | succ k ih =>
    intro i s rc h hs hp hx hik
    have hi : i < n := by omega
    rcases h.action with ha | ha
    · by_cases hstay : step = .respBody ∧ answer step (guest i) = .pause
      · obtain ⟨rfl, hpause⟩ := hstay
        exact ⟨i + 1, by omega, by omega, swept_stays (k + 1) rc h hik hx hs hp ha (hg i) hpause⟩
      · obtain ⟨v, rc', hloop, hkept, hva, hvx, hran, hcont, hpause⟩ :=
          stepLoop_visits (k + 1) rc h hi hx hs hstep hp ha (hg i)
        rw [nextIndex_succ hstay] at hvx
        have hnext : nextStep v = v := if_neg (by rw [hkept.free.size, hvx]; omega)
        rw [hnext] at hloop
        have hvp : pausable v.phase = true := hkept.phase.symm ▸ hp
        obtain ⟨m, him, hmn, hw⟩ := ih (i + 1) v rc' hkept.free hkept.atStep hvp hvx (by omega)
        refine ⟨m, by omega, hmn, ?_⟩
        rw [hloop]
        constructor
        · exact hw.free
        · exact hw.atStep
        · rw [hw.ran, hran, show m - i = (m - (i + 1)) + 1 by omega, List.range'_succ]
          simp
        · rw [← hkept.completed]
          rcases hw.left with hl | hl | ⟨hb, hlt, hl⟩
          · exact .inl hl
          · exact .inr (.inl hl)
          · exact .inr (.inr ⟨hb, by omega, hl⟩)
        · exact hw.rc
        · exact fun _ => by omega
        · exact fun hc => absurd (ha.symm.trans hc) (by decide)
        · intro hphase
          exact (hw.buffering (hkept.phase.symm ▸ hphase)).trans (hkept.buffering hphase)
        · intro _ hall
          obtain ⟨hm, h0, hb⟩ := hw.quiet (hva.trans (hall i)) hall
          exact ⟨hm, h0, hb.trans (hcont (hall i)).2⟩
    · exact ⟨i, le_rfl, by omega, swept_yields (k + 1) rc h hi hx hs hstep hp ha⟩

/-- The step as the chain `u` enters it. -/
theorem resume_sweeps {n : ℕ} {s u : Chain} {step : Step} {guest : ℕ → Guest} (hstep : Walks step)
    (henter : enterStep s step = some u) (h : Free n u) (hus : u.step = step)
    (hp : pausable u.phase = true) (hg : ∀ i, Answers (guest i)) (hx : u.execIndex < n) :
    ∃ m, u.execIndex ≤ m ∧ m ≤ n ∧
      Swept n step guest u.execIndex m u (resume s step guest) := by
  have hk : u.nfilters - u.execIndex = (n - u.execIndex - 1) + 1 := by
    rw [h.size]
    omega
  have hres : resume s step guest =
      resumeLoop step guest (u.nfilters - u.execIndex) u.execIndex u .ok := by
    simp only [resume, henter]
  rw [hres, hk]
  exact stepLoop_sweeps guest hstep hg (n - u.execIndex - 1) u.execIndex u .ok h hus hp rfl (by omega)

/-! ### Completions -/

/-- What the callback of a completed dispatch or foreign call leaves of a chain. -/
structure Completed (n : ℕ) (s t : Chain) : Prop where
  free : Free n t
  atStep : t.step = s.step
  index : t.execIndex = s.execIndex
  completed : t.lastCompletedStep = s.lastCompletedStep
  buffering : t.respBuffering = s.respBuffering
  phase : t.phase = .background
  ran : ∃ l, ran t = ran s ++ l ∧ ∀ p ∈ l, p.1 = .dispatchResponse ∨ p.1 = .foreignCallback

theorem background_completes {n : ℕ} {s : Chain} (h : Free n s) (k : ℕ) {step : Step} {g : Guest}
    (hstep : step = .dispatchResponse ∨ step = .foreignCallback) (hg : Answers g) :
    let r := runStep { s with phase := .background } k step g
    Completed n s { r.1 with step := s.step } ∧ (r.2.isSome → Completed n s r.1) := by
  set u : Chain := { s with phase := .background } with hu
  by_cases hk : k < n
  · have hku : k < u.nfilters := h.size.symm ▸ hk
    have hue : ecodeAt u k = none := congrFun h.ecodes k
    have hne : step ≠ .reqTrailers := by
      rcases hstep with rfl | rfl <;> decide
    obtain ⟨t, hrun, hvis, hact⟩ := runStep_visits step hku hue hg.restores (stepRc_answers hg hne)
    have hold : u.action ≠ .done := by
      rcases h.action with ha | ha
      · rw [show u.action = .cont from ha]
        decide
      · rw [show u.action = .pause from ha]
        decide
    have hkept : t.action = s.action := by
      rw [hact, nextAction_returned hg hold]
      rcases hstep with rfl | rfl <;> simp [returnedAction, returnsAction, hu]
    simp only [hrun]
    refine ⟨⟨⟨?_, ?_, ?_⟩, rfl, hvis.index, hvis.completed, hvis.buffering, hvis.phase, ?_⟩, by simp⟩
    · exact hvis.size.trans h.size
    · exact hvis.ecodes.trans h.ecodes
    · show t.action = .cont ∨ t.action = .pause
      rw [hkept]
      exact h.action
    · have hran : ran t = ran u ++ [(step, k)] := ran_visited hvis
      exact ⟨[(step, k)], hran, by simpa using hstep⟩
  · have hnone : u.pwexecs[k]? = none := by
      apply List.getElem?_eq_none
      exact (h.size.symm ▸ Nat.le_of_not_lt hk : s.nfilters ≤ k)
    have hrun : runStep u k step g = (u, some .unknown) := by
      simp [runStep, hnone]
    have hsame : Completed n s u :=
      ⟨free_fields h rfl h.action, rfl, rfl, rfl, rfl, rfl, [], (List.append_nil _).symm, by simp⟩
    simp only [hrun]
    exact ⟨hsame, fun _ => hsame⟩

theorem dispatchResume_completes {n : ℕ} {s : Chain} (h : Free n s) (k : ℕ) {failed : Bool}
    {g : Guest} (pending : Bool) (guest : ℕ → Guest) (hf : failed = true ∨ g.trapped = false)
    (hg : Answers g) :
    ∃ t resumes, Completed n s t ∧ dispatchResume s k failed g pending guest =
      afterCallback t k pending resumes guest := by
  have hlive : (g.trapped && !failed) = false := by
    rcases hf with hf | hf <;> simp [hf]
  obtain ⟨hrestored, herr⟩ := background_completes h k (.inl rfl) hg
  simp only [dispatchResume, hlive, Bool.false_eq_true, if_false]
  generalize runStep { s with phase := .background } k .dispatchResponse g = r at hrestored herr ⊢
  by_cases he : r.2.isSome = true
  · rw [if_pos he]
    exact ⟨_, _, herr he, rfl⟩
  · rw [if_neg he]
    exact ⟨_, _, hrestored, rfl⟩

theorem foreignCallback_completes {n : ℕ} {s : Chain} (h : Free n s) (k : ℕ) {g : Guest}
    (pending : Bool) (guest : ℕ → Guest) (hg : Answers g) :
    ∃ t, Completed n s t ∧ foreignCallback s k g pending guest =
      afterCallback t k pending true guest :=
  ⟨_, (background_completes h k (.inr rfl) hg).1, rfl⟩

/-- A completion leaves a pending `PAUSE`, or goes on with the step that was in progress. -/
theorem afterCallback_cases (t : Chain) (k : ℕ) (pending resumes : Bool) (guest : ℕ → Guest) :
    (∃ rc, afterCallback t k pending resumes guest =
        ({ t with action := .pause, pausedBy := some k }, rc)) ∨
      (∃ rc, afterCallback t k pending resumes guest = ({ t with action := .cont }, rc)) ∨
      afterCallback t k pending resumes guest = resume { t with action := .cont } t.step guest := by
  unfold afterCallback
  split
  · exact .inl ⟨_, rfl⟩
  · split
    · exact .inr (.inr rfl)
    · exact .inr (.inl ⟨_, rfl⟩)

end NgxWasm.ProxyWasm.ResumeSweep
