import NgxWasm.ProxyWasm.ResumeEntry

/-!
# The end of a request (ngx_http_wasm_module.c, `ngx_http_wasm_log_handler`, `ngx_http_wasm_cleanup`)

A request ends with the log step and the done step, on whatever chain the
earlier steps left. Both visit the entries in order and stop at the first one
that cannot go on.
-/

namespace NgxWasm.ProxyWasm.ResumeEnd
open NgxWasm.Lib Run NgxWasm.ProxyWasm.Resume NgxWasm.ProxyWasm.ResumeIndex
open NgxWasm.ProxyWasm.ResumeEntry

def endRequest (s : Chain) (atLog atDone : ℕ → Guest) : Chain :=
  (opHandler (opHandler s .log atLog).1 .done atDone).1

/-- The calls that a chain gets while its request is alive. -/
def Live : Call → Prop
  | .handler phase _ => phase ≠ .log ∧ phase ≠ .done
  | .upstream step _ => step = .upstreamSelect ∨ step = .nextUpstream ∨ step = .upstreamInfo
  | _ => True

def isRun (step : Step) (i : ℕ) : Event → Bool
  | .ran r => r.step = step && r.i = i
  | _ => false

/-- How often entry `i` ran the step. -/
def runs (step : Step) (i : ℕ) (s : Chain) : ℕ := s.trace.countP (isRun step i)

/-- The entry has no error of its own, neither before the request ends nor when
the log step creates its context again. -/
def Sound (s : Chain) (atLog : ℕ → Guest) (i : ℕ) : Prop :=
  i < s.nfilters ∧ ecodeAt s i = none ∧ Restores (atLog i)

/-- The entry is logged once, and finalised once if it still has an instance. -/
def EndedOnce (s : Chain) (atLog atDone : ℕ → Guest) (i : ℕ) : Prop :=
  runs .log i (endRequest s atLog atDone) = 1 ∧
    ((atDone i).trapped = false → runs .done i (endRequest s atLog atDone) = 1)

/-- The log step goes on behind the entry. -/
def Passes (ecode : ℕ → Option Err) (atLog : ℕ → Guest) (i : ℕ) : Prop :=
  ecode i = none ∧ Restores (atLog i) ∧ (atLog i).host ≠ some .done

/-- Nothing is left behind that keeps the two steps from the entry: no pending
action, and no entry in their way at which they stop. -/
def EndsWell (s : Chain) (atLog atDone : ℕ → Guest) (i : ℕ) : Prop :=
  s.lastCompletedStep < Step.log.toNat ∧ s.action = .cont ∧ s.execIndex ≤ i ∧
    (∀ j, s.execIndex ≤ j → j < i → Passes (ecodeAt s) atLog j) ∧
    ((atDone i).trapped = false →
      (∀ j, s.execIndex ≤ j → j < s.nfilters → Passes (ecodeAt s) atLog j) ∧
      ∀ j < i, ecodeAt s j = none ∧ (atDone j).trapped = false)

/-! ### Counting -/

theorem countP_append_of_not {step : Step} {i : ℕ} (l : List Event) (e : Event)
    (h : isRun step i e = false) : (l ++ [e]).countP (isRun step i) = l.countP (isRun step i) := by
  simp [List.countP_append, h]

@[simp] theorem runs_access (step : Step) (i j : ℕ) (s : Chain) :
    runs step i { s with trace := s.trace ++ [.access j] } = runs step i s :=
  countP_append_of_not s.trace (.access j) rfl

theorem runs_ran (step : Step) (i : ℕ) (s : Chain) (r : Ran) (l : List Event)
    (hl : s.trace = l ++ [.ran r]) :
    runs step i s = l.countP (isRun step i) + if r.step = step ∧ r.i = i then 1 else 0 := by
  simp [runs, hl, List.countP_append, isRun]

@[simp] theorem runs_setEcode (step : Step) (i j : ℕ) (e : Option Err) (s : Chain) :
    runs step i (setEcode s j e) = runs step i s := rfl

/-! ### One callback -/

theorem nextAction_ends {step : Step} (hs : step = .log ∨ step = .done) (old : Action) (g : Guest) :
    nextAction step old g = if g.host = some .done then .done else old := by
  have hr : returnedAction step old g = old := by
    rcases hs with rfl | rfl <;> simp [returnedAction, returnsAction]
  simp only [nextAction, hr]
  cases hh : g.host with
  | none => simp
  | some a =>
    by_cases ha : a = .done
    · by_cases ho : old = .done <;> simp [ha, ho, eq_comm]
    · simp [ha]

theorem visited_runs {s t : Chain} {i : ℕ} {step : Step} (h : Visited s i step t) (st : Step)
    (j : ℕ) : runs st j t = runs st j s + if step = st ∧ i = j then 1 else 0 := by
  obtain ⟨r, rfl, rfl, htrace⟩ := h.traced
  exact runs_ran st j t r s.trace htrace

/-- A context that cannot be created again charges its own entry. -/
theorem runStep_gone {s : Chain} {i : ℕ} (step : Step) {g : Guest} (hi : i < s.nfilters)
    (hg : ¬ Restores g) :
    ∃ t e, runStep s i step g = (t, some e) ∧ t.execIndex = s.execIndex ∧
      t.nfilters = s.nfilters ∧ ∀ st j, runs st j t = runs st j s := by
  obtain ⟨e, hget, -⟩ := exists_entry hi
  obtain ⟨htr, hce⟩ : g.trapped = true ∧ g.createErr ≠ none := by
    simpa only [Restores, Classical.not_imp] using hg
  obtain ⟨⟨p, c⟩, hp⟩ := Option.ne_none_iff_exists'.mp hce
  refine ⟨createFailed s i g.ictx (p, c), c, ?_, ?_, ?_, ?_⟩
  · simp [runStep, hget, htr, hp]
  · cases p <;> rfl
  · cases p <;> simp [createFailed, Chain.nfilters, setEcode, setIctx]
  · intro st j
    cases p with
    | root | log => rfl
    | context => exact countP_append_of_not s.trace _ rfl

/-! ### One entry of the log step -/

section LogStep

variable {atLog : ℕ → Guest} {s : Chain} {i : ℕ} (k : ℕ) (rc : Rc)

/-- An entry with an error ends the step, and `exec_index` stays on it. -/
theorem logLoop_stuck (hi : i < s.nfilters) (hx : s.execIndex = i) (hs : s.step = .log)
    (ha : s.action = .cont) (hbad : ¬ (ecodeAt s i = none ∧ Restores (atLog i))) :
    ∃ t rc', resumeLoop .log atLog (k + 1) i s rc = (t, rc') ∧ t.nfilters = s.nfilters ∧
      t.execIndex = i ∧ ecodeAt t i ≠ none ∧ ∀ st j, runs st j t = runs st j s := by
  set u : Chain := { s with trace := s.trace ++ [.access i] } with hu
  have hcount : ∀ st j, runs st j u = runs st j s := fun st j => runs_access st j i s
  by_cases he : ecodeAt s i = none
  · have hg : ¬ Restores (atLog i) := fun hg => hbad ⟨he, hg⟩
    have hok : action2rc u i = (u, .ok) := (action2rc_free (s := u) hi he).2.1 (by simp [hu, hs]) ha
    obtain ⟨t, e, hrun, htx, htn, htc⟩ := runStep_gone (s := u) .log hi hg
    refine ⟨setEcode t i (some e), .http 500, ?_, ?_, ?_, ?_, ?_⟩
    · simp [resumeLoop, ← hu, hok, hrun]
    · rw [setEcode_nfilters, htn]
      rfl
    · exact htx.trans hx
    · have hlt : i < t.nfilters := htn ▸ hi
      rw [ecodeAt_setEcode, if_pos ⟨rfl, hlt⟩]
      exact Option.some_ne_none e
    · intro st j
      rw [runs_setEcode, htc, hcount]
  · obtain ⟨t, hrc, ht⟩ := action2rc_errored (s := u) hi he
    refine ⟨t, .http 500, by simp [resumeLoop, ← hu, hrc], ?_⟩
    rcases ht with rfl | rfl
    · exact ⟨rfl, hx, he, hcount⟩
    · refine ⟨setLogged_nfilters u i, hx, ?_, hcount⟩
      rw [ecodeAt_setLogged]
      exact he

/-- The entry is called; it ends the step if a host call of it wrote `DONE`. -/
theorem logLoop_called (hi : i < s.nfilters) (hx : s.execIndex = i) (hs : s.step = .log)
    (ha : s.action = .cont) (he : ecodeAt s i = none) (hg : Restores (atLog i)) :
    ∃ t, t.step = .log ∧ t.action = .cont ∧ t.nfilters = s.nfilters ∧ ecodeAt t = ecodeAt s ∧
      (∀ st j, runs st j t = runs st j s + if .log = st ∧ i = j then 1 else 0) ∧
      (((atLog i).host = some .done ∧ t.execIndex = i + 1 ∧
          resumeLoop .log atLog (k + 1) i s rc = (t, .done)) ∨
        ((atLog i).host ≠ some .done ∧ t.execIndex = (if s.nfilters ≤ i + 1 then 0 else i + 1) ∧
          resumeLoop .log atLog (k + 1) i s rc = resumeLoop .log atLog k (i + 1) t .ok)) := by
  set u : Chain := { s with trace := s.trace ++ [.access i] } with hu
  have hne : ∀ v : Chain, v.step = .log → v.step ≠ .done := fun v hv => by simp [hv]
  have hok : action2rc u i = (u, .ok) := (action2rc_free (s := u) hi he).2.1 (hne u hs) ha
  obtain ⟨t, hrun, hvis, hact⟩ := runStep_visits (s := u) .log hi he hg rfl
  rw [nextAction_ends (.inl rfl)] at hact
  have hte : ecodeAt t = ecodeAt s := hvis.ecodes
  have htn : t.nfilters = s.nfilters := hvis.size
  have htx : t.execIndex = i := hvis.index.trans hx
  have hcount : ∀ st j, runs st j t = runs st j s + if .log = st ∧ i = j then 1 else 0 := by
    intro st j
    rw [visited_runs hvis, hu, runs_access]
  set v : Chain := { setEcode t i none with execIndex := i + 1 } with hv
  have hvn : v.nfilters = s.nfilters := (setEcode_nfilters t i none).trans htn
  have hve : ecodeAt v = ecodeAt s := (setEcode_none (by rw [hte, he])).trans hte
  have hvi : ecodeAt v i = none := by rw [hve, he]
  by_cases hd : (atLog i).host = some .done
  · rw [if_pos hd] at hact
    have hadv : advance .log (setEcode t i none) = v := by
      simp [advance, hv, setEcode, hact, htx]
    have hfin : action2rc v i = ({ v with action := .cont }, .done) :=
      (action2rc_free (by omega) hvi).2.2.1 (hne v hvis.atStep) hact
    refine ⟨{ v with action := .cont }, hvis.atStep, rfl, hvn, hve, hcount, .inl ⟨hd, rfl, ?_⟩⟩
    simp [resumeLoop, ← hu, hok, hrun, hadv, hfin]
  · rw [if_neg hd] at hact
    have hcont : t.action = .cont := hact.trans ha
    have hadv : advance .log (setEcode t i none) = v := by
      simp [advance, hv, setEcode, hcont, htx]
    have hgo : action2rc v i = (v, .ok) :=
      (action2rc_free (by omega) hvi).2.1 (hne v hvis.atStep) hcont
    have hloop : resumeLoop .log atLog (k + 1) i s rc =
        resumeLoop .log atLog k (i + 1) (nextStep v) .ok := by
      simp [resumeLoop, ← hu, hok, hrun, hadv, hgo]
    by_cases hlast : s.nfilters ≤ i + 1
    · have hnext : nextStep v = { v with lastCompletedStep := v.step.toNat, execIndex := 0 } :=
        if_pos (hvn ▸ hlast)
      rw [hnext] at hloop
      exact ⟨{ v with lastCompletedStep := v.step.toNat, execIndex := 0 }, hvis.atStep, hcont, hvn,
        hve, hcount, .inr ⟨hd, by rw [if_pos hlast], hloop⟩⟩
    · have hnext : nextStep v = v := if_neg (hvn ▸ hlast)
      rw [hnext] at hloop
      exact ⟨v, hvis.atStep, hcont, hvn, hve, hcount, .inr ⟨hd, by rw [if_neg hlast], hloop⟩⟩

end LogStep

/-! ### The log step -/

/-- The log step that starts at entry `i` gets to entry `j` and calls it. -/
def Reached (ecode : ℕ → Option Err) (n : ℕ) (atLog : ℕ → Guest) (i j : ℕ) : Prop :=
  i ≤ j ∧ j < n ∧ ecode j = none ∧ Restores (atLog j) ∧ ∀ l, i ≤ l → l < j → Passes ecode atLog l

theorem reached_stops {ecode : ℕ → Option Err} {n i : ℕ} {atLog : ℕ → Guest} (j : ℕ)
    (h : ¬ Passes ecode atLog i) (hr : Reached ecode n atLog i j) : j = i := by
  obtain ⟨hle, -, -, -, hpass⟩ := hr
  by_contra hne
  exact h (hpass i le_rfl (by omega))

theorem reached_succ {ecode : ℕ → Option Err} {n i : ℕ} {atLog : ℕ → Guest} (j : ℕ) (hi : i < n)
    (h : Passes ecode atLog i) :
    Reached ecode n atLog i j ↔ i = j ∨ Reached ecode n atLog (i + 1) j := by
  constructor
  · intro hr
    obtain ⟨hle, hlt, he, hg, hpass⟩ := hr
    by_cases hij : i = j
    · exact .inl hij
    · exact .inr ⟨by omega, hlt, he, hg, fun l hl => hpass l (by omega)⟩
  · intro hr
    rcases hr with rfl | ⟨hle, hlt, he, hg, hpass⟩
    · exact ⟨le_rfl, hi, h.1, h.2.1, fun l h1 h2 => by omega⟩
    · apply And.intro (by omega)
      apply And.intro hlt
      apply And.intro he
      apply And.intro hg
      intro l h1 h2
      by_cases hl : l = i
      · rw [hl]
        exact h
      · exact hpass l (by omega) h2

/-- What the log step from entry `i` on does: who is called, and where it leaves
the chain, be it that it got through or not. -/
structure Logged (atLog : ℕ → Guest) (s : Chain) (i : ℕ) (t : Chain) : Prop where
  size : t.nfilters = s.nfilters
  finals : ∀ j, runs .done j t = runs .done j s
  reached : ∀ j, Reached (ecodeAt s) s.nfilters atLog i j → runs .log j t = runs .log j s + 1
  missed : ∀ j, ¬ Reached (ecodeAt s) s.nfilters atLog i j → runs .log j t = runs .log j s
  through : (∀ j, i ≤ j → j < s.nfilters → Passes (ecodeAt s) atLog j) →
    (0 < s.nfilters → t.execIndex = 0) ∧ ecodeAt t = ecodeAt s
  stuck : ∀ j, i ≤ j → j < s.nfilters → ¬ Passes (ecodeAt s) atLog j →
    ecodeAt t t.execIndex ≠ none ∨
      i < t.execIndex ∧ ∀ l, Reached (ecodeAt s) s.nfilters atLog i l → l < t.execIndex

theorem logLoop_logged (atLog : ℕ → Guest) (k : ℕ) :
    ∀ (i : ℕ) (s : Chain) (rc : Rc), s.step = .log → s.action = .cont → i + k = s.nfilters →
      (i < s.nfilters → s.execIndex = i) → (i = s.nfilters → 0 < i → s.execIndex = 0) →
      Logged atLog s i (resumeLoop .log atLog k i s rc).1 := by
  induction k with
  | zero =>
    intro i s rc _ _ hik _ hx0
    have hno : ∀ j, ¬ Reached (ecodeAt s) s.nfilters atLog i j := fun j hr => by
      have := hr.1
      have := hr.2.1
      omega
    exact ⟨rfl, fun _ => rfl, fun j hr => absurd hr (hno j), fun _ _ => rfl,
      fun _ => ⟨fun hn => hx0 (by omega) (by omega), rfl⟩, fun j h1 h2 _ => by omega⟩
  | succ k ih =>
    intro i s rc hs ha hik hx _
    have hi : i < s.nfilters := by omega
    by_cases hcall : ecodeAt s i = none ∧ Restores (atLog i)
    · obtain ⟨t, hts, hta, htn, hte, htc, hend⟩ :=
        logLoop_called k rc hi (hx hi) hs ha hcall.1 hcall.2
      have hself : Reached (ecodeAt s) s.nfilters atLog i i :=
        ⟨le_rfl, hi, hcall.1, hcall.2, fun l h1 h2 => by omega⟩
      rcases hend with ⟨hd, htx, hloop⟩ | ⟨hd, htx, hloop⟩
      · -- a host call of entry `i` wrote `DONE`
        have hnot : ¬ Passes (ecodeAt s) atLog i := fun hp => hp.2.2 hd
        rw [hloop]
        constructor
        · exact htn
        · intro j
          rw [htc]
          simp
        · intro j hr
          rw [htc, reached_stops j hnot hr]
          simp
        · intro j hr
          have hij : i ≠ j := by
            intro h
            rw [← h] at hr
            exact hr hself
          rw [htc]
          simp [hij]
        · intro hall
          exact absurd (hall i le_rfl hi) hnot
        · intro _ _ _ _
          apply Or.inr
          rw [htx]
          apply And.intro (Nat.lt_succ_self i)
          intro l hl
          rw [reached_stops l hnot hl]
          exact Nat.lt_succ_self i
      · have hpass : Passes (ecodeAt s) atLog i := ⟨hcall.1, hcall.2, hd⟩
        have hl : Logged atLog t (i + 1) (resumeLoop .log atLog k (i + 1) t .ok).1 := by
          apply ih (i + 1) t .ok hts hta (by omega)
          · intro hlt
            rw [htx, if_neg (by omega)]
          · intro heq _
            rw [htx, if_pos (by omega)]
        rw [hloop]
        obtain ⟨hsize, hfin, hreach, hmiss, hthrough, hstuck⟩ := hl
        rw [hte, htn] at hreach hmiss hthrough hstuck
        constructor
        · exact hsize.trans htn
        · intro j
          rw [hfin, htc]
          simp
        · intro j hr
          rcases (reached_succ j hi hpass).mp hr with hij | hr'
          · have hno : ¬ Reached (ecodeAt s) s.nfilters atLog (i + 1) j := fun h => by
              have := h.1
              omega
            rw [hmiss j hno, htc]
            simp [hij]
          · have hij : i ≠ j := by
              have := hr'.1
              omega
            rw [hreach j hr', htc]
            simp [hij]
        · intro j hr
          have hno := mt (reached_succ j hi hpass).mpr hr
          simp only [not_or] at hno
          rw [hmiss j hno.2, htc]
          simp [hno.1]
        · intro hall
          exact hthrough fun j h1 h2 => hall j (by omega) h2
        · intro j h1 h2 hnp
          have hne : j ≠ i := by
            intro h
            rw [h] at hnp
            exact hnp hpass
          rcases hstuck j (by omega) h2 hnp with he | ⟨hix, hlt⟩
          · exact .inl he
          · apply Or.inr
            apply And.intro (by omega)
            intro l hl
            rcases (reached_succ l hi hpass).mp hl with rfl | hl'
            · omega
            · exact hlt l hl'
    · obtain ⟨t, rc', hloop, htn, htx, hte, htc⟩ := logLoop_stuck k rc hi (hx hi) hs ha hcall
      have hnot : ¬ Passes (ecodeAt s) atLog i := fun hp => hcall ⟨hp.1, hp.2.1⟩
      have hno : ∀ j, ¬ Reached (ecodeAt s) s.nfilters atLog i j := by
        intro j hr
        have hj := reached_stops j hnot hr
        rw [hj] at hr
        exact hcall ⟨hr.2.2.1, hr.2.2.2.1⟩
      rw [hloop]
      exact ⟨htn, fun j => htc _ j, fun j hr => absurd hr (hno j), fun j _ => htc _ j,
        fun hall => absurd (hall i le_rfl hi) hnot, fun _ _ _ _ => .inl (htx ▸ hte)⟩

/-- Nobody is logged after a pending action, or when the step counts as completed. -/
theorem opHandler_log_silent {s : Chain} (atLog : ℕ → Guest)
    (h : Step.log.toNat ≤ s.lastCompletedStep ∨ s.action ≠ .cont ∨ s.nfilters ≤ s.execIndex)
    (st : Step) (j : ℕ) : runs st j (opHandler s .log atLog).1 = runs st j s := by
  simp only [opHandler, phaseStep, resume, enterStep]
  split
  · rfl
  · rename_i u hu
    split at hu
    · simp at hu
    · rename_i hnot
      rw [← Option.some.inj hu]
      dsimp only
      cases hk : Chain.nfilters { s with step := .log, phase := .log } - s.execIndex with
      | zero => rfl
      | succ k =>
        have ha : s.action ≠ .cont := by
          have hlt : s.execIndex < s.nfilters := by
            change s.nfilters - s.execIndex = k + 1 at hk
            omega
          rcases h with h | h | h
          · exact absurd h hnot
          · exact h
          · exact absurd h (by omega)
        set u : Chain := { s with
          step := .log, phase := .log, trace := s.trace ++ [.access s.execIndex] } with hu
        have hcount : runs st j u = runs st j s := runs_access st j s.execIndex s
        have hb := action2rc_branch u s.execIndex
        have hstop : (action2rc u s.execIndex).2 ≠ .ok ∧
            runs st j (action2rc u s.execIndex).1 = runs st j s := by
          generalize action2rc u s.execIndex = c at hb ⊢
          cases hb with
          | missing _ => exact ⟨by simp, hcount⟩
          | errored e t _ _ ht =>
            rcases ht with rfl | rfl
            · exact ⟨by simp, hcount⟩
            · exact ⟨by simp, hcount⟩
          | forced e _ _ hd => exact absurd hd (by simp [hu])
          | finished _ _ => exact ⟨by simp, hcount⟩
          | goesOn e _ _ _ hcont => exact absurd hcont ha
          | yields _ _ hp => exact absurd hp (by simp [hu, pausable])
          | bad e _ _ _ _ _ =>
            apply And.intro (by simp)
            rw [← hcount]
            simp [runs, badReturnAction, List.countP_append, isRun]
          | nyi e _ _ => exact ⟨by simp, hcount⟩
        simp only [resumeLoop]
        rw [if_pos hstop.1]
        exact hstop.2

/-! ### The done step -/

/-- The done step that starts at entry `i` gets to entry `j` and finalises it. -/
def Finalised (ecode : ℕ → Option Err) (n : ℕ) (atDone : ℕ → Guest) (i j : ℕ) : Prop :=
  i ≤ j ∧ j < n ∧ ∀ l, i ≤ l → l ≤ j → ecode l = none ∧ (atDone l).trapped = false

structure Done (atDone : ℕ → Guest) (s : Chain) (i : ℕ) (t : Chain) : Prop where
  logs : ∀ j, runs .log j t = runs .log j s
  reached : ∀ j, Finalised (ecodeAt s) s.nfilters atDone i j → runs .done j t = runs .done j s + 1
  missed : ∀ j, ¬ Finalised (ecodeAt s) s.nfilters atDone i j → runs .done j t = runs .done j s

section DoneStep

variable {atDone : ℕ → Guest} {s : Chain} {i : ℕ} (k : ℕ) (rc : Rc)

theorem doneLoop_called (hi : i < s.nfilters) (hs : s.step = .done) (he : ecodeAt s i = none)
    (hg : (atDone i).trapped = false) :
    ∃ t, t.step = .done ∧ t.nfilters = s.nfilters ∧ ecodeAt t = ecodeAt s ∧
      (∀ st j, runs st j t = runs st j s + if .done = st ∧ i = j then 1 else 0) ∧
      resumeLoop .done atDone (k + 1) i s rc = resumeLoop .done atDone k (i + 1) t .ok := by
  set u : Chain := { s with trace := s.trace ++ [.access i] } with hu
  have hok : action2rc u i = (u, .ok) := (action2rc_free (s := u) hi he).1 hs
  have hres : Restores (atDone i) := fun h => by simp [hg] at h
  obtain ⟨t, hrun, hvis, -⟩ := runStep_visits (s := u) .done hi he hres rfl
  have htn : t.nfilters = s.nfilters := hvis.size
  have hte : ecodeAt t = ecodeAt s := hvis.ecodes
  have hti : ecodeAt t i = none := by rw [hte, he]
  have hcount : ∀ st j, runs st j t = runs st j s + if .done = st ∧ i = j then 1 else 0 := by
    intro st j
    rw [visited_runs hvis, hu, runs_access]
  -- only `exec_index` and the completed step change behind the call
  have hframe : ∀ v : Chain, v.pwexecs = (setEcode t i none).pwexecs →
      v.nfilters = s.nfilters ∧ ecodeAt v = ecodeAt s := by
    intro v hv
    have hvn : v.nfilters = (setEcode t i none).nfilters := congrArg List.length hv
    have hve : ecodeAt v = ecodeAt (setEcode t i none) := by
      funext j
      simp only [ecodeAt, hv]
    exact ⟨by rw [hvn, setEcode_nfilters, htn], by rw [hve, setEcode_none hti, hte]⟩
  obtain ⟨v, hv, hvs, hvp, hvt⟩ : ∃ v, advance .done (setEcode t i none) = v ∧ v.step = .done ∧
      v.pwexecs = (setEcode t i none).pwexecs ∧ v.trace = t.trace := by
    rcases advance_eq .done (setEcode t i none) with h | h
    · exact ⟨_, h, hvis.atStep, rfl, rfl⟩
    · exact ⟨_, h, hvis.atStep, rfl, rfl⟩
  obtain ⟨hvn, hve⟩ := hframe v hvp
  have hgo : action2rc v i = (v, .ok) :=
    (action2rc_free (by omega) (by rw [hve, he])).1 hvs
  have hloop : resumeLoop .done atDone (k + 1) i s rc =
      resumeLoop .done atDone k (i + 1) (nextStep v) .ok := by
    simp [resumeLoop, ← hu, hok, hg, hrun, hv, hgo]
  have hnext : (nextStep v).step = .done ∧ (nextStep v).pwexecs = (setEcode t i none).pwexecs ∧
      (nextStep v).trace = t.trace := by
    unfold nextStep
    split
    · exact ⟨hvs, hvp, hvt⟩
    · exact ⟨hvs, hvp, hvt⟩
  obtain ⟨hnn, hne⟩ := hframe (nextStep v) hnext.2.1
  refine ⟨nextStep v, hnext.1, hnn, hne, ?_, hloop⟩
  intro st j
  rw [← hcount, runs, runs, hnext.2.2]

theorem doneLoop_stuck (hi : i < s.nfilters) (hs : s.step = .done)
    (h : ¬ (ecodeAt s i = none ∧ (atDone i).trapped = false)) (st : Step) (j : ℕ) :
    runs st j (resumeLoop .done atDone (k + 1) i s rc).1 = runs st j s := by
  set u : Chain := { s with trace := s.trace ++ [.access i] } with hu
  have hcount : runs st j u = runs st j s := runs_access st j i s
  by_cases he : ecodeAt s i = none
  · have hok : action2rc u i = (u, .ok) := (action2rc_free (s := u) hi he).1 hs
    have hg : (atDone i).trapped = true := by
      cases hg : (atDone i).trapped with
      | true => rfl
      | false => exact absurd ⟨he, hg⟩ h
    simp [resumeLoop, ← hu, hok, hg, hcount]
  · obtain ⟨t, hrc, ht⟩ := action2rc_errored (s := u) hi he
    simp only [resumeLoop, ← hu, hrc]
    rcases ht with rfl | rfl
    · exact hcount
    · exact hcount

end DoneStep

theorem doneLoop_done (atDone : ℕ → Guest) (k : ℕ) :
    ∀ (i : ℕ) (s : Chain) (rc : Rc), s.step = .done → i + k = s.nfilters →
      Done atDone s i (resumeLoop .done atDone k i s rc).1 := by
  induction k with
  | zero =>
    intro i s rc _ hik
    constructor
    · intro j
      rfl
    · intro j hf
      obtain ⟨h1, h2, -⟩ := hf
      omega
    · intro j _
      rfl
  | succ k ih =>
    intro i s rc hs hik
    have hi : i < s.nfilters := by omega
    by_cases hcall : ecodeAt s i = none ∧ (atDone i).trapped = false
    · obtain ⟨t, hts, htn, hte, htc, hloop⟩ := doneLoop_called k rc hi hs hcall.1 hcall.2
      obtain ⟨hlogs, hreach, hmiss⟩ := ih (i + 1) t .ok hts (by omega)
      rw [hte, htn] at hreach hmiss
      rw [hloop]
      have hsucc : ∀ j, Finalised (ecodeAt s) s.nfilters atDone i j ↔
          i = j ∨ Finalised (ecodeAt s) s.nfilters atDone (i + 1) j := by
        intro j
        constructor
        · intro hf
          obtain ⟨h1, h2, h3⟩ := hf
          by_cases hij : i = j
          · exact .inl hij
          · exact .inr ⟨by omega, h2, fun l hl => h3 l (by omega)⟩
        · intro hf
          rcases hf with rfl | ⟨h1, h2, h3⟩
          · refine ⟨le_rfl, hi, fun l hl1 hl2 => ?_⟩
            rw [Nat.le_antisymm hl2 hl1]
            exact hcall
          · refine ⟨by omega, h2, fun l hl1 hl2 => ?_⟩
            by_cases hl : l = i
            · rw [hl]
              exact hcall
            · exact h3 l (by omega) hl2
      constructor
      · intro j
        rw [hlogs, htc]
        simp
      · intro j hf
        rcases (hsucc j).mp hf with hij | hf'
        · have hno : ¬ Finalised (ecodeAt s) s.nfilters atDone (i + 1) j := fun h => by
            have := h.1
            omega
          rw [hmiss j hno, htc]
          simp [hij]
        · have hij : i ≠ j := by
            have := hf'.1
            omega
          rw [hreach j hf', htc]
          simp [hij]
      · intro j hf
        have hno := mt (hsucc j).mpr hf
        simp only [not_or] at hno
        rw [hmiss j hno.2, htc]
        simp [hno.1]
    · have hcount := fun st j => doneLoop_stuck k rc hi hs hcall st j
      have hno : ∀ j, ¬ Finalised (ecodeAt s) s.nfilters atDone i j :=
        fun j hf => hcall (hf.2.2 i le_rfl hf.1)
      exact ⟨fun j => hcount _ j, fun j hf => absurd hf (hno j), fun j _ => hcount _ j⟩

/-! ### Calls of the live request -/

/-- The chain has neither logged nor finalised anything. -/
structure Open (s : Chain) : Prop where
  log : s.step ≠ .log
  done : s.step ≠ .done
  counts : ∀ i, runs .log i s = 0 ∧ runs .done i s = 0

theorem open_of_trace {s t : Chain} (h : Open s) (hs : t.step ≠ .log ∧ t.step ≠ .done)
    (ht : ∀ step i, step = .log ∨ step = .done → runs step i t = runs step i s) : Open t := by
  refine ⟨hs.1, hs.2, fun i => ?_⟩
  rw [ht .log i (.inl rfl), ht .done i (.inr rfl)]
  exact h.counts i

theorem open_mix {r s t : Chain} (hr : Open r) (h : Open s) (hs : t.step = s.step)
    (ht : t.trace = r.trace) : Open t := by
  apply open_of_trace hr (hs ▸ ⟨h.log, h.done⟩)
  intro step i _
  rw [runs, runs, ht]

theorem open_fields {s t : Chain} (h : Open s) (hs : t.step = s.step) (ht : t.trace = s.trace) :
    Open t := open_mix h h hs ht

theorem action2rc_open {s : Chain} (h : Open s) (i : ℕ) : Open (action2rc s i).1 := by
  have hb := action2rc_branch s i
  generalize action2rc s i = r at hb ⊢
  cases hb with
  | missing _ => exact h
  | errored e t _ _ ht =>
    rcases ht with rfl | rfl
    · exact h
    · exact open_fields h rfl rfl
  | forced _ _ _ _ => exact h
  | goesOn _ _ _ _ _ => exact h
  | finished _ _ => exact open_fields h rfl rfl
  | yields _ _ _ => exact open_fields h rfl rfl
  | nyi _ _ _ => exact open_fields h rfl rfl
  | bad _ _ _ _ _ _ =>
    have hs : (badReturnAction s).step ≠ .log ∧ (badReturnAction s).step ≠ .done := ⟨h.log, h.done⟩
    apply open_of_trace h hs
    intro step j _
    simp [runs, badReturnAction, List.countP_append, isRun]

theorem createFailed_counts (s : Chain) (i ictx : ℕ) (e : CreatePoint × Err) :
    (createFailed s i ictx e).step = s.step ∧
      ∀ step j, runs step j (createFailed s i ictx e) = runs step j s := by
  obtain ⟨p, e⟩ := e
  cases p with
  | root | log => exact ⟨rfl, fun _ _ => rfl⟩
  | context => exact ⟨rfl, fun _ _ => countP_append_of_not s.trace _ rfl⟩

theorem runStep_open {s : Chain} (h : Open s) (i : ℕ) {step : Step} (g : Guest)
    (hs : step ≠ .log ∧ step ≠ .done) : Open (runStep s i step g).1 := by
  have hran : ∀ (t : Chain) (r : Ran), t.step = step → r.step = step →
      t.trace = s.trace ++ [.ran r] → Open t := by
    intro t r hts hrs htr
    apply open_of_trace h (hts ▸ hs)
    intro st j hst
    have hne : step ≠ st := by
      rcases hst with rfl | rfl
      · exact hs.1
      · exact hs.2
    rw [runs_ran st j t r s.trace htr, if_neg (by simp [hrs, hne])]
    rfl
  unfold runStep
  cases s.pwexecs[i]? with
  | none => exact h
  | some pwexec =>
    dsimp only
    split
    · rename_i e _ _
      obtain ⟨hstep, hcount⟩ := createFailed_counts s i g.ictx e
      apply open_of_trace h (by rw [hstep]; exact ⟨h.log, h.done⟩)
      exact fun st j _ => hcount st j
    · split
      · exact hran _ _ rfl rfl rfl
      · exact hran _ _ rfl rfl rfl

theorem resumeLoop_open {step : Step} (hs : step ≠ .log ∧ step ≠ .done) (guest : ℕ → Guest) (k : ℕ) :
    ∀ (i : ℕ) (s : Chain) (rc : Rc), Open s → Open (resumeLoop step guest k i s rc).1 := by
  induction k with
  | zero => intro i s rc h; exact h
  | succ k ih =>
    intro i s rc h
    have hacc : Open { s with trace := s.trace ++ [.access i] } :=
      open_of_trace h ⟨h.log, h.done⟩ fun st j _ => runs_access st j i s
    have hc := action2rc_open hacc i
    simp only [resumeLoop]
    generalize action2rc { s with trace := s.trace ++ [.access i] } i = c at hc ⊢
    split
    · exact hc
    · split
      · exact hc
      · have hr := runStep_open hc i (guest i) hs
        generalize runStep c.1 i step (guest i) = r at hr ⊢
        have hset : Open (setEcode r.1 i r.2) := open_fields hr rfl rfl
        split
        · exact hset
        · have hadv : Open (advance step (setEcode r.1 i r.2)) := by
            rcases advance_eq step (setEcode r.1 i r.2) with he | he
            · rw [he]
              exact hset
            · rw [he]
              exact open_fields hset rfl rfl
          have hc2 := action2rc_open hadv i
          generalize action2rc (advance step (setEcode r.1 i r.2)) i = c2 at hc2 ⊢
          split
          · exact hc2
          · apply ih
            unfold nextStep
            split
            · exact open_fields hc2 rfl rfl
            · exact hc2

theorem resume_open {s : Chain} {step : Step} (h : Open s) (hs : step ≠ .log ∧ step ≠ .done)
    (guest : ℕ → Guest) : Open (resume s step guest).1 := by
  have hstep : ∀ t : Chain, t.step = step → t.trace = s.trace → Open t := by
    intro t hts htt
    apply open_of_trace h (hts ▸ hs)
    intro st i _
    rw [runs, runs, htt]
  unfold resume
  cases he : enterStep s step with
  | none => exact hstep _ rfl rfl
  | some t =>
    apply resumeLoop_open hs
    rcases enterStep_eq he with rfl | ⟨-, rfl⟩
    · exact hstep _ rfl rfl
    · exact hstep _ rfl rfl

theorem afterCallback_open {s : Chain} (h : Open s) (k : ℕ) (pending resumes : Bool)
    (guest : ℕ → Guest) : Open (afterCallback s k pending resumes guest).1 := by
  have hs : ∀ a p, Open { s with action := a, pausedBy := p } := fun _ _ => open_fields h rfl rfl
  unfold afterCallback
  split
  · exact hs _ _
  · split
    · exact resume_open (hs _ _) ⟨h.log, h.done⟩ guest
    · exact hs _ _

theorem callStep_open {s : Chain} {c : Call} (h : Open s) (hl : Live c) : Open (callStep s c).1 := by
  have hbg : Open { s with phase := .background } := open_fields h rfl rfl
  cases c with
  | handler phase guest =>
    have hp : Open { s with phase := phase } := open_fields h rfl rfl
    cases phase with
    | preaccess | background => exact hp
    | log => exact absurd rfl hl.1
    | done => exact absurd rfl hl.2
    | rewrite | access | content | headerFilter | bodyFilter | trailerFilter =>
      exact resume_open hp ⟨by decide, by decide⟩ guest
  | bodyFilter guest =>
    simp only [callStep, bodyFilterResume]
    split
    · exact h
    · apply resume_open _ ⟨by decide, by decide⟩ guest
      exact open_fields h rfl rfl
  | buffered => exact open_fields h rfl rfl
  | dispatching k => exact open_fields h rfl rfl
  | upstream step guest =>
    have hne : step ≠ .log ∧ step ≠ .done := by
      rcases hl with rfl | rfl | rfl <;> decide
    exact open_mix (resume_open hbg hne guest) h rfl rfl
  | foreign k g pending guest =>
    have hr : Open (runStep _ k .foreignCallback g).1 :=
      runStep_open hbg k g ⟨by decide, by decide⟩
    apply afterCallback_open
    exact open_mix hr h rfl rfl
  | dispatched k failed g pending guest =>
    simp only [callStep, dispatchResume]
    generalize hs' : (if (g.trapped && !failed) = true then setEcode s k (some .instanceTrapped)
      else s) = s'
    have hs : Open s' := by
      rw [← hs']
      split
      · exact open_fields h rfl rfl
      · exact h
    have hbg' : Open { s' with phase := .background } := open_fields hs rfl rfl
    have hr : Open (runStep _ k .dispatchResponse g).1 :=
      runStep_open hbg' k g ⟨by decide, by decide⟩
    apply afterCallback_open
    split
    · exact hr
    · exact open_mix hr hs rfl rfl

theorem newChain_open (pwexecs : List Exec) : Open (newChain pwexecs) :=
  ⟨by simp [newChain], by simp [newChain], fun _ => ⟨rfl, rfl⟩⟩

/-! ### Both steps -/

theorem opHandler_log {s : Chain} (atLog : ℕ → Guest)
    (hl : s.lastCompletedStep < Step.log.toNat) (ha : s.action = .cont)
    (hx : s.execIndex < s.nfilters) :
    Logged atLog s s.execIndex (opHandler s .log atLog).1 := by
  have henter : enterStep { s with phase := .log } .log =
      some { s with phase := .log, step := .log } := by
    simp only [enterStep]
    exact if_neg (Nat.not_le.mpr hl)
  set u : Chain := { s with phase := .log, step := .log } with hu
  have hloop : Logged atLog u s.execIndex
      (resumeLoop .log atLog (s.nfilters - s.execIndex) s.execIndex u .ok).1 :=
    logLoop_logged atLog _ _ u .ok rfl ha (Nat.add_sub_of_le (Nat.le_of_lt hx)) (fun _ => rfl)
      fun heq _ => absurd heq (Nat.ne_of_lt hx)
  simp only [opHandler, phaseStep, resume, henter]
  exact ⟨hloop.size, hloop.finals, hloop.reached, hloop.missed, hloop.through, hloop.stuck⟩

theorem opHandler_done (s : Chain) (atDone : ℕ → Guest) :
    Done atDone s s.execIndex (opHandler s .done atDone).1 := by
  set u : Chain := { s with phase := .done, step := .done } with hu
  have hloop : Done atDone u s.execIndex
      (resumeLoop .done atDone (s.nfilters - s.execIndex) s.execIndex u .ok).1 := by
    by_cases hx : s.execIndex ≤ s.nfilters
    · exact doneLoop_done atDone _ _ u .ok rfl (Nat.add_sub_of_le hx)
    · rw [Nat.sub_eq_zero_of_le (Nat.le_of_not_le hx)]
      constructor
      · intro j
        rfl
      · intro j hf
        exact absurd (hf.1.trans (Nat.le_of_lt hf.2.1)) hx
      · intro j _
        rfl
  simp only [opHandler, phaseStep, resume, enterStep]
  exact ⟨hloop.logs, hloop.reached, hloop.missed⟩

theorem endsWell_of_endedOnce {s : Chain} (h : Open s) {atLog atDone : ℕ → Guest} {i : ℕ}
    (hended : EndedOnce s atLog atDone i) : EndsWell s atLog atDone i := by
  obtain ⟨hlog, hfinal⟩ := hended
  set t : Chain := (opHandler s .log atLog).1 with ht
  have hdone : Done atDone t t.execIndex (endRequest s atLog atDone) := opHandler_done t atDone
  rw [hdone.logs] at hlog
  have hready : s.lastCompletedStep < Step.log.toNat ∧ s.action = .cont ∧
      s.execIndex < s.nfilters := by
    by_contra hnot
    have hsilent : Step.log.toNat ≤ s.lastCompletedStep ∨ s.action ≠ .cont ∨
        s.nfilters ≤ s.execIndex := by
      by_cases hl : s.lastCompletedStep < Step.log.toNat
      · by_cases ha : s.action = .cont
        · exact .inr (.inr (Nat.le_of_not_lt fun hx => hnot ⟨hl, ha, hx⟩))
        · exact .inr (.inl ha)
      · exact .inl (Nat.le_of_not_lt hl)
    rw [ht, opHandler_log_silent atLog hsilent, (h.counts i).1] at hlog
    exact absurd hlog (by decide)
  obtain ⟨hl, ha, hx⟩ := hready
  have hlogged : Logged atLog s s.execIndex t := opHandler_log atLog hl ha hx
  have hreached : Reached (ecodeAt s) s.nfilters atLog s.execIndex i := by
    by_contra hnot
    rw [hlogged.missed i hnot, (h.counts i).1] at hlog
    exact absurd hlog (by decide)
  refine ⟨hl, ha, hreached.1, hreached.2.2.2.2, fun halive => ?_⟩
  have hfinalised : Finalised (ecodeAt t) t.nfilters atDone t.execIndex i := by
    by_contra hnot
    have hone := hfinal halive
    rw [hdone.missed i hnot, hlogged.finals, (h.counts i).2] at hone
    exact absurd hone (by decide)
  obtain ⟨hle, -, hfree⟩ := hfinalised
  have hpass : ∀ j, s.execIndex ≤ j → j < s.nfilters → Passes (ecodeAt s) atLog j := by
    intro j h1 h2
    by_contra hnot
    rcases hlogged.stuck j h1 h2 hnot with herr | ⟨-, hlt⟩
    · exact herr (hfree t.execIndex le_rfl hle).1
    · exact absurd (hlt i hreached) (Nat.not_lt.mpr hle)
  obtain ⟨hzero, hecodes⟩ := hlogged.through hpass
  rw [hzero (Nat.zero_lt_of_lt hx), hecodes] at hfree
  exact ⟨hpass, fun j hj => hfree j (Nat.zero_le j) (Nat.le_of_lt hj)⟩

theorem endedOnce_of_endsWell {s : Chain} (h : Open s) {atLog atDone : ℕ → Guest} {i : ℕ}
    (hsound : Sound s atLog i) (hwell : EndsWell s atLog atDone i) : EndedOnce s atLog atDone i := by
  obtain ⟨hl, ha, hle, hpass, hfinal⟩ := hwell
  obtain ⟨hi, he, hg⟩ := hsound
  set t : Chain := (opHandler s .log atLog).1 with ht
  have hx : s.execIndex < s.nfilters := Nat.lt_of_le_of_lt hle hi
  have hlogged : Logged atLog s s.execIndex t := opHandler_log atLog hl ha hx
  have hdone : Done atDone t t.execIndex (endRequest s atLog atDone) := opHandler_done t atDone
  constructor
  · rw [hdone.logs, hlogged.reached i ⟨hle, hi, he, hg, hpass⟩, (h.counts i).1]
  · intro halive
    obtain ⟨hall, hfront⟩ := hfinal halive
    obtain ⟨hzero, hecodes⟩ := hlogged.through hall
    have hfinalised : Finalised (ecodeAt t) t.nfilters atDone t.execIndex i := by
      rw [hzero (Nat.zero_lt_of_lt hx), hecodes, hlogged.size]
      refine ⟨Nat.zero_le i, hi, fun l _ hl => ?_⟩
      by_cases hli : l = i
      · rw [hli]
        exact ⟨he, halive⟩
      · exact hfront l (Nat.lt_of_le_of_ne hl hli)
    rw [hdone.reached i hfinalised, hlogged.finals, (h.counts i).2]

theorem endedOnce_iff {s : Chain} (h : Open s) (atLog atDone : ℕ → Guest) {i : ℕ}
    (hsound : Sound s atLog i) : EndedOnce s atLog atDone i ↔ EndsWell s atLog atDone i :=
  ⟨endsWell_of_endedOnce h, endedOnce_of_endsWell h hsound⟩

/-- The first of two filters pauses in the rewrite phase and is resumed by the
answer to its call; then the request ends. -/
def resumedCalls : List Call :=
  [.handler .rewrite fun _ => returns .pause, .dispatching 0,
    .dispatched 0 false (returns .cont) false fun _ => returns .cont]

end NgxWasm.ProxyWasm.ResumeEnd
