import NgxWasm.ProxyWasm.ResumeIndex

/-!
# One entry of the chain

What the checks and one callback do to an entry that has no error.
-/

namespace NgxWasm.ProxyWasm.ResumeEntry
open NgxWasm.ProxyWasm.Resume NgxWasm.ProxyWasm.ResumeIndex

def ecodeAt (s : Chain) (i : ℕ) : Option Err := s.pwexecs[i]?.bind Exec.ecode

/-- The instance is there, or the context can be created again on another one. -/
def Restores (g : Guest) : Prop := g.trapped = true → g.createErr = none

/-! ### Errors -/

theorem ecodeAt_setEcode (s : Chain) (i j : ℕ) (e : Option Err) :
    ecodeAt (setEcode s i e) j = if i = j ∧ j < s.nfilters then e else ecodeAt s j := by
  simp only [ecodeAt, setEcode, Chain.nfilters, List.getElem?_modify]
  by_cases hj : j < s.pwexecs.length
  · rw [List.getElem?_eq_getElem hj]
    by_cases hi : i = j
    · simp [hi, hj]
    · simp [hi]
  · rw [List.getElem?_eq_none (Nat.le_of_not_lt hj)]
    simp [hj]

theorem ecodeAt_setIctx (s : Chain) (i j ictx : ℕ) : ecodeAt (setIctx s i ictx) j = ecodeAt s j := by
  simp only [ecodeAt, setIctx, List.getElem?_modify]
  cases s.pwexecs[j]? with
  | none => rfl
  | some e => by_cases hi : i = j <;> simp [hi]

theorem ecodeAt_setLogged (s : Chain) (i j : ℕ) : ecodeAt (setLogged s i) j = ecodeAt s j := by
  simp only [ecodeAt, setLogged, List.getElem?_modify]
  cases s.pwexecs[j]? with
  | none => rfl
  | some e => by_cases hi : i = j <;> simp [hi]

theorem exists_entry {s : Chain} {i : ℕ} (hi : i < s.nfilters) :
    ∃ e, s.pwexecs[i]? = some e ∧ e.ecode = ecodeAt s i := by
  have h := List.getElem?_eq_getElem (l := s.pwexecs) hi
  exact ⟨_, h, by simp [ecodeAt, h]⟩

theorem setEcode_none {s : Chain} {i : ℕ} (h : ecodeAt s i = none) :
    ecodeAt (setEcode s i none) = ecodeAt s := by
  funext j
  rw [ecodeAt_setEcode]
  split
  · rename_i hj
    rw [← hj.1, h]
  · rfl

/-! ### Checks -/

theorem action2rc_free {s : Chain} {i : ℕ} (hi : i < s.nfilters) (he : ecodeAt s i = none) :
    (s.step = .done → action2rc s i = (s, .ok)) ∧
    (s.step ≠ .done → s.action = .cont → action2rc s i = (s, .ok)) ∧
    (s.step ≠ .done → s.action = .done → action2rc s i = ({ s with action := .cont }, .done)) ∧
    (s.step ≠ .done → s.action = .pause → pausable s.phase = true → action2rc s i =
      ({ s with respBuffering := s.respBuffering || s.phase = .bodyFilter }, .again)) := by
  obtain ⟨e, hget, hec⟩ := exists_entry hi
  rw [he] at hec
  refine ⟨fun hs => ?_, fun hs ha => ?_, fun hs ha => ?_, fun hs ha hp => ?_⟩
  · simp [action2rc, hget, hec, hs]
  · simp [action2rc, hget, hec, hs, ha]
  · simp [action2rc, hget, hec, hs, ha]
  · simp [action2rc, hget, hec, hs, ha, hp]

theorem action2rc_errored {s : Chain} {i : ℕ} (hi : i < s.nfilters) (he : ecodeAt s i ≠ none) :
    ∃ t, action2rc s i = (t, .http 500) ∧ (t = s ∨ t = setLogged s i) := by
  obtain ⟨e, hget, hec⟩ := exists_entry hi
  have hsome : e.ecode.isSome = true := by
    rw [hec]
    exact Option.isSome_iff_ne_none.mpr he
  simp only [action2rc, hget, hsome, if_true]
  refine ⟨_, rfl, ?_⟩
  split
  · exact .inr rfl
  · exact .inl rfl

/-! ### One callback -/

/-- What a callback without error leaves as it was, and what it records. -/
structure Visited (s : Chain) (i : ℕ) (step : Step) (t : Chain) : Prop where
  atStep : t.step = step
  index : t.execIndex = s.execIndex
  completed : t.lastCompletedStep = s.lastCompletedStep
  phase : t.phase = s.phase
  buffering : t.respBuffering = s.respBuffering
  size : t.nfilters = s.nfilters
  ecodes : ecodeAt t = ecodeAt s
  traced : ∃ r : Ran, r.step = step ∧ r.i = i ∧ t.trace = s.trace ++ [.ran r]

theorem runStep_visits {s : Chain} {i : ℕ} (step : Step) {g : Guest} (hi : i < s.nfilters)
    (he : ecodeAt s i = none) (hg : Restores g) (hrc : stepRc step g = .ok) :
    ∃ t, runStep s i step g = (t, none) ∧ Visited s i step t ∧
      t.action = nextAction step s.action g := by
  obtain ⟨e, hget, hec⟩ := exists_entry hi
  rw [he] at hec
  -- the chain behind the call, before its result is stored
  have hvis : ∀ a ictx p r, r.step = step → r.i = i → Visited s i step { setIctx { s with
      step := step, action := a } i ictx with pausedBy := p, trace := s.trace ++ [.ran r] } := by
    intro a ictx p r hrs hri
    constructor
    · rfl
    · rfl
    · rfl
    · rfl
    · rfl
    · exact setIctx_nfilters s i ictx
    · exact funext fun j => ecodeAt_setIctx s i j ictx
    · exact ⟨r, hrs, hri, rfl⟩
  have hnone : ∀ t, Visited s i step t → Visited s i step (setEcode t i none) := by
    intro t ht
    have hti : ecodeAt t i = none := by rw [ht.ecodes, he]
    exact ⟨ht.atStep, ht.index, ht.completed, ht.phase, ht.buffering,
      by rw [setEcode_nfilters, ht.size], by rw [setEcode_none hti, ht.ecodes], ht.traced⟩
  unfold runStep
  rw [hget]
  dsimp only
  split
  · rename_i htr hce
    exact absurd (hg htr) (by simp [hce])
  · by_cases hd : g.host.getD s.action ≠ returnedAction step s.action g ∧
        g.host.getD s.action = .done
    · simp only [if_pos hd, hec]
      exact ⟨_, rfl, hvis _ _ _ _ rfl rfl, rfl⟩
    · simp only [if_neg hd, hrc, rcEcode]
      exact ⟨_, rfl, hnone _ (hvis _ _ _ _ rfl rfl), rfl⟩

end NgxWasm.ProxyWasm.ResumeEntry
