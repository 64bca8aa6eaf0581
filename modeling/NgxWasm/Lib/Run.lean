import Mathlib.Data.List.Basic
import Mathlib.Data.List.Infix

/-!
# Runs of a deterministic machine

A machine reads one input at a time and answers each of them. `Meets` says that
every input of a run satisfies a condition in the state in which it is read, so
a safety result holds of all runs or of the runs that stay inside a condition.
-/

namespace NgxWasm.Lib.Run

variable {σ τ ι ω : Type*}

/-- Last state and answers of a run. -/
def exec (step : σ → ι → σ × ω) : σ → List ι → σ × List ω
  | s, [] => (s, [])
  | s, i :: is =>
    let r := step s i
    let t := exec step r.1 is
    (t.1, r.2 :: t.2)

/-- Every input of the run meets `C` in the state that reads it. -/
def Meets (step : σ → ι → σ × ω) (C : σ → ι → Prop) : σ → List ι → Prop
  | _, [] => True
  | s, i :: is => C s i ∧ Meets step C (step s i).1 is

@[simp] theorem exec_nil (step : σ → ι → σ × ω) (s : σ) : exec step s [] = (s, []) := rfl

@[simp] theorem exec_cons (step : σ → ι → σ × ω) (s : σ) (i : ι) (is : List ι) :
    exec step s (i :: is) =
      ((exec step (step s i).1 is).1, (step s i).2 :: (exec step (step s i).1 is).2) := rfl

@[simp] theorem meets_nil (step : σ → ι → σ × ω) (C : σ → ι → Prop) (s : σ) :
    Meets step C s [] := trivial

@[simp] theorem meets_cons (step : σ → ι → σ × ω) (C : σ → ι → Prop) (s : σ) (i : ι)
    (is : List ι) : Meets step C s (i :: is) ↔ C s i ∧ Meets step C (step s i).1 is := Iff.rfl

theorem exec_append (step : σ → ι → σ × ω) (s : σ) (is js : List ι) :
    exec step s (is ++ js) =
      ((exec step (exec step s is).1 js).1,
        (exec step s is).2 ++ (exec step (exec step s is).1 js).2) := by
  induction is generalizing s with
  | nil => rfl
  | cons i is ih => simp only [List.cons_append, exec_cons, ih]

theorem meets_append (step : σ → ι → σ × ω) (C : σ → ι → Prop) (s : σ) (is js : List ι) :
    Meets step C s (is ++ js) ↔ Meets step C s is ∧ Meets step C (exec step s is).1 js := by
  induction is generalizing s with
  | nil => simp
  | cons i is ih => simp only [List.cons_append, meets_cons, exec_cons, ih, and_assoc]

theorem meets_take (step : σ → ι → σ × ω) {C : σ → ι → Prop} {s : σ} {is : List ι} (k : ℕ)
    (h : Meets step C s is) : Meets step C s (is.take k) := by
  have hsplit := meets_append step C s (is.take k) (is.drop k)
  rw [List.take_append_drop] at hsplit
  exact (hsplit.mp h).1

theorem meets_mono (step : σ → ι → σ × ω) {C D : σ → ι → Prop} (h : ∀ s i, C s i → D s i) :
    ∀ (is : List ι) (s : σ), Meets step C s is → Meets step D s is := by
  intro is
  induction is with
  | nil => intro s _; trivial
  | cons i is ih =>
    intro s hm
    exact ⟨h s i hm.1, ih _ hm.2⟩

theorem meets_and (step : σ → ι → σ × ω) {C D : σ → ι → Prop} :
    ∀ (is : List ι) (s : σ), Meets step C s is → Meets step D s is →
      Meets step (fun s i => C s i ∧ D s i) s is := by
  intro is
  induction is with
  | nil => intro s _ _; trivial
  | cons i is ih =>
    intro s hc hd
    exact ⟨⟨hc.1, hd.1⟩, ih _ hc.2 hd.2⟩

/-- Two conditions that say the same in every state of an invariant. -/
theorem meets_congr (step : σ → ι → σ × ω) {C D : σ → ι → Prop} {P : σ → Prop}
    (hiff : ∀ s i, P s → (C s i ↔ D s i)) (hstep : ∀ s i, P s → P (step s i).1) :
    ∀ (is : List ι) (s : σ), P s → (Meets step C s is ↔ Meets step D s is) := by
  intro is
  induction is with
  | nil => intro s _; exact Iff.rfl
  | cons i is ih =>
    intro s hs
    simp only [meets_cons, hiff s i hs, ih _ (hstep s i hs)]

/-- A condition that implies another one in every state of an invariant. -/
theorem meets_mono_inv (step : σ → ι → σ × ω) {C D : σ → ι → Prop} {P : σ → Prop}
    (h : ∀ s i, P s → C s i → D s i) (hstep : ∀ s i, P s → C s i → P (step s i).1) :
    ∀ (is : List ι) (s : σ), P s → Meets step C s is → Meets step D s is := by
  intro is
  induction is with
  | nil => intro s _ _; trivial
  | cons i is ih =>
    intro s hs hm
    exact ⟨h s i hs hm.1, ih _ (hstep s i hs hm.1) hm.2⟩

theorem exec_invariant (step : σ → ι → σ × ω) (C : σ → ι → Prop) (P : σ → Prop)
    (hstep : ∀ s i, P s → C s i → P (step s i).1) :
    ∀ (is : List ι) (s : σ), P s → Meets step C s is → P (exec step s is).1 := by
  intro is
  induction is with
  | nil => intro s hs _; exact hs
  | cons i is ih =>
    intro s hs hm
    exact ih _ (hstep s i hs hm.1) hm.2

/-- A property of all answers of a run. -/
theorem forall_outputs_iff (step : σ → ι → σ × ω) (P : ω → Prop) :
    ∀ (is : List ι) (s : σ),
      (∀ o ∈ (exec step s is).2, P o) ↔ Meets step (fun s i => P (step s i).2) s is := by
  intro is
  induction is with
  | nil => intro s; simp
  | cons i is ih =>
    intro s
    simp only [exec_cons, List.forall_mem_cons, meets_cons, ih]

theorem exec_simulates (step : σ → ι → σ × ω) (stepA : τ → ι → τ × ω) (C : σ → ι → Prop)
    (R : σ → τ → Prop)
    (hstep : ∀ s t i, R s t → C s i →
      R (step s i).1 (stepA t i).1 ∧ (step s i).2 = (stepA t i).2) :
    ∀ (is : List ι) (s : σ) (t : τ), R s t → Meets step C s is →
      R (exec step s is).1 (exec stepA t is).1 ∧ (exec step s is).2 = (exec stepA t is).2 := by
  intro is
  induction is with
  | nil => intro s t hr _; exact ⟨hr, rfl⟩
  | cons i is ih =>
    intro s t hr hm
    obtain ⟨hr', ho⟩ := hstep s t i hr hm.1
    obtain ⟨hf, hos⟩ := ih _ _ hr' hm.2
    exact ⟨hf, by simp only [exec_cons, ho, hos]⟩

theorem meets_of_forall (step : σ → ι → σ × ω) (C : ι → Prop) :
    ∀ (is : List ι) (s : σ), (∀ i ∈ is, C i) → Meets step (fun _ i => C i) s is := by
  intro is
  induction is with
  | nil => intro s _; trivial
  | cons i is ih =>
    intro s h
    exact ⟨h i (List.mem_cons_self ..), ih _ fun j hj => h j (List.mem_cons_of_mem _ hj)⟩

/-- Inside `K`, `P` holds all along a run that starts with it exactly when no step loses it. -/
theorem prefixes_iff_within (step : σ → ι → σ × ω) {K C : σ → ι → Prop} {I P : σ → Prop}
    (hkeep : ∀ s i, I s → P s → K s i → C s i → I (step s i).1)
    (hstep : ∀ s i, I s → P s → K s i → (P (step s i).1 ↔ C s i)) :
    ∀ (is : List ι) (s : σ), I s → P s → Meets step K s is →
      ((∀ k, P (exec step s (is.take k)).1) ↔ Meets step C s is) := by
  intro is
  induction is with
  | nil =>
    intro s _ hp _
    simp only [List.take_nil, exec_nil, meets_nil, iff_true]
    exact fun _ => hp
  | cons i is ih =>
    intro s hi hp hm
    obtain ⟨hk, hm⟩ := hm
    constructor
    · intro h
      have hfirst : P (step s i).1 := h 1
      have hc := (hstep s i hi hp hk).mp hfirst
      exact ⟨hc, (ih _ (hkeep s i hi hp hk hc) hfirst hm).mp fun k => h (k + 1)⟩
    · intro h k
      obtain ⟨hc, hrest⟩ := h
      cases k with
      | zero => exact hp
      | succ k =>
        have hnext := (hstep s i hi hp hk).mpr hc
        exact (ih _ (hkeep s i hi hp hk hc) hnext hm).mpr hrest k

theorem prefixes_iff (step : σ → ι → σ × ω) {C : σ → ι → Prop} {I P : σ → Prop}
    (hkeep : ∀ s i, I s → P s → C s i → I (step s i).1)
    (hstep : ∀ s i, I s → P s → (P (step s i).1 ↔ C s i)) (is : List ι) (s : σ) (hi : I s)
    (hp : P s) : (∀ k, P (exec step s (is.take k)).1) ↔ Meets step C s is :=
  prefixes_iff_within step (K := fun _ _ => True) (fun s i hi hp _ hc => hkeep s i hi hp hc)
    (fun s i hi hp _ => hstep s i hi hp) is s hi hp (meets_of_forall step (fun _ => True) is s
      fun _ _ => trivial)

/-- The machine may stop in the middle of a step; then the run has no result. -/
def tryExec (step : σ → ι → Option (σ × ω)) : σ → List ι → Option (σ × List ω)
  | s, [] => some (s, [])
  | s, i :: is =>
    match step s i with
    | none => none
    | some r => (tryExec step r.1 is).map fun t => (t.1, r.2 :: t.2)

/-- A run that may stop gets to its end exactly when each step is one that does not. -/
theorem tryExec_isSome_iff (stepT : σ → ι → Option (σ × ω)) (step : σ → ι → σ × ω)
    {C : σ → ι → Prop} {P : σ → Prop}
    (hagree : ∀ s i r, stepT s i = some r → r = step s i)
    (hsome : ∀ s i, P s → ((stepT s i).isSome = true ↔ C s i))
    (hkeep : ∀ s i, P s → C s i → P (step s i).1) :
    ∀ (is : List ι) (s : σ), P s → ((tryExec stepT s is).isSome = true ↔ Meets step C s is) := by
  intro is
  induction is with
  | nil => intro s _; simp [tryExec]
  | cons i is ih =>
    intro s hp
    have hc := hsome s i hp
    simp only [tryExec, meets_cons, ← hc]
    cases hs : stepT s i with
    | none => simp
    | some r =>
      have hr := hagree s i r hs
      have hstay : P r.1 := by
        rw [hr]
        exact hkeep s i hp (hc.mp (by rw [hs]; rfl))
      simp only [Option.isSome_map, Option.isSome_some, true_and, ih _ hstay]
      rw [← hr]

/-- Two machines in step with each other meet conditions that agree on related states. -/
theorem meets_simulates (step : σ → ι → σ × ω) (stepA : τ → ι → τ × ω) (K : ι → Prop)
    {C : σ → ι → Prop} {D : τ → ι → Prop} (R : σ → τ → Prop)
    (hstep : ∀ s t i, R s t → K i → R (step s i).1 (stepA t i).1)
    (hiff : ∀ s t i, R s t → K i → (C s i ↔ D t i)) :
    ∀ (is : List ι) (s : σ) (t : τ), R s t → (∀ i ∈ is, K i) →
      (Meets step C s is ↔ Meets stepA D t is) := by
  intro is
  induction is with
  | nil => intro s t _ _; exact Iff.rfl
  | cons i is ih =>
    intro s t hr hk
    have hi := hk i (List.mem_cons_self ..)
    have hrest := ih _ _ (hstep s t i hr hi) fun j hj => hk j (List.mem_cons_of_mem _ hj)
    simp only [meets_cons, hiff s t i hr hi, hrest]

end NgxWasm.Lib.Run
