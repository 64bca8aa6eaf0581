import NgxWasm.ProxyWasm.InstanceStore
import NgxWasm.Lib.Run
import Mathlib.Data.List.Perm.Basic
import Mathlib.Data.List.Range
import Mathlib.Tactic.Common

/-!
# What the scan for an instance finds

At a trapped instance the cursor moves twice, so the instance behind it is passed
over, and a trapped last instance sends the cursor through the sentinel back to
the head. Of a run of trapped instances one pass takes every other one away.
-/

namespace NgxWasm.ProxyWasm.InstanceStore

open NgxWasm.Lib.Run

variable {M : Type} [DecidableEq M] {module : M}

def live (module : M) (ictx : Ictx M) : Bool := !ictx.trapped && decide (ictx.module = module)

theorem live_iff {ictx : Ictx M} :
    live module ictx = true ↔ ictx.trapped = false ∧ ictx.module = module := by
  simp [live]

/-! ### What any scan keeps -/

theorem scan_perm (module : M) (passed rest sweep : List (Ictx M)) :
    ((scan module passed rest sweep).busy ++ (scan module passed rest sweep).sweep).Perm
      (passed ++ rest ++ sweep) := by
  fun_induction scan module passed rest sweep with
  | case1 passed sweep => simp
  | case2 passed sweep ictx h ih =>
    apply ih.trans
    rw [List.perm_iff_count]
    intro a
    simp only [List.count_append, List.count_nil]
    omega
  | case3 passed sweep ictx h next rest ih =>
    apply ih.trans
    rw [List.perm_iff_count]
    intro a
    simp only [List.count_append, List.count_cons, List.count_nil]
    omega
  | case4 passed sweep ictx rest h hm => simp
  | case5 passed sweep ictx rest h hm ih =>
    apply ih.trans
    simp

theorem scan_busy_sublist (module : M) (passed rest sweep : List (Ictx M)) :
    (scan module passed rest sweep).busy.Sublist (passed ++ rest) := by
  fun_induction scan module passed rest sweep with
  | case1 passed sweep => simp
  | case2 passed sweep ictx h ih => exact ih.trans (List.sublist_append_left _ _)
  | case3 passed sweep ictx h next rest ih =>
    apply ih.trans
    rw [List.append_assoc]
    exact (List.Sublist.refl passed).append (List.sublist_cons_self _ _)
  | case4 passed sweep ictx rest h hm => simp
  | case5 passed sweep ictx rest h hm ih =>
    apply ih.trans
    simp

theorem scan_found {passed rest sweep : List (Ictx M)} {ictx : Ictx M}
    (h : (scan module passed rest sweep).found = some ictx) :
    live module ictx = true ∧ ictx ∈ (scan module passed rest sweep).busy := by
  fun_induction scan module passed rest sweep with
  | case1 passed sweep => cases h
  | case2 passed sweep trapped ht ih => exact ih h
  | case3 passed sweep trapped ht next rest ih => exact ih h
  | case4 passed sweep other rest ht hm =>
    cases h
    exact ⟨live_iff.mpr ⟨by simpa using ht, hm⟩, by simp⟩
  | case5 passed sweep other rest ht hm ih => exact ih h

/-- The sweep queue only grows, at its end. -/
theorem scan_append (module : M) (passed rest before sweep : List (Ictx M)) :
    scan module passed rest (before ++ sweep) =
      { scan module passed rest sweep with
        sweep := before ++ (scan module passed rest sweep).sweep } := by
  fun_induction scan module passed rest sweep with
  | case1 passed sweep => rw [scan]
  | case2 passed sweep ictx h ih =>
    conv_lhs => rw [scan.eq_def]
    simp only [h, ↓reduceIte, List.append_assoc]
    exact ih
  | case3 passed sweep ictx h next rest ih =>
    conv_lhs => rw [scan.eq_def]
    simp only [h, ↓reduceIte, List.append_assoc]
    exact ih
  | case4 passed sweep ictx rest h hm =>
    conv_lhs => rw [scan.eq_def]
    simp only [h, hm, Bool.false_eq_true, ↓reduceIte]
  | case5 passed sweep ictx rest h hm ih =>
    conv_lhs => rw [scan.eq_def]
    simp only [h, hm, Bool.false_eq_true, ↓reduceIte]
    exact ih

/-! ### Runs of trapped instances -/

/-- Length of the run of trapped instances directly before the first untrapped
instance of the module; `t` of them were already seen. -/
def runBefore (module : M) : ℕ → List (Ictx M) → Option ℕ
  | _, [] => none
  | t, ictx :: rest =>
    if ictx.trapped then runBefore module (t + 1) rest
    else if ictx.module = module then some t
    else runBefore module 0 rest

/-- Length of the run of trapped instances at the end. -/
def trailing : ℕ → List (Ictx M) → ℕ
  | t, [] => t
  | t, ictx :: rest => if ictx.trapped then trailing (t + 1) rest else trailing 0 rest

/-- Where `t` trapped instances stand directly before the wanted one and `e` at
the end of the queue: a pass reaches it if `t` is even; otherwise a further pass
is made if `e` is odd, with half of each run gone. -/
def reached (t e : ℕ) : Bool :=
  if t % 2 = 0 then true else e % 2 == 1 && reached (t / 2) (e / 2)
termination_by t
decreasing_by omega

theorem reached_even {t e : ℕ} (h : t % 2 = 0) : reached t e = true := by
  rw [reached, if_pos h]

theorem reached_odd {t e : ℕ} (h : t % 2 = 1) :
    reached t e = (e % 2 == 1 && reached (t / 2) (e / 2)) := by
  rw [reached, if_neg (by omega)]

theorem runBefore_append {passed rest : List (Ictx M)} {t : ℕ} :
    runBefore module t (passed ++ rest) =
      match runBefore module t passed with
      | some u => some u
      | none => runBefore module (trailing t passed) rest := by
  induction passed generalizing t with
  | nil => rfl
  | cons ictx passed ih =>
    simp only [List.cons_append, runBefore, trailing]
    split
    · exact ih
    · split
      · rfl
      · exact ih

omit [DecidableEq M] in
theorem trailing_append (passed rest : List (Ictx M)) (t : ℕ) :
    trailing t (passed ++ rest) = trailing (trailing t passed) rest := by
  induction passed generalizing t with
  | nil => rfl
  | cons ictx passed ih =>
    simp only [List.cons_append, trailing]
    split
    · exact ih (t + 1)
    · exact ih 0

theorem runBefore_eq_none {t : ℕ} {q : List (Ictx M)} :
    runBefore module t q = none ↔ ∀ ictx ∈ q, live module ictx = false := by
  induction q generalizing t with
  | nil => simp [runBefore]
  | cons ictx q ih =>
    simp only [runBefore, List.forall_mem_cons]
    by_cases ht : ictx.trapped = true
    · simp [ht, ih, live]
    · by_cases hm : ictx.module = module
      · simp [ht, hm, live]
      · simp [ht, hm, ih, live]

/-- Whether a scan in the middle of a pass will come to the wanted instance: the
cursor stands at the head of `rest`; of the run it stands in, as many instances
were taken away as stand at the end of `passed`. -/
def comes (module : M) (passed rest : List (Ictx M)) : Bool :=
  let e := trailing (2 * trailing 0 passed) rest
  match runBefore module 0 passed with
  | some t => e % 2 == 1 && reached t (e / 2)
  | none =>
    match runBefore module (2 * trailing 0 passed) rest with
    | some t => reached t e
    | none => false

theorem comes_nil (passed : List (Ictx M)) : comes module passed [] = false := by
  have heven : (2 * trailing 0 passed) % 2 = 0 := by omega
  simp only [comes, trailing, runBefore, heven]
  split <;> rfl

theorem comes_last (passed : List (Ictx M)) {ictx : Ictx M} (h : ictx.trapped = true) :
    comes module passed [ictx] = comes module [] passed := by
  have hodd : (2 * trailing 0 passed + 1) % 2 = 1 := by omega
  have hhalf : (2 * trailing 0 passed + 1) / 2 = trailing 0 passed := by omega
  simp only [comes, trailing, runBefore, h, ↓reduceIte, hodd, hhalf, beq_self_eq_true,
    Bool.true_and, Nat.mul_zero]

theorem comes_other (passed rest : List (Ictx M)) {ictx : Ictx M} (ht : ictx.trapped = false)
    (hm : ictx.module ≠ module) :
    comes module passed (ictx :: rest) = comes module (passed ++ [ictx]) rest := by
  have hpassed : runBefore module 0 (passed ++ [ictx]) = runBefore module 0 passed := by
    rw [runBefore_append]
    simp only [runBefore, ht, hm, Bool.false_eq_true, ↓reduceIte]
    split <;> simp_all
  simp only [comes, hpassed, trailing_append]
  simp only [trailing, runBefore, ht, hm, Bool.false_eq_true, ↓reduceIte, Nat.mul_zero]

theorem comes_skip_trapped (passed rest : List (Ictx M)) {ictx next : Ictx M}
    (h : ictx.trapped = true) (hn : next.trapped = true) :
    comes module passed (ictx :: next :: rest) = comes module (passed ++ [next]) rest := by
  have hpassed : runBefore module 0 (passed ++ [next]) = runBefore module 0 passed := by
    rw [runBefore_append]
    simp only [runBefore, hn, ↓reduceIte]
    split <;> simp_all
  have htwo : 2 * trailing 0 passed + 1 + 1 = 2 * (trailing 0 passed + 1) := by omega
  simp only [comes, hpassed, trailing_append]
  simp only [trailing, runBefore, h, hn, ↓reduceIte, htwo]

theorem comes_skip_other (passed rest : List (Ictx M)) {ictx next : Ictx M}
    (h : ictx.trapped = true) (hn : next.trapped = false) (hm : next.module ≠ module) :
    comes module passed (ictx :: next :: rest) = comes module (passed ++ [next]) rest := by
  rw [← comes_other passed rest hn hm]
  simp only [comes, trailing, runBefore, h, hn, hm, Bool.false_eq_true, ↓reduceIte]

/-- The wanted instance is passed over: the trapped ones before it were odd in number. -/
theorem comes_skip_wanted {passed rest : List (Ictx M)} {ictx next : Ictx M}
    (h : ictx.trapped = true) (hn : next.trapped = false) (hm : next.module = module)
    (hpassed : runBefore module 0 passed = none) :
    comes module passed (ictx :: next :: rest) = comes module (passed ++ [next]) rest := by
  have hwanted : runBefore module 0 (passed ++ [next]) = some (trailing 0 passed) := by
    rw [runBefore_append, hpassed]
    simp only [runBefore, hn, hm, Bool.false_eq_true, ↓reduceIte]
  have hodd : (2 * trailing 0 passed + 1) % 2 = 1 := by omega
  have hhalf : (2 * trailing 0 passed + 1) / 2 = trailing 0 passed := by omega
  simp only [comes, hpassed, hwanted, trailing_append]
  simp only [trailing, runBefore, h, hn, hm, Bool.false_eq_true, ↓reduceIte, reached_odd hodd,
    hhalf, Nat.mul_zero]

/-- At most one untrapped instance of the module. -/
def Alone (module : M) (q : List (Ictx M)) : Prop := q.countP (live module) ≤ 1

theorem Alone.runBefore_none {passed rest : List (Ictx M)} {ictx : Ictx M}
    (h : Alone module (passed ++ ictx :: rest)) (hlive : live module ictx = true) :
    runBefore module 0 passed = none := by
  rw [runBefore_eq_none]
  intro other hother
  by_contra hne
  have hpos : 0 < passed.countP (live module) :=
    List.countP_pos_iff.mpr ⟨other, hother, by simpa using hne⟩
  unfold Alone at h
  rw [List.countP_append, List.countP_cons_of_pos hlive] at h
  omega

theorem Alone.sublist {q q' : List (Ictx M)} (h : Alone module q) (hsub : q'.Sublist q) :
    Alone module q' :=
  (hsub.countP_le).trans h

theorem scan_found_iff (passed rest sweep : List (Ictx M)) (h : Alone module (passed ++ rest)) :
    (scan module passed rest sweep).found.isSome = comes module passed rest := by
  fun_induction scan module passed rest sweep with
  | case1 passed sweep => rw [comes_nil]; rfl
  | case2 passed sweep ictx ht ih =>
    rw [comes_last passed ht]
    exact ih (h.sublist (List.sublist_append_left _ _))
  | case3 passed sweep ictx ht next rest ih =>
    have hsub : (passed ++ [next] ++ rest).Sublist (passed ++ ictx :: next :: rest) := by
      rw [List.append_assoc]
      exact (List.Sublist.refl passed).append (List.sublist_cons_self _ _)
    rw [ih (h.sublist hsub)]
    by_cases hn : next.trapped = true
    · exact (comes_skip_trapped passed rest ht hn).symm
    · have hn : next.trapped = false := by simpa using hn
      by_cases hm : next.module = module
      · have hpassed : runBefore module 0 passed = none := by
          have hsub := h.sublist hsub
          rw [List.append_assoc] at hsub
          exact hsub.runBefore_none (live_iff.mpr ⟨hn, hm⟩)
        exact (comes_skip_wanted ht hn hm hpassed).symm
      · exact (comes_skip_other passed rest ht hn hm).symm
  | case4 passed sweep ictx rest ht hm =>
    have ht : ictx.trapped = false := by simpa using ht
    have hpassed := h.runBefore_none (live_iff.mpr ⟨ht, hm⟩)
    have heven : (2 * trailing 0 passed) % 2 = 0 := by omega
    simp only [comes, hpassed, runBefore, ht, hm, Bool.false_eq_true, ↓reduceIte,
      reached_even heven, Option.isSome_some]
  | case5 passed sweep ictx rest ht hm ih =>
    rw [comes_other passed rest (by simpa using ht) hm]
    apply ih
    simpa using h

/-- The scan comes to the untrapped instance of the module, if there is one. -/
def Seen (module : M) (busy : List (Ictx M)) : Prop :=
  ∀ t, runBefore module 0 busy = some t → reached t (trailing 0 busy) = true

theorem found_isSome_iff {s : Store M} (h : Alone module s.busy) :
    (scan module [] s.busy s.sweep).found.isSome = true ↔
      Seen module s.busy ∧ runBefore module 0 s.busy ≠ none := by
  rw [scan_found_iff [] s.busy s.sweep h]
  simp only [comes, Seen, runBefore, trailing, Nat.mul_zero]
  cases hrun : runBefore module 0 s.busy with
  | none => simp
  | some t => simp

/-! ### Operations -/

/-- Everything a call can do: reuse, create, or fail. -/
theorem getInstance_cases (s : Store M) (module : M) (ok : Bool) :
    (∃ ictx, (scan module [] s.busy s.sweep).found = some ictx ∧
      getInstance s module ok =
        ({ s with busy := (scan module [] s.busy s.sweep).busy,
                  sweep := (scan module [] s.busy s.sweep).sweep }, some ictx)) ∨
    ((scan module [] s.busy s.sweep).found = none ∧ ok = true ∧
      getInstance s module ok =
        ({ s with busy := (scan module [] s.busy s.sweep).busy ++ [⟨s.created, module, false⟩],
                  sweep := (scan module [] s.busy s.sweep).sweep,
                  created := s.created + 1 }, some ⟨s.created, module, false⟩)) ∨
    ((scan module [] s.busy s.sweep).found = none ∧ ok = false ∧
      getInstance s module ok =
        ({ s with busy := (scan module [] s.busy s.sweep).busy,
                  sweep := (scan module [] s.busy s.sweep).sweep }, none)) := by
  cases hf : (scan module [] s.busy s.sweep).found with
  | some ictx => exact .inl ⟨ictx, rfl, by simp only [getInstance, hf]⟩
  | none =>
    cases ok with
    | true => exact .inr (.inl ⟨rfl, rfl, by simp only [getInstance, hf, ↓reduceIte]⟩)
    | false =>
      exact .inr (.inr ⟨rfl, rfl, by simp only [getInstance, hf, Bool.false_eq_true, ↓reduceIte]⟩)

/-- The ids in the three queues and those destroyed are those created, each once. -/
def Placed (s : Store M) : Prop :=
  ((s.busy ++ s.free ++ s.sweep).map Ictx.id ++ s.destroyed).Perm (List.range s.created)

theorem placed_scan (module : M) {s : Store M} (h : Placed s) :
    Placed { s with busy := (scan module [] s.busy s.sweep).busy,
                    sweep := (scan module [] s.busy s.sweep).sweep } := by
  refine List.Perm.trans ?_ h
  apply List.Perm.append_right
  apply List.Perm.map
  have hscan := scan_perm module [] s.busy s.sweep
  rw [List.perm_iff_count] at hscan ⊢
  intro a
  have ha := hscan a
  simp only [List.nil_append, List.count_append] at ha ⊢
  omega

omit [DecidableEq M] in
theorem placed_push {s : Store M} (h : Placed s) :
    Placed { s with busy := s.busy ++ [⟨s.created, module, false⟩], created := s.created + 1 } := by
  unfold Placed at h ⊢
  rw [List.range_succ, List.perm_iff_count] at *
  intro a
  have ha := h a
  simp only [List.map_append, List.map_cons, List.map_nil, List.count_append] at ha ⊢
  omega

theorem placed_getInstance {s : Store M} (h : Placed s) (module : M) (ok : Bool) :
    Placed (getInstance s module ok).1 := by
  have hscan := placed_scan module h
  obtain ⟨_, _, heq⟩ | ⟨_, _, heq⟩ | ⟨_, _, heq⟩ := getInstance_cases s module ok
  · rw [heq]
    exact hscan
  · rw [heq]
    exact placed_push hscan
  · rw [heq]
    exact hscan

omit [DecidableEq M] in
theorem trapIn_ids (id : ℕ) (q : List (Ictx M)) : (trapIn id q).map Ictx.id = q.map Ictx.id := by
  simp only [trapIn, List.map_map]
  apply List.map_congr_left
  intro ictx _
  simp only [Function.comp_apply]
  split <;> rfl

theorem trapIn_alone (id : ℕ) {q : List (Ictx M)} (h : Alone module q) :
    Alone module (trapIn id q) := by
  unfold Alone at h ⊢
  rw [trapIn, List.countP_map]
  apply le_trans _ h
  apply List.countP_mono_left
  intro ictx _ hlive
  simp only [Function.comp_apply] at hlive
  split at hlive
  · simp [live] at hlive
  · exact hlive

theorem placed_step {s : Store M} (h : Placed s) (op : Op M) : Placed (step s op).1 := by
  cases op with
  | get module ok => exact placed_getInstance h module ok
  | trap id =>
    simp only [Placed, step, trap, List.map_append, trapIn_ids] at h ⊢
    exact h
  | sweep =>
    unfold Placed at h ⊢
    rw [List.perm_iff_count] at h ⊢
    intro a
    have ha := h a
    simp only [step, storeSweep, List.map_append, List.map_nil, List.count_append,
      List.count_nil] at ha ⊢
    omega
  | destroy =>
    unfold Placed at h ⊢
    rw [List.perm_iff_count] at h ⊢
    intro a
    have ha := h a
    simp only [step, storeDestroy, storeSweep, List.map_append, List.map_nil, List.count_append,
      List.count_nil] at ha ⊢
    omega

/-- The state of the busy queue in which an operation finds what it looks for. -/
def Guard (s : Store M) : Op M → Prop
  | .get module _ => Seen module s.busy
  | _ => True

theorem alone_push {s : Store M} (h : ∀ m : M, Alone m s.busy) (hseen : Seen module s.busy)
    (hnone : (scan module [] s.busy s.sweep).found = none) (m : M) :
    Alone m ((scan module [] s.busy s.sweep).busy ++ [⟨s.created, module, false⟩]) := by
  have hsub := scan_busy_sublist module [] s.busy s.sweep
  by_cases hm : module = m
  · subst hm
    have habsent : runBefore module 0 s.busy = none := by
      by_contra hne
      have := (found_isSome_iff (h module)).mpr ⟨hseen, hne⟩
      rw [hnone] at this
      cases this
    have hzero : (scan module [] s.busy s.sweep).busy.countP (live module) = 0 := by
      rw [List.countP_eq_zero]
      intro ictx hictx
      rw [runBefore_eq_none.mp habsent ictx (hsub.subset hictx)]
      exact Bool.false_ne_true
    unfold Alone
    rw [List.countP_append, hzero]
    simp [live]
  · have hold := (h m).sublist hsub
    unfold Alone at hold ⊢
    rw [List.countP_append]
    simpa [List.countP_cons, live, hm] using hold

theorem alone_step {s : Store M} (h : ∀ m : M, Alone m s.busy) {op : Op M} (hop : Guard s op)
    (m : M) : Alone m (step s op).1.busy := by
  cases op with
  | get module ok =>
    have hsub := scan_busy_sublist module [] s.busy s.sweep
    simp only [step]
    obtain ⟨_, _, heq⟩ | ⟨hnone, _, heq⟩ | ⟨_, _, heq⟩ := getInstance_cases s module ok
    · rw [heq]
      exact (h m).sublist hsub
    · rw [heq]
      exact alone_push h hop hnone m
    · rw [heq]
      exact (h m).sublist hsub
  | trap id => exact trapIn_alone id (h m)
  | sweep => exact h m
  | destroy => exact Nat.zero_le 1

structure Sound (s : Store M) : Prop where
  placed : Placed s
  alone : ∀ m : M, Alone m s.busy

theorem sound_init : Sound (init : Store M) := ⟨List.Perm.refl _, fun _ => Nat.zero_le 1⟩

theorem sound_run (ops : List (Op M)) (h : Meets step Guard init ops) :
    Sound (exec step init ops).1 := by
  apply exec_invariant step Guard Sound _ ops init sound_init h
  intro s op hs hop
  exact ⟨placed_step hs.placed op, alone_step hs.alone hop⟩

/-! ### Answers -/

theorem getInstance_answer {s : Store M} {ok : Bool} {ictx : Ictx M}
    (h : (getInstance s module ok).2 = some ictx) :
    live module ictx = true ∧ ictx ∈ (getInstance s module ok).1.busy := by
  obtain ⟨_, hfound, heq⟩ | ⟨_, _, heq⟩ | ⟨_, _, heq⟩ := getInstance_cases s module ok
  · rw [heq] at h ⊢
    cases h
    exact scan_found hfound
  · rw [heq] at h ⊢
    cases h
    exact ⟨by simp [live], by simp⟩
  · rw [heq] at h
    cases h

theorem Alone.eq {q : List (Ictx M)} (h : Alone module q) {i j : Ictx M} (hi : i ∈ q) (hj : j ∈ q)
    (hli : live module i = true) (hlj : live module j = true) : i = j := by
  unfold Alone at h
  rw [List.countP_eq_length_filter] at h
  have hmi : i ∈ q.filter (live module) := List.mem_filter.mpr ⟨hi, hli⟩
  have hmj : j ∈ q.filter (live module) := List.mem_filter.mpr ⟨hj, hlj⟩
  match hq : q.filter (live module) with
  | [] => simp [hq] at hmi
  | [x] =>
    rw [hq, List.mem_singleton] at hmi hmj
    rw [hmi, hmj]
  | _ :: _ :: _ => simp [hq] at h

omit [DecidableEq M] in
theorem Placed.id_lt {s : Store M} (h : Placed s) {ictx : Ictx M} (hmem : ictx ∈ s.busy) :
    ictx.id < s.created := by
  rw [← List.mem_range]
  apply h.subset
  simp only [List.map_append, List.mem_append]
  exact .inl (.inl (.inl (List.mem_map_of_mem hmem)))

/-- The untrapped instance of the module is handed out exactly when it is seen. -/
theorem getInstance_reuses_iff {s : Store M} (hs : Sound s) (module : M) (ok : Bool) :
    (∀ ictx ∈ s.busy, live module ictx = true → (getInstance s module ok).2 = some ictx) ↔
      Seen module s.busy := by
  have hfound := found_isSome_iff (hs.alone module)
  have hsub := scan_busy_sublist module [] s.busy s.sweep
  constructor
  · intro h t ht
    have hne : runBefore module 0 s.busy ≠ none := by
      rw [ht]
      simp
    obtain ⟨ictx, hmem, hlive⟩ : ∃ ictx ∈ s.busy, live module ictx = true := by
      by_contra hno
      push Not at hno
      exact hne (runBefore_eq_none.mpr fun i hi => by simpa using hno i hi)
    have hans := h ictx hmem hlive
    obtain ⟨j, hj, heq⟩ | ⟨_, _, heq⟩ | ⟨_, _, heq⟩ := getInstance_cases s module ok
    · have := (hfound.mp (by rw [hj]; rfl)).1
      exact this t ht
    · -- a new instance is not the one that was there
      rw [heq] at hans
      cases hans
      exact absurd (hs.placed.id_lt hmem) (lt_irrefl _)
    · rw [heq] at hans
      cases hans
  · intro hseen ictx hmem hlive
    have hne : runBefore module 0 s.busy ≠ none := by
      intro hnone
      rw [runBefore_eq_none.mp hnone ictx hmem] at hlive
      cases hlive
    obtain ⟨j, hj⟩ := Option.isSome_iff_exists.mp (hfound.mpr ⟨hseen, hne⟩)
    obtain ⟨hlivej, hmemj⟩ := scan_found hj
    have hij : j = ictx := (hs.alone module).eq (hsub.subset hmemj) hmem hlivej hlive
    simp only [getInstance, hj, hij]

/-- In a run whose lookups all see the instance they look for, every instance is
in one queue, no module has two untrapped busy instances, and a lookup hands out
an untrapped instance of its module: the one that is there exactly when it is seen. -/
theorem store_run_sound (ops : List (Op M)) (h : Meets step Guard init ops) :
    Sound (exec step init ops).1 ∧ ∀ (module : M) (ok : Bool),
      (∀ ictx, (getInstance (exec step init ops).1 module ok).2 = some ictx →
        live module ictx = true ∧ ictx ∈ (getInstance (exec step init ops).1 module ok).1.busy) ∧
      ((∀ ictx ∈ (exec step init ops).1.busy, live module ictx = true →
        (getInstance (exec step init ops).1 module ok).2 = some ictx) ↔
        Seen module (exec step init ops).1.busy) := by
  have hs := sound_run ops h
  refine ⟨hs, ?_⟩
  intro module ok
  exact ⟨fun ictx hictx => getInstance_answer hictx, getInstance_reuses_iff hs module ok⟩

/-- The only instance traps and is replaced. -/
def replacing : List (Op ℕ) := [.get 7 true, .trap 0, .get 7 true, .sweep]

theorem store_run_sound_replacing :
    Sound (exec step init replacing).1 ∧
      (getInstance (exec step init replacing).1 7 false).2 = some ⟨1, 7, false⟩ := by
  have hmeets : Meets step Guard init replacing := by
    simp [replacing, step, Guard, Seen, runBefore, init, getInstance, scan, trap, trapIn]
  obtain ⟨hsound, hanswer⟩ := store_run_sound replacing hmeets
  refine ⟨hsound, ((hanswer 7 false).2.mpr ?_) _ ?_ ?_⟩
  · simp [replacing, step, Seen, runBefore, init, getInstance, scan, trap, trapIn, storeSweep,
      reached_even]
  · simp [replacing, step, init, getInstance, scan, trap, trapIn, storeSweep]
  · decide

/-- Module 7's instance traps in front of module 8's: the lookup for module 8
passes over its instance and creates a second one. -/
theorem lookup_behind_trapped :
    (exec step init [.get 7 true, .get 8 true, .trap 0, .get 8 true]).1.busy =
      [⟨1, 8, false⟩, ⟨2, 8, false⟩] ∧
    ¬ Alone 8 (exec step init [.get 7 true, .get 8 true, .trap 0, .get 8 true]).1.busy := by
  have hbusy : (exec step init [.get 7 true, .get 8 true, .trap 0, .get 8 true]).1.busy =
      [⟨1, 8, false⟩, ⟨2, 8, false⟩] := by
    simp [step, init, getInstance, scan, trap, trapIn]
  rw [hbusy]
  unfold Alone
  decide

end NgxWasm.ProxyWasm.InstanceStore
