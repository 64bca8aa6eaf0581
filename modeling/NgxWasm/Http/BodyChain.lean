import NgxWasm.Http.BodyFilter
import NgxWasm.ProxyWasm.ResumeIndex

/-!
# One chunk in the filter chain

Filters that only continue or pause: a chunk passes the filters from
`exec_index` on up to the first one that pauses.
-/

namespace NgxWasm.Http.BodyChain
open NgxWasm.ProxyWasm NgxWasm.ProxyWasm.Resume NgxWasm.ProxyWasm.ResumeIndex
open NgxWasm.Http.BodyFilter

structure Healthy (s : Chain) (n : ℕ) : Prop where
  size : s.nfilters = n
  sound : ∀ (i : ℕ) (e : Exec), s.pwexecs[i]? = some e → e.ecode = none

theorem healthy_get {s : Chain} {n i : ℕ} (h : Healthy s n) (hi : i < n) :
    ∃ e, s.pwexecs[i]? = some e ∧ e.ecode = none := by
  have hlt : i < s.pwexecs.length := by
    have hn := h.size
    rw [Chain.nfilters] at hn
    omega
  exact ⟨_, List.getElem?_eq_getElem hlt, h.sound i _ (List.getElem?_eq_getElem hlt)⟩

theorem healthy_of_eq {s t : Chain} {n : ℕ} (h : Healthy s n) (he : t.pwexecs = s.pwexecs) :
    Healthy t n := by
  refine ⟨?_, fun i e hget => h.sound i e (he ▸ hget)⟩
  rw [Chain.nfilters, he]
  exact h.size

theorem healthy_modify {s : Chain} {n : ℕ} (h : Healthy s n) (i : ℕ) {f : Exec → Exec}
    (hf : ∀ e, e.ecode = none → (f e).ecode = none) :
    Healthy { s with pwexecs := s.pwexecs.modify i f } n := by
  refine ⟨?_, fun j e he => ?_⟩
  · rw [Chain.nfilters, List.length_modify]
    exact h.size
  · simp only [List.getElem?_modify, Option.map_eq_map, Option.map_eq_some_iff] at he
    obtain ⟨e', he', heq⟩ := he
    have hs := h.sound j e' he'
    rw [← heq]
    split
    · exact hf e' hs
    · exact hs

theorem healthy_setEcode {s : Chain} {n : ℕ} (h : Healthy s n) (i : ℕ) :
    Healthy (setEcode s i none) n := healthy_modify h i fun _ _ => rfl

theorem healthy_setIctx {s : Chain} {n : ℕ} (h : Healthy s n) (i ictx : ℕ) :
    Healthy (setIctx s i ictx) n := healthy_modify h i fun _ he => he

structure InBody (s : Chain) (n : ℕ) : Prop extends Healthy s n where
  step : s.step = .respBody
  phase : s.phase = .bodyFilter

theorem action2rc_cont {s : Chain} {n i : ℕ} (h : InBody s n) (hi : i < n)
    (ha : s.action = .cont) : action2rc s i = (s, .ok) := by
  obtain ⟨e, he, hc⟩ := healthy_get h.toHealthy hi
  simp [action2rc, he, hc, h.step, ha]

theorem action2rc_pause {s : Chain} {n i : ℕ} (h : InBody s n) (hi : i < n)
    (ha : s.action = .pause) : action2rc s i = ({ s with respBuffering := true }, .again) := by
  obtain ⟨e, he, hc⟩ := healthy_get h.toHealthy hi
  simp [action2rc, he, hc, h.step, ha, h.phase, pausable]

theorem runStep_body {s : Chain} {n i : ℕ} (h : InBody s n) (hi : i < n) (ha : s.action = .cont)
    (a : Action) :
    ∃ t ictx target, runStep s i .respBody (returns a) = (t, none) ∧ InBody t n ∧
      t.trace = s.trace ++ [.ran ⟨i, .respBody, a, ictx, s.execIndex, target⟩] ∧
      t.action = a ∧ t.execIndex = s.execIndex ∧ t.respBuffering = s.respBuffering := by
  obtain ⟨e, he, hc⟩ := healthy_get h.toHealthy hi
  have hnext : nextAction .respBody .cont (returns a) = a := by
    simp [nextAction, returns, returnedAction, returnsAction, stepRc]
  have hdone : ¬ ((returns a).host.getD .cont ≠ returnedAction .respBody .cont (returns a) ∧
      (returns a).host.getD Action.cont = .done) := by
    simp [returns]
  have hhealthy := healthy_setEcode (healthy_setIctx h.toHealthy i e.ictx) i
  simp only [runStep, he, returns, Bool.false_eq_true, if_false]
  simp only [returns] at hdone hnext
  rw [ha, hnext, if_neg hdone]
  refine ⟨_, _, _, rfl, ?_, rfl, rfl, rfl, rfl⟩
  exact ⟨healthy_of_eq hhealthy rfl, rfl, h.phase⟩

/-! ### The loop -/

def Passed (n i stop : ℕ) (s r : Chain) : Prop :=
  Healthy r n ∧ ∃ evs, r.trace = s.trace ++ evs ∧ (ranAny evs = true ↔ i < n) ∧
    ∀ k, continued evs k = true ↔ i ≤ k ∧ k < stop

/-- What a run from filter `i` on leaves: all filters continue, or `j` is the
first one that pauses. -/
def Outcome (act : ℕ → Action) (n i : ℕ) (s r : Chain) : Prop :=
  (∀ m, i ≤ m → m < n → act m = .cont) ∧ r.execIndex = 0 ∧ r.respBuffering = false ∧
      Passed n i n s r ∨
    ∃ j, i ≤ j ∧ j < n ∧ act j = .pause ∧ (∀ m, i ≤ m → m < j → act m = .cont) ∧
      r.execIndex = j ∧ r.respBuffering = true ∧ Passed n i j s r

theorem continued_append (xs ys : List Event) (k : ℕ) :
    continued (xs ++ ys) k = (continued xs k || continued ys k) := List.any_append

theorem outcome_cons {act : ℕ → Action} {n i : ℕ} {s u r : Chain} {ictx execIndex : ℕ}
    {target : Option ℕ} (hi : i < n) (hc : act i = .cont)
    (ht : u.trace = s.trace ++ [.access i, .ran ⟨i, .respBody, .cont, ictx, execIndex, target⟩])
    (h : Outcome act n (i + 1) u r) : Outcome act n i s r := by
  have hpass : ∀ stop, i < stop → Passed n (i + 1) stop u r → Passed n i stop s r := by
    rintro stop hs ⟨hh, evs, htrace, -, hcont⟩
    refine ⟨hh, _, by rw [htrace, ht, List.append_assoc], by simp [ranAny, hi], fun k => ?_⟩
    have hfirst : continued [.access i, .ran ⟨i, .respBody, .cont, ictx, execIndex, target⟩] k =
        decide (i = k) := by simp [continued]
    rw [continued_append, hfirst, Bool.or_eq_true, decide_eq_true_iff, hcont k]
    omega
  have hbelow : ∀ stop, (∀ m, i + 1 ≤ m → m < stop → act m = .cont) →
      ∀ m, i ≤ m → m < stop → act m = .cont := by
    intro stop hall m h1 h2
    by_cases hm : m = i
    · rw [hm, hc]
    · exact hall m (by omega) h2
  rcases h with ⟨hall, hx, hb, hp⟩ | ⟨j, h1, h2, h3, hall, hx, hb, hp⟩
  · exact .inl ⟨hbelow n hall, hx, hb, hpass n hi hp⟩
  · exact .inr ⟨j, by omega, h2, h3, hbelow j hall, hx, hb, hpass j (by omega) hp⟩

theorem nextStep_body {s : Chain} {n : ℕ} (h : InBody s n) :
    InBody (nextStep s) n ∧ (nextStep s).action = s.action ∧
      (nextStep s).respBuffering = s.respBuffering ∧ (nextStep s).trace = s.trace ∧
      (nextStep s).execIndex = if n ≤ s.execIndex then 0 else s.execIndex := by
  simp only [nextStep, h.size]
  split
  · exact ⟨⟨healthy_of_eq h.toHealthy rfl, h.step, h.phase⟩, rfl, rfl, rfl, rfl⟩
  · exact ⟨h, rfl, rfl, rfl, rfl⟩

theorem loop_paused {n : ℕ} (guest : ℕ → Guest) {i k : ℕ} {s : Chain} (rc : Rc) (h : InBody s n)
    (ha : s.action = .pause) (hb : s.respBuffering = true) (hik : i + k = n) :
    ∃ evs, (resumeLoop .respBody guest k i s rc).1 = { s with trace := s.trace ++ evs } ∧
      ranAny evs = false ∧ ∀ m, continued evs m = false := by
  cases k with
  | zero => exact ⟨[], by simp [resumeLoop], rfl, fun _ => rfl⟩
  | succ k =>
    have hacc : InBody { s with trace := s.trace ++ [.access i] } n :=
      ⟨healthy_of_eq h.toHealthy rfl, h.step, h.phase⟩
    refine ⟨[.access i], ?_, rfl, fun _ => rfl⟩
    simp only [resumeLoop, action2rc_pause hacc (by omega : i < n) ha]
    simp [← hb]

theorem loop_body {n : ℕ} {act : ℕ → Action} (hact : ∀ i, act i = .cont ∨ act i = .pause) (k : ℕ) :
    ∀ (i : ℕ) (s : Chain) (rc : Rc), InBody s n → s.action = .cont → s.respBuffering = false →
      i + k = n → s.execIndex = (if k = 0 then 0 else i) →
      Outcome act n i s (resumeLoop .respBody (fun i => returns (act i)) k i s rc).1 := by
  induction k with
  | zero =>
    intro i s rc h _ hb hik hx
    refine .inl ⟨fun m h1 h2 => by omega, hx, hb, h.toHealthy, [], (List.append_nil _).symm, ?_, ?_⟩
    · simp only [ranAny, List.any_nil, Bool.false_eq_true, false_iff]
      omega
    · intro k
      simp only [continued, List.any_nil, Bool.false_eq_true, false_iff]
      omega
  | succ k ih =>
    intro i s rc h ha hb hik hx
    rw [if_neg (by omega)] at hx
    have hi : i < n := by omega
    have hacc : InBody { s with trace := s.trace ++ [.access i] } n :=
      ⟨healthy_of_eq h.toHealthy rfl, h.step, h.phase⟩
    obtain ⟨t, ictx, target, hrun, hbody, htrace, hta, htx, htb⟩ := runStep_body hacc hi ha (act i)
    have hset : InBody (setEcode t i none) n :=
      ⟨healthy_setEcode hbody.toHealthy i, hbody.step, hbody.phase⟩
    have htrace' : t.trace = s.trace ++
        [.access i, .ran ⟨i, .respBody, act i, ictx, s.execIndex, target⟩] := by
      rw [htrace, List.append_assoc]
      rfl
    have hsize : (setEcode t i none).nfilters = n := hset.size
    have hsx : (setEcode t i none).execIndex = i := htx.trans hx
    simp only [resumeLoop, action2rc_cont hacc hi ha, hrun, ne_eq, not_true_eq_false, if_false,
      reduceCtorEq, decide_false, Bool.false_and, Bool.false_eq_true, Option.isSome_none]
    rcases hact i with hc | hp
    · have hadv : advance .respBody (setEcode t i none) =
          { setEcode t i none with execIndex := i + 1 } := by
        simp only [advance, show (setEcode t i none).action = .cont from hta.trans hc, hsx]
      have hin : InBody { setEcode t i none with execIndex := i + 1 } n :=
        ⟨healthy_of_eq hset.toHealthy rfl, hset.step, hset.phase⟩
      rw [hadv, action2rc_cont hin hi (hta.trans hc)]
      simp only [not_true_eq_false, false_and, if_false]
      obtain ⟨hn, hna, hnb, hnt, hnx⟩ := nextStep_body hin
      refine outcome_cons hi hc (hnt.trans (hc ▸ htrace')) (ih (i + 1) _ _ hn ?_ ?_ (by omega) ?_)
      · exact hna.trans (hta.trans hc)
      · exact hnb.trans (htb.trans hb)
      · rw [hnx]
        show (if n ≤ i + 1 then 0 else i + 1) = if k = 0 then 0 else i + 1
        by_cases hk : k = 0
        · rw [if_pos (by omega), if_pos hk]
        · rw [if_neg (by omega), if_neg hk]
    · have hadv : advance .respBody (setEcode t i none) = setEcode t i none := by
        simp [advance, show (setEcode t i none).action = .pause from hta.trans hp]
      rw [hadv, action2rc_pause hset hi (hta.trans hp)]
      simp only [reduceCtorEq, not_false_eq_true, not_true_eq_false, and_false, if_false]
      have hin : InBody { setEcode t i none with respBuffering := true } n :=
        ⟨healthy_of_eq hset.toHealthy rfl, hset.step, hset.phase⟩
      obtain ⟨hn, hna, hnb, hnt, hnx⟩ := nextStep_body hin
      obtain ⟨evs, hr, hran, hcont⟩ := loop_paused (fun i => returns (act i)) .again hn
        (hna.trans (hta.trans hp)) hnb (show i + 1 + k = n by omega)
      refine .inr ⟨i, Nat.le_refl i, hi, hp, fun m h1 h2 => by omega, ?_, ?_, ?_, ?_⟩
      · rw [hr, hnx, if_neg (by show ¬ n ≤ (setEcode t i none).execIndex; omega)]
        exact hsx
      · rw [hr]
        exact hnb
      · rw [hr]
        exact healthy_of_eq hn.toHealthy rfl
      · refine ⟨[.access i, .ran ⟨i, .respBody, act i, ictx, s.execIndex, target⟩] ++ evs, ?_,
          by simp [ranAny, hi], fun m => ?_⟩
        · rw [hr, ← List.append_assoc, ← htrace']
          exact congrArg (· ++ evs) hnt
        · rw [continued_append, hcont m]
          simp only [continued, hp, List.any_cons, List.any_nil, Bool.or_false, reduceCtorEq,
            decide_false, Bool.and_false, Bool.false_eq_true, false_iff]
          omega

theorem resume_body {n : ℕ} {act : ℕ → Action} (hact : ∀ i, act i = .cont ∨ act i = .pause)
    {s : Chain} (h : Healthy s n) (hb : s.respBuffering = false)
    (hx : s.execIndex < n ∨ n = 0 ∧ s.execIndex = 0) :
    Outcome act n s.execIndex s
      (Resume.bodyFilterResume s fun i => returns (act i)).1 := by
  have hin : InBody { s with action := .cont, phase := .bodyFilter, step := .respBody } n :=
    ⟨healthy_of_eq h rfl, rfl, rfl⟩
  have hsize : s.nfilters = n := h.size
  have hidx : s.execIndex = if s.nfilters - s.execIndex = 0 then 0 else s.execIndex := by
    split
    · omega
    · rfl
  have hcall : Resume.bodyFilterResume s (fun i => returns (act i)) =
      resumeLoop .respBody (fun i => returns (act i)) (s.nfilters - s.execIndex) s.execIndex
        { s with action := .cont, phase := .bodyFilter, step := .respBody } .ok := by
    rw [Resume.bodyFilterResume, if_neg (by simp [hb])]
    rfl
  rw [hcall]
  exact loop_body hact (s.nfilters - s.execIndex) s.execIndex _ .ok hin rfl hb (by omega) hidx

end NgxWasm.Http.BodyChain
