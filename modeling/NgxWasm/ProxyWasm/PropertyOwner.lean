import NgxWasm.ProxyWasm.Properties

/-!
# Whose properties a filter reads

Filters run by the chain loop read the headers of their own request under any
interleaving. A dispatch or foreign callback, and the first callback of a
context, do so only when the entry at `exec_index` leads back to their request.
-/

namespace NgxWasm.ProxyWasm.PropertyOwner
open NgxWasm.Lib Run NgxWasm.ProxyWasm.Resume NgxWasm.ProxyWasm.ResumeIndex
open NgxWasm.ProxyWasm.ResumeCallback NgxWasm.ProxyWasm.Properties

def Own (names : ℕ → ℕ → String) (p : Probe) : Prop :=
  (∀ headers path, getRequestHeader headers p path =
    some (headers p.req (String.ofList (path.drop requestHeadersLen)))) ∧
  (∀ headers, getReferer headers p = some (headers p.req "referer")) ∧
  (∀ headers, getRequestId headers p = some (headers p.req "x-request-id")) ∧
  getFilterName names p = some (names p.req p.index)

/-- The entry at `exec_index` is of a filter of this name, and its instance is
the callback's own or was last run by the same request. -/
def Fits (names : ℕ → ℕ → String) (w : World) (req : ℕ) (r : Ran) : Prop :=
  names req r.execIndex = names req r.i ∧
    ∃ ictx, r.target = some ictx ∧ (ictx = r.ictx ∨ ∃ i, w.pwexec ictx = some (.stream req i))

def Legal (names : ℕ → ℕ → String) (w : World) : Input → Prop
  | .context req pwexec reads =>
    reads (w.chains req).nfilters = true → Fits names w req (firstContext (w.chains req) pwexec)
  | .call req c reads =>
    ∀ r, Outside (w.chains req) c r → reads r.i = true → Fits names w req r
  | _ => True

structure Inv (names : ℕ → ℕ → String) (w : World) : Prop where
  settled : ∀ req, Settled (w.chains req)
  own : ∀ p ∈ w.probes, Own names p

theorem getMapValue_own {p : Probe} {i : ℕ}
    (h : p.target.bind p.pwexec = some (.stream p.req i)) (headers : ℕ → String → Option String)
    (name : String) : getMapValue headers p name = some (headers p.req name) := by
  simp only [getMapValue, h]

theorem own_of_fits {names : ℕ → ℕ → String} {w : World} {req : ℕ} {r : Ran}
    (h : Fits names w req r) :
    Own names ⟨req, r.i, r.step, r.execIndex, r.target,
      Function.update w.pwexec r.ictx (some (.stream req r.i))⟩ := by
  obtain ⟨hname, ictx, htarget, howner⟩ := h
  obtain ⟨j, hj⟩ : ∃ j, Function.update w.pwexec r.ictx (some (.stream req r.i)) ictx =
      some (.stream req j) := by
    by_cases hi : ictx = r.ictx
    · exact ⟨r.i, by rw [hi, Function.update_self]⟩
    · obtain ⟨j, hj⟩ := howner.resolve_left hi
      exact ⟨j, by rw [Function.update_of_ne hi, hj]⟩
  have hmap := getMapValue_own (p := ⟨req, r.i, r.step, r.execIndex, r.target,
    Function.update w.pwexec r.ictx (some (.stream req r.i))⟩) (i := j)
    (by rw [htarget]; exact hj)
  refine ⟨fun headers path => hmap headers _, fun headers => hmap headers _,
    fun headers => hmap headers _, ?_⟩
  simp only [getFilterName, htarget, Option.map_some, hname]
  split
  · rfl
  · rfl

theorem fits_of_ownEntry (names : ℕ → ℕ → String) (w : World) (req : ℕ) {r : Ran}
    (h : OwnEntry r) : Fits names w req r :=
  ⟨by rw [h.1], r.ictx, h.2, .inl rfl⟩

/-! ### One event -/

theorem enter_inv {names : ℕ → ℕ → String} {w : World} (h : Inv names w) {req : ℕ}
    {reads : ℕ → Bool} {r : Ran} (hf : reads r.i = true → Fits names w req r) :
    Inv names (enter req reads w r) := by
  refine ⟨h.settled, fun p hp => ?_⟩
  simp only [enter] at hp
  split at hp
  · rename_i hr
    rcases List.mem_append.mp hp with hp | hp
    · exact h.own p hp
    · rw [List.mem_singleton.mp hp]
      exact own_of_fits (hf hr)
  · exact h.own p hp

theorem enterEvent_inv {names : ℕ → ℕ → String} {w : World} (h : Inv names w) {req : ℕ}
    {reads : ℕ → Bool} {e : Event}
    (hf : ∀ r, callback e = some r → reads r.i = true → Fits names w req r) :
    Inv names (enterEvent req reads w e) := by
  unfold enterEvent
  cases hc : callback e with
  | none => exact h
  | some r => exact enter_inv h (hf r hc)

theorem loop_inv (names : ℕ → ℕ → String) (req : ℕ) (reads : ℕ → Bool) (evs : List Event) :
    ∀ w, Inv names w → (∀ e ∈ evs, ∀ r, callback e = some r → OwnEntry r) →
      Inv names (evs.foldl (enterEvent req reads) w) := by
  induction evs with
  | nil => intro w h _; exact h
  | cons e evs ih =>
    intro w h hown
    refine ih _ (enterEvent_inv h fun r hr _ => ?_) fun e' he' => hown e' (List.mem_cons_of_mem _ he')
    exact fits_of_ownEntry names w req (hown e (List.mem_cons_self ..) r hr)

theorem settled_push {s : Chain} (h : Settled s) (pwexec : Exec) :
    Settled { s with pwexecs := s.pwexecs ++ [pwexec] } := by
  intro hn
  obtain ⟨e, he, hc⟩ := h hn
  have hlt : s.execIndex < s.pwexecs.length := (List.getElem?_eq_some_iff.mp he).1
  exact ⟨e, by rw [← he]; exact List.getElem?_append_left hlt, hc⟩

theorem inv_update {names : ℕ → ℕ → String} {w : World} (h : Inv names w) (req : ℕ) {s : Chain}
    (hs : Settled s) : Inv names { w with chains := Function.update w.chains req s } := by
  refine ⟨fun q => ?_, h.own⟩
  by_cases hq : q = req
  · rw [hq]
    simp only [Function.update_self]
    exact hs
  · simp only [Function.update_of_ne hq]
    exact h.settled q

theorem worldStep_inv {names : ℕ → ℕ → String} {w : World} {i : Input} (h : Inv names w)
    (hl : Legal names w i) : Inv names (worldStep w i).1 := by
  cases i with
  | context req pwexec reads =>
    exact enter_inv (inv_update h req (settled_push (h.settled req) pwexec)) hl
  | call req c reads =>
    obtain ⟨⟨first, rest, htrace, hrest, hfirst⟩, hset⟩ := callStep_trace (h.settled req) c
    have hw := inv_update h req hset
    simp only [worldStep, htrace, List.append_assoc, List.drop_left, List.foldl_append]
    refine loop_inv names req reads rest _ ?_ hrest
    rcases hfirst with rfl | ⟨e, r, rfl, hr, hout⟩
    · exact hw
    · apply enterEvent_inv hw
      intro r' hr' hreads
      rw [hr] at hr'
      rw [← Option.some.inj hr'] at hreads ⊢
      exact hl r hout hreads
  | root ictx | invalidate ictx => exact ⟨h.settled, h.own⟩

/-- Under any interleaving of requests on shared instances in which reads
outside of the chain loop fit, every callback reads the headers of its own
request and its own name. -/
theorem properties_own (names : ℕ → ℕ → String) (inputs : List Input)
    (h : Meets worldStep (Legal names) newWorld inputs) :
    ∀ p ∈ (exec worldStep newWorld inputs).1.probes, Own names p := by
  have hnew : Inv names newWorld := ⟨fun _ => settled_of_known rfl, by simp [newWorld]⟩
  exact (exec_invariant worldStep (Legal names) (Inv names) (fun _ _ hi hc => worldStep_inv hi hc)
    inputs newWorld hnew h).own

/-- Requests 0 and 1 with two filters each, on instances `a` and `b`: filter 0 of
request 0 pauses, request 1 runs, and a call dispatched by the paused filter
returns. Only the last callback reads properties if `late`. -/
def interleaved (a b : ℕ) (late : Bool) : List Input :=
  [.context 0 (created a) fun _ => !late, .context 0 (created b) fun _ => !late,
    .context 1 (created a) fun _ => !late, .context 1 (created b) fun _ => !late,
    .call 0 (.handler .rewrite fun _ => returns .pause) fun _ => !late,
    .call 1 (.handler .rewrite fun _ => returns .cont) fun _ => !late,
    .call 0 (.dispatched 0 false (returns .cont) false fun _ => returns .cont) fun _ => true]

theorem properties_own_one_instance :
    (exec worldStep newWorld (interleaved 7 7 false)).1.probes ≠ [] ∧
      ∀ p ∈ (exec worldStep newWorld (interleaved 7 7 false)).1.probes, Own (fun _ _ => "f") p := by
  refine ⟨List.cons_ne_nil _ _, properties_own _ _ ⟨?_, ?_, ?_, ?_, ?_, ?_, ?_, trivial⟩⟩
  · exact fun _ => ⟨rfl, 7, rfl, .inl rfl⟩
  · exact fun _ => ⟨rfl, 7, rfl, .inl rfl⟩
  · exact fun _ => ⟨rfl, 7, rfl, .inl rfl⟩
  · exact fun _ => ⟨rfl, 7, rfl, .inl rfl⟩
  · exact fun _ hr => hr.elim
  · exact fun _ hr => hr.elim
  · intro r hr _
    obtain ⟨pwexec, hp, -, -, -, hictx, ht⟩ := hr
    have hpw : pwexec = created 7 := (Option.some.inj hp).symm
    rw [hpw] at hictx
    rw [hictx] at ht
    exact ⟨rfl, 7, ht, .inl hictx.symm⟩

/-- With an instance for each filter the late callback reads the headers of request 1. -/
theorem dispatch_reads_other_request :
    ¬ ∀ p ∈ (exec worldStep newWorld (interleaved 7 8 true)).1.probes,
      Own (fun _ i => if i = 0 then "a" else "b") p := by
  intro h
  obtain ⟨-, href, -⟩ := h ⟨0, 0, .dispatchResponse, 1, some 8, _⟩ (List.mem_cons_self ..)
  exact absurd (href fun req _ => if req = 0 then none else some "") (by decide)

end NgxWasm.ProxyWasm.PropertyOwner
