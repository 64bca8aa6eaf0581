import NgxWasm.Wasm.Plans
import NgxWasm.Lib.Run
import Mathlib.Data.List.TakeWhile

/-!
# Running the ops of a phase (ngx_wasm_ops.c 244-397)

`ngx_wasm_ops_resume` and `ngx_wasm_op_call_handler`. The progress of a request is one counter and
the last phase. A call of `ngx_wasm_ops_resume` may be under way inside an op of another one: a
call of the content phase that sends the response runs the header and body filters. So a request
is a machine with a stack of such calls, and its inputs are what the guests do.
-/

namespace NgxWasm.Wasm.OpsResume

open NgxWasm NgxWasm.ProxyWasm NgxWasm.Lib NgxWasm.Wasm.Plans

/-! ### The machine -/

/-- A call of `ngx_wasm_ops_resume` that is inside the handler of op `i`. -/
structure Frame where
  phase : Phase
  i : ℕ
  deriving Repr, DecidableEq

/-- `cur_idx` and `last_phase` of the op context, and the calls under way, the innermost first.
`ran`, `result`, `main` and `ended` record the ops that ran, how the outermost calls ended, the
last phase of the request's own and that its filters or its log came after them; no function
reads them. -/
structure State where
  curIdx : ℕ
  lastPhase : Option Phase
  stack : List Frame
  ran : Phase → List ℕ
  result : Phase → Option Rc
  main : Option Phase
  ended : Bool

def initial : State := ⟨0, none, [], fun _ => [], fun _ => none, none, false⟩

/-- The end of a call op: no instance, an error or a trap, and else the state it left. -/
inductive CallEnd where
  | noInstance
  | failed
  | yield
  | error
  | next
  deriving Repr, DecidableEq

inductive Input where
  | resume (p : Phase)
  | called (e : CallEnd)
  /-- `ngx_wasm_op_proxy_wasm_handler` returns. -/
  | handled (rc : Rc)
  deriving Repr, DecidableEq

inductive Scan where
  | finished (rc : Rc)
  | at (i : ℕ)
  deriving Repr, DecidableEq

/-- The loop from op `i` on up to a handler that runs a guest. `found` tells whether an op has a
`funcref`; `op->conf.call.idx` is the place of the op. -/
def scan (found : Op → Bool) (curIdx : ℕ) : List Op → ℕ → Scan
  | [], _ => .finished .declined
  | .proxyWasm _ _ :: _, i => .at i
  | .call p func :: ops, i =>
    if !found (.call p func) then .finished .error
    else if i < curIdx then scan found curIdx ops (i + 1)
    else .at i

/-- `rc == NGX_ERROR || rc > NGX_OK`. -/
def isError : Rc → Bool
  | .error => true
  | .http _ => true
  | _ => false

/-- The end of `ngx_wasm_ops_resume`, the call being off the stack. -/
def finish (s : State) (p : Phase) (rc : Rc) : State :=
  { s with
    lastPhase := if isError rc then s.lastPhase else some p
    result := if s.stack = [] then Function.update s.result p (some rc) else s.result }

/-- The loop goes on at op `i`, `ops` being the ops from there. -/
def goOn (found : Op → Bool) (s : State) (p : Phase) (ops : List Op) (i : ℕ) : State :=
  match scan found s.curIdx ops i with
  | .finished rc => finish s p rc
  | .at j => { s with stack := ⟨p, j⟩ :: s.stack }

/-- The order of the request's own phases. -/
def rank : Phase → Option ℕ
  | .rewrite => some 1
  | .preaccess => some 2
  | .access => some 3
  | .content => some 4
  | _ => none

/-- What an outermost call records as it begins. -/
def record (s : State) (p : Phase) : State :=
  if s.stack = [] then
    if (rank p).isSome then
      { s with main := some p, result := Function.update s.result p none }
    else { s with ended := true }
  else s

def opsResume (plan : Plan) (found : Op → Bool) (s : State) (p : Phase) : State :=
  let s := record s p
  let s := if s.lastPhase.isSome ∧ s.lastPhase ≠ some p then { s with curIdx := 0 } else s
  goOn found s p (plan.pipelines p) 0

/-- The handler of a call op, from the return of the guest on. -/
def opCalled (plan : Plan) (found : Op → Bool) (s : State) (f : Frame) (e : CallEnd) : State :=
  if e = .noInstance then finish s f.phase .error
  else
    let s := { s with
      curIdx := s.curIdx + 1
      ran := Function.update s.ran f.phase (s.ran f.phase ++ [f.i]) }
    match e with
    | .yield => finish s f.phase .again
    | .next => goOn found s f.phase ((plan.pipelines f.phase).drop (f.i + 1)) (f.i + 1)
    | _ => finish s f.phase .error

def opHandled (plan : Plan) (found : Op → Bool) (s : State) (f : Frame) (rc : Rc) : State :=
  if rc = .declined then
    goOn found s f.phase ((plan.pipelines f.phase).drop (f.i + 1)) (f.i + 1)
  else finish s f.phase rc

def step (plan : Plan) (found : Op → Bool) (s : State) : Input → State × Unit
  | .resume p => (opsResume plan found s p, ())
  | .called e =>
    match s.stack with
    | [] => (s, ())
    | f :: rest => (opCalled plan found { s with stack := rest } f e, ())
  | .handled rc =>
    match s.stack with
    | [] => (s, ())
    | f :: rest => (opHandled plan found { s with stack := rest } f rc, ())

/-! ### The runs of a request -/

def Op.isCall : Op → Bool
  | .call _ _ => true
  | .proxyWasm _ _ => false

def isFilter : Phase → Bool
  | .headerFilter => true
  | .bodyFilter => true
  | .trailerFilter => true
  | _ => false

/-- All ops of a phase are done: neither an error nor `NGX_AGAIN`. -/
def complete (rc : Rc) : Prop := isError rc = false ∧ rc ≠ .again

/-- A phase of the request's own follows: the same again, a later one after it is complete, and
none after an error or once the response is sent from outside of the ops. -/
def PhaseFollows (s : State) (p : Phase) : Prop :=
  s.ended = false ∧ ∀ q, s.main = some q →
    (p = q ∧ ∃ rc, s.result q = some rc ∧ isError rc = false) ∨
      ((∃ i j, rank q = some i ∧ rank p = some j ∧ i < j) ∧
        ∃ rc, s.result q = some rc ∧ complete rc)

/-- Inside an op only the filters run, and only inside one of the content phase. -/
def Follows (plan : Plan) (s : State) : Input → Prop
  | .resume p =>
    if s.stack = [] then (rank p).isSome → PhaseFollows s p
    else isFilter p ∧ (s.stack.getLast?.map Frame.phase) = some .content
  | .called _ =>
    ∃ f ∈ s.stack.head?, ((plan.pipelines f.phase)[f.i]?).map Op.isCall = some true
  | .handled _ =>
    ∃ f ∈ s.stack.head?, ((plan.pipelines f.phase)[f.i]?).map Op.isCall = some false

/-- The phases that a yield suspends and that run again when the request resumes. -/
def resumable : List Phase := [.rewrite, .access, .content]

/-- The places of the calls of a phase. -/
def calls (plan : Plan) (p : Phase) : List ℕ :=
  ((plan.pipelines p).zipIdx.filter fun x => Op.isCall x.1).map Prod.snd

/-- The calls of a phase ran in order and at most once each, and all of them once the phase is
complete. -/
structure RanOnce (plan : Plan) (s : State) (p : Phase) : Prop where
  inOrder : s.ran p <+: calls plan p
  whole : ∀ rc, s.result p = some rc → complete rc → s.ran p = calls plan p

def AllRanOnce (plan : Plan) (s : State) : Prop := ∀ p ∈ resumable, RanOnce plan s p

/-- How many calls a phase starts with. -/
def callCount (plan : Plan) (p : Phase) : ℕ := ((plan.pipelines p).takeWhile Op.isCall).length

/-- No call stands behind a filter chain. -/
def CallsFirst (plan : Plan) (p : Phase) : Prop :=
  ∀ op ∈ (plan.pipelines p).dropWhile Op.isCall, Op.isCall op = false

/-- When an op of the content phase ends, the counter is where the op found it; or the op fails; or
no call is left behind it and the counter did not fall back. -/
def CounterKept (plan : Plan) (s : State) : Input → Prop
  | .resume _ => True
  | .called e =>
    ∀ f, s.stack = [f] → f.phase = .content →
      s.curIdx = f.i ∨ (e ≠ .yield ∧ e ≠ .next) ∨
        (callCount plan .content ≤ f.i + 1 ∧ f.i ≤ s.curIdx)
  | .handled rc =>
    ∀ f, s.stack = [f] → f.phase = .content →
      isError rc = true ∨ callCount plan .content ≤ s.curIdx

def Condition (plan : Plan) (s : State) (i : Input) : Prop :=
  (∀ p ∈ resumable, CallsFirst plan p) ∧ CounterKept plan s i

/-! ### The places of calls -/

theorem zipIdx_calls (cs ps : List Op) : ∀ i : ℕ, (∀ op ∈ cs, Op.isCall op = true) →
    (∀ op ∈ ps, Op.isCall op = false) →
    (((cs ++ ps).zipIdx i).filter fun x => Op.isCall x.1).map Prod.snd = List.range' i cs.length := by
  induction cs with
  | nil =>
    intro i _ hps
    have hnone : (ps.zipIdx i).filter (fun x => Op.isCall x.1) = [] := by
      rw [List.filter_eq_nil_iff]
      intro x hx
      rw [hps x.1 (List.fst_mem_of_mem_zipIdx hx)]
      decide
    rw [List.nil_append, hnone]
    rfl
  | cons c cs ih =>
    intro i hcs hps
    rw [List.forall_mem_cons] at hcs
    rw [List.cons_append, List.zipIdx_cons, List.filter_cons, if_pos hcs.1, List.map_cons,
      ih (i + 1) hcs.2 hps, List.length_cons, List.range'_succ]

theorem takeWhile_isCall (ops : List Op) : ∀ op ∈ ops.takeWhile Op.isCall, Op.isCall op = true :=
  fun _ hop => List.mem_takeWhile_imp hop

theorem calls_eq {plan : Plan} {p : Phase} (h : CallsFirst plan p) :
    calls plan p = List.range (callCount plan p) := by
  have hsplit := List.takeWhile_append_dropWhile (p := Op.isCall) (l := plan.pipelines p)
  have hz := zipIdx_calls _ _ 0 (takeWhile_isCall (plan.pipelines p)) h
  rw [hsplit] at hz
  rw [calls, hz, callCount, List.range_eq_range']

theorem range_prefix {k n : ℕ} (h : k ≤ n) : List.range k <+: List.range n := by
  obtain ⟨m, rfl⟩ := Nat.exists_eq_add_of_le h
  rw [List.range_add]
  exact List.prefix_append _ _

/-! ### The loop over a pipeline with its calls first -/

/-- The calls before `k` were run, and the counter skips exactly these. -/
structure Counter (plan : Plan) (s : State) (p : Phase) (k : ℕ) : Prop where
  le : k ≤ callCount plan p
  ran : s.ran p = List.range k
  counter : s.curIdx = k ∨ (k = callCount plan p ∧ k ≤ s.curIdx)

/-- By induction on the calls: those before `k` are skipped. -/
theorem scan_split (found : Op → Bool) (curIdx k : ℕ) (cs ps : List Op) :
    ∀ i : ℕ, (∀ op ∈ cs, Op.isCall op = true) → (∀ op ∈ ps, Op.isCall op = false) →
      i ≤ k → k ≤ i + cs.length → (curIdx = k ∨ (k = i + cs.length ∧ k ≤ curIdx)) →
      scan found curIdx (cs ++ ps) i = .finished .error ∨
        (scan found curIdx (cs ++ ps) i = .at k ∧ (k < i + cs.length ∨ ps ≠ [])) ∨
        (k = i + cs.length ∧ scan found curIdx (cs ++ ps) i = .finished .declined) := by
  induction cs with
  | nil =>
    intro i _ hps hik hkn _
    have hk : i = k := by
      rw [List.length_nil] at hkn
      omega
    cases ps with
    | nil => exact .inr (.inr ⟨hk.symm, rfl⟩)
    | cons op ps =>
      cases op with
      | call p func => exact absurd (hps _ (List.mem_cons_self ..)) (by simp [Op.isCall])
      | proxyWasm f addr =>
        right
        left
        exact ⟨congrArg Scan.at hk, .inr (List.cons_ne_nil _ _)⟩
  | cons c cs ih =>
    intro i hcs hps hik hkn hcur
    rw [List.forall_mem_cons] at hcs
    rw [List.length_cons] at hkn hcur ⊢
    cases c with
    | proxyWasm f addr => exact absurd hcs.1 (by simp [Op.isCall])
    | call p func =>
      rw [List.cons_append, scan]
      by_cases hfound : found (.call p func) = true
      · rw [if_neg (by rw [hfound]; decide)]
        by_cases hskip : i < curIdx
        · rw [if_pos hskip]
          have hrest := ih (i + 1) hcs.2 hps (by omega) (by omega) (by omega)
          rw [show i + 1 + cs.length = i + (cs.length + 1) by omega] at hrest
          exact hrest
        · rw [if_neg hskip]
          have hk : i = k := by omega
          right
          left
          exact ⟨congrArg Scan.at hk, .inl (by omega)⟩
      · left
        rw [if_pos (by simpa using hfound)]

/-- Behind the calls there are chains only. -/
theorem scan_chains (found : Op → Bool) (curIdx : ℕ) (ps : List Op) (i : ℕ)
    (hps : ∀ op ∈ ps, Op.isCall op = false) :
    scan found curIdx ps i = .finished .declined ∨ scan found curIdx ps i = .at i := by
  cases ps with
  | nil => exact .inl rfl
  | cons op ps =>
    cases op with
    | call p func => exact absurd (hps _ (List.mem_cons_self ..)) (by simp [Op.isCall])
    | proxyWasm f addr => exact .inr rfl

/-- The ops from `i` on, in calls and chains. -/
theorem drop_split {plan : Plan} {p : Phase} {i : ℕ} (hi : i ≤ callCount plan p) :
    (plan.pipelines p).drop i =
      ((plan.pipelines p).takeWhile Op.isCall).drop i ++ (plan.pipelines p).dropWhile Op.isCall := by
  have hsplit := List.takeWhile_append_dropWhile (p := Op.isCall) (l := plan.pipelines p)
  conv_lhs => rw [← hsplit]
  exact List.drop_append_of_le_length hi

theorem drop_chains {plan : Plan} {p : Phase} {i : ℕ} (hfirst : CallsFirst plan p)
    (hi : callCount plan p ≤ i) : ∀ op ∈ (plan.pipelines p).drop i, Op.isCall op = false := by
  intro op hop
  have hsplit := List.takeWhile_append_dropWhile (p := Op.isCall) (l := plan.pipelines p)
  rw [← hsplit, List.drop_append, List.drop_eq_nil_of_le hi, List.nil_append] at hop
  exact hfirst op (List.mem_of_mem_drop hop)

theorem scan_counter {plan : Plan} {found : Op → Bool} {s : State} {p : Phase} {k i : ℕ}
    (hfirst : CallsFirst plan p) (h : Counter plan s p k) (hi : i ≤ k ∨ callCount plan p ≤ i)
    (hdone : callCount plan p ≤ i → k = callCount plan p) :
    scan found s.curIdx ((plan.pipelines p).drop i) i = .finished .error ∨
      (∃ j, scan found s.curIdx ((plan.pipelines p).drop i) i = .at j ∧
        (j = k ∨ (k = callCount plan p ∧ k ≤ j))) ∨
      (k = callCount plan p ∧
        scan found s.curIdx ((plan.pipelines p).drop i) i = .finished .declined) := by
  by_cases hlate : callCount plan p ≤ i
  · have hk := hdone hlate
    rcases scan_chains found s.curIdx _ i (drop_chains hfirst hlate) with hscan | hscan
    · exact .inr (.inr ⟨hk, hscan⟩)
    · exact .inr (.inl ⟨i, hscan, .inr ⟨hk, by omega⟩⟩)
  · have hik : i ≤ k := hi.resolve_right hlate
    have hcs : ∀ op ∈ ((plan.pipelines p).takeWhile Op.isCall).drop i, Op.isCall op = true :=
      fun op hop => takeWhile_isCall _ op (List.mem_of_mem_drop hop)
    have hlen : i + (((plan.pipelines p).takeWhile Op.isCall).drop i).length = callCount plan p := by
      rw [List.length_drop, callCount] at *
      omega
    rw [drop_split (by omega)]
    have hscan := scan_split found s.curIdx k _ _ i hcs hfirst hik (by rw [hlen]; exact h.le)
      (by rw [hlen]; exact h.counter)
    rw [hlen] at hscan
    rcases hscan with hscan | ⟨hscan, -⟩ | ⟨hk, hscan⟩
    · exact .inl hscan
    · exact .inr (.inl ⟨k, hscan, .inl rfl⟩)
    · exact .inr (.inr ⟨hk, hscan⟩)

/-! ### What every step keeps -/

/-- Phases of the request that come later did not begin. -/
def Fresh (s : State) : Prop :=
  ∀ p i, rank p = some i → (∀ q j, s.main = some q → rank q = some j → j < i) →
    s.ran p = [] ∧ s.result p = none

/-- The outermost call `b`, with the calls inside it. -/
structure Busy (plan : Plan) (s : State) (inner : List Frame) (b : Frame) : Prop where
  main : s.main = some b.phase
  result : s.result b.phase = none
  filters : ∀ g ∈ inner, rank g.phase = none
  ran : b.phase ∈ resumable → s.ran b.phase = List.range (min b.i (callCount plan b.phase))
  alone : b.phase ≠ .content → inner = []
  counter : b.phase ≠ .content → b.phase ∈ resumable →
    s.curIdx = b.i ∨ (callCount plan b.phase ≤ b.i ∧ callCount plan b.phase ≤ s.curIdx)

/-- Between two outermost calls, the last one having ended with `rc`. -/
structure Ready (plan : Plan) (s : State) (q : Phase) (rc : Rc) : Prop where
  lastPhase : s.lastPhase = some q
  counter : q ∈ resumable → ∃ k, Counter plan s q k ∧ (complete rc → k = callCount plan q)

structure Inv (plan : Plan) (s : State) : Prop where
  once : AllRanOnce plan s
  fresh : Fresh s
  ranked : ∀ q, s.main = some q → (rank q).isSome
  start : s.main = none → s.ended = false → s.curIdx = 0 ∧ s.lastPhase = none ∧ s.stack = []
  ended : s.ended = true → ∀ b ∈ s.stack, rank b.phase = none
  ready : s.ended = false → s.stack = [] → ∀ q rc, s.main = some q → s.result q = some rc →
    isError rc = false → Ready plan s q rc
  busy : s.ended = false → ∀ inner b, s.stack = inner ++ [b] → Busy plan s inner b

theorem initial_inv (plan : Plan) : Inv plan initial where
  once := fun p _ => ⟨List.nil_prefix, fun rc h => absurd h (by simp [initial])⟩
  fresh := fun _ _ _ _ => ⟨rfl, rfl⟩
  ranked := fun q h => absurd h (by simp [initial])
  start := fun _ _ => ⟨rfl, rfl, rfl⟩
  ended := fun h => absurd h (by simp [initial])
  ready := fun _ _ q rc h => absurd h (by simp [initial])
  busy := fun _ inner b h => absurd h.symm (by simp [initial])

theorem resumable_ranked {p : Phase} (h : p ∈ resumable) : (rank p).isSome := by
  cases p <;> first | rfl | exact absurd h (by decide)

/-- Phases of the request's own are as they were. -/
structure SameMain (s s' : State) : Prop where
  ran : ∀ p, (rank p).isSome → s'.ran p = s.ran p
  result : ∀ p, (rank p).isSome → s'.result p = s.result p
  main : s'.main = s.main
  ended : s'.ended = s.ended

theorem SameMain.once {plan : Plan} {s s' : State} (h : SameMain s s')
    (honce : AllRanOnce plan s) : AllRanOnce plan s' := by
  intro p hp
  obtain ⟨horder, hwhole⟩ := honce p hp
  have hranked := resumable_ranked hp
  refine ⟨?_, ?_⟩
  · rw [h.ran p hranked]
    exact horder
  · rw [h.ran p hranked, h.result p hranked]
    exact hwhole

theorem SameMain.fresh {s s' : State} (h : SameMain s s') (hfresh : Fresh s) : Fresh s' := by
  intro p i hi hlater
  rw [h.main] at hlater
  have hranked : (rank p).isSome := by rw [hi]; rfl
  rw [h.ran p hranked, h.result p hranked]
  exact hfresh p i hi hlater

theorem SameMain.trans {s s' s'' : State} (h : SameMain s s') (h' : SameMain s' s'') :
    SameMain s s'' :=
  ⟨fun p hp => (h'.ran p hp).trans (h.ran p hp), fun p hp => (h'.result p hp).trans (h.result p hp),
    h'.main.trans h.main, h'.ended.trans h.ended⟩

/-! ### Filters -/

theorem finish_filter {s : State} {p : Phase} (rc : Rc) (hp : rank p = none) :
    SameMain s (finish s p rc) ∧ (finish s p rc).stack = s.stack := by
  refine ⟨⟨fun _ _ => rfl, ?_, rfl, rfl⟩, rfl⟩
  intro q hq
  have hne : q ≠ p := by
    rintro rfl
    rw [hp] at hq
    exact absurd hq (by simp)
  simp only [finish]
  split
  · exact Function.update_of_ne hne _ _
  · rfl

theorem goOn_filter {found : Op → Bool} {s : State} {p : Phase} (ops : List Op) (i : ℕ)
    (hp : rank p = none) :
    SameMain s (goOn found s p ops i) ∧
      ((goOn found s p ops i).stack = s.stack ∨
        ∃ j, (goOn found s p ops i).stack = ⟨p, j⟩ :: s.stack) := by
  unfold goOn
  cases scan found s.curIdx ops i with
  | finished rc =>
    obtain ⟨hsame, hstack⟩ := finish_filter (s := s) rc hp
    exact ⟨hsame, .inl hstack⟩
  | «at» j => exact ⟨⟨fun _ _ => rfl, fun _ _ => rfl, rfl, rfl⟩, .inr ⟨j, rfl⟩⟩

theorem opCalled_filter {plan : Plan} {found : Op → Bool} {s : State} {f : Frame} (e : CallEnd)
    (hp : rank f.phase = none) :
    SameMain s (opCalled plan found s f e) ∧
      ((opCalled plan found s f e).stack = s.stack ∨
        ∃ j, (opCalled plan found s f e).stack = ⟨f.phase, j⟩ :: s.stack) := by
  have hcounted : SameMain s { s with
      curIdx := s.curIdx + 1
      ran := Function.update s.ran f.phase (s.ran f.phase ++ [f.i]) } := by
    refine ⟨?_, fun _ _ => rfl, rfl, rfl⟩
    intro q hq
    have hne : q ≠ f.phase := by
      rintro rfl
      rw [hp] at hq
      exact absurd hq (by simp)
    exact Function.update_of_ne hne _ _
  have hfinish (rc : Rc) := finish_filter (s := { s with
      curIdx := s.curIdx + 1
      ran := Function.update s.ran f.phase (s.ran f.phase ++ [f.i]) }) rc hp
  unfold opCalled
  cases e with
  | noInstance =>
    rw [if_pos rfl]
    have h := finish_filter (s := s) .error hp
    exact ⟨h.1, .inl h.2⟩
  | failed => exact ⟨hcounted.trans (hfinish .error).1, .inl (hfinish .error).2⟩
  | error => exact ⟨hcounted.trans (hfinish .error).1, .inl (hfinish .error).2⟩
  | yield => exact ⟨hcounted.trans (hfinish .again).1, .inl (hfinish .again).2⟩
  | next =>
    rw [if_neg (by decide)]
    have h := @goOn_filter found { s with
      curIdx := s.curIdx + 1
      ran := Function.update s.ran f.phase (s.ran f.phase ++ [f.i]) } _
      ((plan.pipelines f.phase).drop (f.i + 1)) (f.i + 1) hp
    exact ⟨hcounted.trans h.1, h.2⟩

theorem opHandled_filter {plan : Plan} {found : Op → Bool} {s : State} {f : Frame} (rc : Rc)
    (hp : rank f.phase = none) :
    SameMain s (opHandled plan found s f rc) ∧
      ((opHandled plan found s f rc).stack = s.stack ∨
        ∃ j, (opHandled plan found s f rc).stack = ⟨f.phase, j⟩ :: s.stack) := by
  unfold opHandled
  split
  · exact goOn_filter _ _ hp
  · have h := finish_filter (s := s) rc hp
    exact ⟨h.1, .inl h.2⟩

/-- After the response was sent from outside of the ops only filters and the log run. -/
theorem inv_of_over {plan : Plan} {s s' : State} (h : Inv plan s) (hsame : SameMain s s')
    (hover : s'.ended = true) (hstack : ∀ b ∈ s'.stack, rank b.phase = none) : Inv plan s' where
  once := hsame.once h.once
  fresh := hsame.fresh h.fresh
  ranked := fun q hq => h.ranked q (hsame.main ▸ hq)
  start := fun _ hno => absurd hover (by rw [hno]; decide)
  ended := fun _ => hstack
  ready := fun hno => absurd hover (by rw [hno]; decide)
  busy := fun hno => absurd hover (by rw [hno]; decide)

/-- Filters inside an op of the content phase. -/
theorem inv_of_nested {plan : Plan} {s s' : State} (h : Inv plan s) (hsame : SameMain s s')
    (hover : s.ended = false) {inner inner' : List Frame} {b : Frame}
    (hstack : s.stack = inner ++ [b]) (hcontent : b.phase = .content)
    (hstack' : s'.stack = inner' ++ [b]) (hfilters : ∀ g ∈ inner', rank g.phase = none) :
    Inv plan s' := by
  obtain ⟨hmain, hresult, -, hran, -, -⟩ := h.busy hover inner b hstack
  have hranked : (rank b.phase).isSome := by rw [hcontent]; rfl
  refine ⟨hsame.once h.once, hsame.fresh h.fresh, fun q hq => h.ranked q (hsame.main ▸ hq), ?_, ?_,
    ?_, ?_⟩
  · intro hnone
    rw [hsame.main, hmain] at hnone
    exact absurd hnone (by simp)
  · intro hyes
    rw [hsame.ended, hover] at hyes
    exact absurd hyes (by decide)
  · intro _ hempty
    rw [hstack'] at hempty
    exact absurd hempty (by simp)
  · intro _ inner₂ b₂ heq
    rw [hstack'] at heq
    obtain ⟨rfl, hb⟩ := List.append_inj' heq rfl
    rw [List.cons.injEq] at hb
    rw [← hb.1]
    refine ⟨hsame.main.trans hmain, (hsame.result _ hranked).trans hresult, hfilters, ?_,
      fun hno => absurd hcontent hno, fun hno => absurd hcontent hno⟩
    intro hresumable
    rw [hsame.ran _ hranked]
    exact hran hresumable

/-! ### The outermost call -/

/-- The outermost call runs phase `p` and is between two ops. -/
structure Open (plan : Plan) (s : State) (p : Phase) : Prop where
  stack : s.stack = []
  ended : s.ended = false
  main : s.main = some p
  ranked : (rank p).isSome
  result : s.result p = none
  once : AllRanOnce plan s
  fresh : Fresh s

theorem inv_of_finish {plan : Plan} {s : State} {p : Phase} {rc : Rc} (h : Open plan s p)
    (hfirst : ∀ p ∈ resumable, CallsFirst plan p)
    (hcounter : p ∈ resumable → isError rc = false →
      ∃ k, Counter plan s p k ∧ (complete rc → k = callCount plan p)) :
    Inv plan (finish s p rc) := by
  have hstack : (finish s p rc).stack = [] := h.stack
  have hresult : (finish s p rc).result = Function.update s.result p (some rc) := by
    simp only [finish, if_pos h.stack]
  refine ⟨?_, ?_, ?_, ?_, ?_, ?_, ?_⟩
  · intro q hq
    obtain ⟨horder, hwhole⟩ := h.once q hq
    refine ⟨horder, ?_⟩
    intro rc' hrc' hdone
    rw [hresult] at hrc'
    by_cases hqp : q = p
    · subst hqp
      rw [Function.update_self, Option.some.injEq] at hrc'
      rw [← hrc'] at hdone
      obtain ⟨k, hk, hall⟩ := hcounter hq hdone.1
      show s.ran q = calls plan q
      rw [calls_eq (hfirst q hq), hk.ran, hall hdone]
    · rw [Function.update_of_ne hqp] at hrc'
      exact hwhole rc' hrc' hdone
  · intro q i hi hlater
    have hne : q ≠ p := by
      intro heq
      obtain ⟨j, hj⟩ := Option.isSome_iff_exists.mp h.ranked
      have hlt := hlater p j h.main hj
      rw [heq, hj, Option.some.injEq] at hi
      omega
    rw [hresult, Function.update_of_ne hne]
    exact h.fresh q i hi hlater
  · intro q hq
    have heq : p = q := Option.some.inj (h.main.symm.trans hq)
    exact heq ▸ h.ranked
  · intro hnone
    exact absurd (h.main.symm.trans hnone) (by simp)
  · intro hyes
    exact absurd (h.ended.symm.trans hyes) (by decide)
  · intro _ _ q rc' hq hrc' herror
    have heq : p = q := Option.some.inj (h.main.symm.trans hq)
    subst heq
    rw [hresult, Function.update_self, Option.some.injEq] at hrc'
    subst hrc'
    refine ⟨?_, ?_⟩
    · simp only [finish, herror, Bool.false_eq_true, if_false]
    · intro hp
      obtain ⟨k, ⟨hle, hran, hcount⟩, hall⟩ := hcounter hp herror
      exact ⟨k, ⟨hle, hran, hcount⟩, hall⟩
  · intro _ inner b heq
    rw [hstack] at heq
    exact absurd heq.symm (by simp)

/-- The guest of op `j` is entered. -/
theorem inv_of_enter {plan : Plan} {s : State} {p : Phase} {j : ℕ} (h : Open plan s p)
    (hcounter : p ∈ resumable → s.ran p = List.range (min j (callCount plan p)) ∧
      (s.curIdx = j ∨ (callCount plan p ≤ j ∧ callCount plan p ≤ s.curIdx))) :
    Inv plan { s with stack := ⟨p, j⟩ :: s.stack } := by
  refine ⟨fun q hq => ⟨(h.once q hq).inOrder, (h.once q hq).whole⟩, h.fresh, ?_, ?_, ?_, ?_, ?_⟩
  · intro q hq
    have heq : p = q := Option.some.inj (h.main.symm.trans hq)
    exact heq ▸ h.ranked
  · intro hnone
    exact absurd (h.main.symm.trans hnone) (by simp)
  · intro hyes
    exact absurd (h.ended.symm.trans hyes) (by decide)
  · intro _ hempty
    exact absurd hempty (by simp)
  · intro _ inner b heq
    simp only [h.stack] at heq
    have hsplit : [] ++ [⟨p, j⟩] = inner ++ [b] := heq
    obtain ⟨hinner, hb⟩ := List.append_inj' hsplit rfl
    rw [List.cons.injEq] at hb
    rw [← hb.1]
    refine ⟨h.main, h.result, ?_, fun hp => (hcounter hp).1, fun _ => hinner.symm,
      fun _ hp => (hcounter hp).2⟩
    rw [← hinner]
    intro g hg
    exact absurd hg List.not_mem_nil

theorem inv_of_goOn {plan : Plan} {found : Op → Bool} {s : State} {p : Phase} {i : ℕ}
    (h : Open plan s p) (hfirst : ∀ p ∈ resumable, CallsFirst plan p)
    (hcounter : p ∈ resumable → ∃ k, Counter plan s p k ∧ (i ≤ k ∨ callCount plan p ≤ i) ∧
      (callCount plan p ≤ i → k = callCount plan p)) :
    Inv plan (goOn found s p ((plan.pipelines p).drop i) i) := by
  unfold goOn
  by_cases hp : p ∈ resumable
  · obtain ⟨k, hk, hik, hdone⟩ := hcounter hp
    rcases scan_counter (hfirst p hp) hk hik hdone with
      hscan | ⟨j, hscan, hj⟩ | ⟨hall, hscan⟩
    · rw [hscan]
      exact inv_of_finish h hfirst fun _ herror => absurd herror (by decide)
    · rw [hscan]
      apply inv_of_enter h
      intro _
      have hle := hk.le
      rcases hj with rfl | ⟨hall, hkj⟩
      · rw [Nat.min_eq_left hle]
        refine ⟨hk.ran, ?_⟩
        rcases hk.counter with hcur | ⟨hall, hcur⟩
        · exact .inl hcur
        · exact .inr (by omega)
      · rw [Nat.min_eq_right (by omega), ← hall]
        refine ⟨hk.ran, .inr ?_⟩
        have := hk.counter
        omega
    · rw [hscan]
      exact inv_of_finish h hfirst fun _ _ => ⟨k, hk, fun _ => hall⟩
  · cases hscan : scan found s.curIdx ((plan.pipelines p).drop i) i with
    | finished rc => exact inv_of_finish h hfirst fun hyes => absurd hyes hp
    | «at» j => exact inv_of_enter h fun hyes => absurd hyes hp

theorem call_lt {plan : Plan} {p : Phase} {i : ℕ} (hfirst : CallsFirst plan p)
    (h : ((plan.pipelines p)[i]?).map Op.isCall = some true) : i < callCount plan p := by
  by_contra hlate
  obtain ⟨op, hop, hcall⟩ := Option.map_eq_some_iff.mp h
  have hmem : op ∈ (plan.pipelines p).drop i := by
    apply List.mem_of_getElem? (i := 0)
    rw [List.getElem?_drop]
    exact hop
  rw [drop_chains hfirst (by omega) op hmem] at hcall
  exact absurd hcall (by decide)

theorem chain_le {plan : Plan} {p : Phase} {i : ℕ}
    (h : ((plan.pipelines p)[i]?).map Op.isCall = some false) : callCount plan p ≤ i := by
  by_contra hearly
  obtain ⟨op, hop, hchain⟩ := Option.map_eq_some_iff.mp h
  have hsplit := List.takeWhile_append_dropWhile (p := Op.isCall) (l := plan.pipelines p)
  have hlt : i < ((plan.pipelines p).takeWhile Op.isCall).length := by
    rw [callCount] at hearly
    omega
  rw [← hsplit, List.getElem?_append_left hlt] at hop
  rw [takeWhile_isCall _ op (List.mem_of_getElem? hop)] at hchain
  exact absurd hchain (by decide)

/-- The outermost call is taken off the stack. -/
theorem open_of_busy {plan : Plan} {s : State} {b : Frame} (h : Inv plan s)
    (hover : s.ended = false) (hbusy : Busy plan s [] b) :
    Open plan { s with stack := [] } b.phase :=
  ⟨rfl, hover, hbusy.main, h.ranked _ hbusy.main, hbusy.result,
    fun p hp => ⟨(h.once p hp).inOrder, (h.once p hp).whole⟩, h.fresh⟩

/-- A call op has run. -/
theorem open_counted {plan : Plan} {s : State} {p : Phase} {i : ℕ} (h : Open plan s p)
    (hran : p ∈ resumable → s.ran p ++ [i] <+: calls plan p) :
    Open plan { s with
      curIdx := s.curIdx + 1, ran := Function.update s.ran p (s.ran p ++ [i]) } p := by
  refine ⟨h.stack, h.ended, h.main, h.ranked, h.result, ?_, ?_⟩
  · intro q hq
    by_cases hqp : q = p
    · subst hqp
      refine ⟨?_, ?_⟩
      · show Function.update s.ran q (s.ran q ++ [i]) q <+: calls plan q
        rw [Function.update_self]
        exact hran hq
      · intro rc hrc _
        exact absurd (h.result.symm.trans hrc) (by simp)
    · have hsame : Function.update s.ran p (s.ran p ++ [i]) q = s.ran q :=
        Function.update_of_ne hqp _ _
      obtain ⟨horder, hwhole⟩ := h.once q hq
      refine ⟨?_, ?_⟩
      · show Function.update s.ran p (s.ran p ++ [i]) q <+: calls plan q
        rw [hsame]
        exact horder
      · show ∀ rc, s.result q = some rc → complete rc →
          Function.update s.ran p (s.ran p ++ [i]) q = calls plan q
        rw [hsame]
        exact hwhole
  · intro q j hj hlater
    have hne : q ≠ p := by
      intro heq
      obtain ⟨k, hk⟩ := Option.isSome_iff_exists.mp h.ranked
      have hlt := hlater p k h.main hk
      rw [heq, hk, Option.some.injEq] at hj
      omega
    obtain ⟨hran', hresult'⟩ := h.fresh q j hj hlater
    exact ⟨(Function.update_of_ne hne _ _).trans hran', hresult'⟩

/-! ### One step -/

theorem inv_called {plan : Plan} {found : Op → Bool} {s : State} {f : Frame} {e : CallEnd}
    (h : Inv plan s) (hover : s.ended = false) (hstack : s.stack = [f])
    (hop : ((plan.pipelines f.phase)[f.i]?).map Op.isCall = some true)
    (hcond : Condition plan s (.called e)) :
    Inv plan (opCalled plan found { s with stack := [] } f e) := by
  obtain ⟨hfirst, hkept⟩ := hcond
  have hbusy : Busy plan s [] f := h.busy hover [] f hstack
  have hopen := open_of_busy h hover hbusy
  unfold opCalled
  by_cases hnone : e = .noInstance
  · rw [if_pos hnone]
    exact inv_of_finish hopen hfirst fun _ herror => absurd herror (by decide)
  rw [if_neg hnone]
  -- the op is one of the first calls
  have hlt (hp : f.phase ∈ resumable) : f.i < callCount plan f.phase := call_lt (hfirst _ hp) hop
  have hranNow (hp : f.phase ∈ resumable) :
      s.ran f.phase ++ [f.i] = List.range (f.i + 1) := by
    rw [hbusy.ran hp, Nat.min_eq_left (Nat.le_of_lt (hlt hp)), List.range_succ]
  have hcounted := open_counted (i := f.i) hopen (fun hp => by
    show s.ran f.phase ++ [f.i] <+: _
    rw [hranNow hp, calls_eq (hfirst _ hp)]
    exact range_prefix (hlt hp))
  have hcounter (hp : f.phase ∈ resumable) (hgoes : ¬ (e ≠ .yield ∧ e ≠ .next)) :
      Counter plan { s with
        stack := []
        curIdx := s.curIdx + 1
        ran := Function.update s.ran f.phase (s.ran f.phase ++ [f.i]) } f.phase (f.i + 1) := by
    have hcur : s.curIdx = f.i ∨ (callCount plan f.phase ≤ f.i + 1 ∧ f.i ≤ s.curIdx) := by
      by_cases hcontent : f.phase = .content
      · rcases hkept f hstack hcontent with hcur | herror | hlast
        · exact .inl hcur
        · exact absurd herror hgoes
        · rw [hcontent]
          exact .inr hlast
      · rcases hbusy.counter hcontent hp with hcur | ⟨hlate, -⟩
        · exact .inl hcur
        · have := hlt hp
          omega
    have hle := hlt hp
    refine ⟨hle, ?_, ?_⟩
    · show Function.update s.ran f.phase (s.ran f.phase ++ [f.i]) f.phase = _
      rw [Function.update_self, hranNow hp]
    · rcases hcur with hcur | ⟨hlast, hcur⟩
      · left
        show s.curIdx + 1 = f.i + 1
        omega
      · right
        refine ⟨by omega, ?_⟩
        show f.i + 1 ≤ s.curIdx + 1
        omega
  cases e with
  | noInstance => exact absurd rfl hnone
  | failed => exact inv_of_finish hcounted hfirst fun _ herror => absurd herror (by decide)
  | error => exact inv_of_finish hcounted hfirst fun _ herror => absurd herror (by decide)
  | yield =>
    apply inv_of_finish hcounted hfirst
    intro hp _
    exact ⟨f.i + 1, hcounter hp (by decide), fun hdone => absurd rfl hdone.2⟩
  | next =>
    apply inv_of_goOn hcounted hfirst
    intro hp
    have hle := hlt hp
    exact ⟨f.i + 1, hcounter hp (by decide), .inl (Nat.le_refl _), fun _ => by omega⟩

theorem inv_handled {plan : Plan} {found : Op → Bool} {s : State} {f : Frame} {rc : Rc}
    (h : Inv plan s) (hover : s.ended = false) (hstack : s.stack = [f])
    (hop : ((plan.pipelines f.phase)[f.i]?).map Op.isCall = some false)
    (hcond : Condition plan s (.handled rc)) :
    Inv plan (opHandled plan found { s with stack := [] } f rc) := by
  obtain ⟨hfirst, hkept⟩ := hcond
  have hbusy : Busy plan s [] f := h.busy hover [] f hstack
  have hopen := open_of_busy h hover hbusy
  have hle := chain_le hop
  have hcounter (hp : f.phase ∈ resumable) (herror : isError rc = false) :
      Counter plan { s with stack := [] } f.phase (callCount plan f.phase) := by
    refine ⟨Nat.le_refl _, ?_, .inr ⟨rfl, ?_⟩⟩
    · show s.ran f.phase = _
      rw [hbusy.ran hp, Nat.min_eq_right hle]
    · show callCount plan f.phase ≤ s.curIdx
      by_cases hcontent : f.phase = .content
      · rcases hkept f hstack hcontent with hyes | hcur
        · rw [herror] at hyes
          exact absurd hyes (by decide)
        · rw [hcontent]
          exact hcur
      · rcases hbusy.counter hcontent hp with hcur | ⟨-, hcur⟩
        · omega
        · exact hcur
  unfold opHandled
  split
  · rename_i hdeclined
    apply inv_of_goOn hopen hfirst
    intro hp
    exact ⟨_, hcounter hp (by rw [hdeclined]; rfl), .inr (by omega), fun _ => rfl⟩
  · apply inv_of_finish hopen hfirst
    intro hp herror
    exact ⟨_, hcounter hp herror, fun _ => rfl⟩

/-- A phase of the request's own begins or goes on. -/
theorem inv_resume_main {plan : Plan} {found : Op → Bool} {s : State} {p : Phase}
    (h : Inv plan s) (hstack : s.stack = []) (hranked : (rank p).isSome)
    (hfollows : PhaseFollows s p) (hfirst : ∀ p ∈ resumable, CallsFirst plan p) :
    Inv plan (opsResume plan found s p) := by
  obtain ⟨hover, hprev⟩ := hfollows
  have hrecord : record s p =
      { s with main := some p, result := Function.update s.result p none } := by
    rw [record, if_pos hstack, if_pos hranked]
  obtain ⟨i, hi⟩ := Option.isSome_iff_exists.mp hranked
  -- before the loop: the phase goes on where it was, or begins with the counter at 0
  have hstart : ∃ c, (if s.lastPhase.isSome ∧ s.lastPhase ≠ some p
        then { record s p with curIdx := 0 } else record s p) = { record s p with curIdx := c } ∧
      (p ∈ resumable → ∃ k, Counter plan { record s p with curIdx := c } p k) := by
    cases hmain : s.main with
    | none =>
      obtain ⟨hcur, hlast, -⟩ := h.start hmain hover
      refine ⟨s.curIdx, ?_, ?_⟩
      · rw [if_neg (by rw [hlast]; simp), hrecord]
      · intro _
        obtain ⟨hran, -⟩ := h.fresh p i hi fun q j hq => absurd (hmain.symm.trans hq) (by simp)
        refine ⟨0, Nat.zero_le _, ?_, .inl hcur⟩
        rw [hrecord]
        exact hran
    | some q =>
      rcases hprev q hmain with ⟨rfl, rc, hrc, herror⟩ | ⟨⟨j, i', hj, hi', hlt⟩, rc, hrc, hdone⟩
      · obtain ⟨hlast, hcounter⟩ := h.ready hover hstack p rc hmain hrc herror
        refine ⟨s.curIdx, ?_, ?_⟩
        · rw [if_neg (by rw [hlast]; simp), hrecord]
        · intro hp
          obtain ⟨k, ⟨hle, hran, hcount⟩, -⟩ := hcounter hp
          rw [hrecord]
          exact ⟨k, hle, hran, hcount⟩
      · obtain ⟨hlast, -⟩ := h.ready hover hstack q rc hmain hrc hdone.1
        have hne : q ≠ p := by
          rintro rfl
          rw [hj, Option.some.injEq] at hi'
          omega
        refine ⟨0, ?_, ?_⟩
        · rw [if_pos ⟨by rw [hlast]; rfl, by rw [hlast]; simpa using hne⟩]
        · intro _
          obtain ⟨hran, -⟩ := h.fresh p i' hi' fun q' j' hq' hj' => by
            rw [hmain, Option.some.injEq] at hq'
            subst hq'
            rw [hj, Option.some.injEq] at hj'
            omega
          refine ⟨0, Nat.zero_le _, ?_, .inl rfl⟩
          rw [hrecord]
          exact hran
  obtain ⟨c, hreset, hcounter⟩ := hstart
  have hlast : (record s p).lastPhase = s.lastPhase := by rw [hrecord]
  have hopen : Open plan { record s p with curIdx := c } p := by
    rw [hrecord]
    refine ⟨hstack, hover, rfl, hranked, Function.update_self _ _ _, ?_, ?_⟩
    · intro q hq
      obtain ⟨horder, hwhole⟩ := h.once q hq
      refine ⟨horder, ?_⟩
      intro rc hrc hdone
      by_cases hqp : q = p
      · subst hqp
        exact absurd ((Function.update_self q none s.result).symm.trans hrc) (by simp)
      · exact hwhole rc ((Function.update_of_ne hqp none s.result).symm.trans hrc) hdone
    · intro q j hj hlater
      have hlt := hlater p i rfl hi
      have hne : q ≠ p := by
        rintro rfl
        rw [hi, Option.some.injEq] at hj
        omega
      have hold : ∀ q' j', s.main = some q' → rank q' = some j' → j' < j := by
        intro q' j' hq' hj'
        rcases hprev q' hq' with ⟨rfl, -⟩ | ⟨⟨j₁, i₁, hj₁, hi₁, hlt₁⟩, -⟩
        · rw [hi, Option.some.injEq] at hj'
          omega
        · rw [hj₁, Option.some.injEq] at hj'
          rw [hi, Option.some.injEq] at hi₁
          omega
      obtain ⟨hran, hresult⟩ := h.fresh q j hj hold
      exact ⟨hran, (Function.update_of_ne hne _ _).trans hresult⟩
  have hrun : opsResume plan found s p =
      goOn found { record s p with curIdx := c } p ((plan.pipelines p).drop 0) 0 := by
    rw [List.drop_zero, ← hreset, opsResume]
    simp only [hlast]
  rw [hrun]
  apply inv_of_goOn hopen hfirst
  intro hp
  obtain ⟨k, hk⟩ := hcounter hp
  refine ⟨k, hk, .inl (Nat.zero_le _), ?_⟩
  intro hzero
  have := hk.le
  omega

theorem record_nested {s : State} (p : Phase) (h : s.stack ≠ []) : record s p = s := by
  rw [record, if_neg h]

theorem opsResume_filter {plan : Plan} {found : Op → Bool} {s : State} {p : Phase}
    (hp : rank p = none) :
    SameMain (record s p) (opsResume plan found s p) ∧
      ((opsResume plan found s p).stack = s.stack ∨
        ∃ j, (opsResume plan found s p).stack = ⟨p, j⟩ :: s.stack) := by
  have hstack : (record s p).stack = s.stack := by
    unfold record
    split_ifs <;> rfl
  unfold opsResume
  simp only
  rw [← hstack]
  split
  · obtain ⟨hsame, hcases⟩ := goOn_filter (s := { record s p with curIdx := 0 })
      (plan.pipelines p) 0 hp
    exact ⟨⟨hsame.ran, hsame.result, hsame.main, hsame.ended⟩, hcases⟩
  · exact goOn_filter (plan.pipelines p) 0 hp

theorem isFilter_rank {p : Phase} (h : isFilter p = true) : rank p = none := by
  cases p <;> first | rfl | exact absurd h (by decide)

theorem inv_record_over {plan : Plan} {s : State} (h : Inv plan s) (hstack : s.stack = []) :
    Inv plan { s with ended := true } where
  once := fun p hp => ⟨(h.once p hp).inOrder, (h.once p hp).whole⟩
  fresh := h.fresh
  ranked := h.ranked
  start := fun _ hno => absurd hno (by simp)
  ended := fun _ b hb => by
    rw [show ({ s with ended := true } : State).stack = [] from hstack] at hb
    exact absurd hb List.not_mem_nil
  ready := fun hno => absurd hno (by simp)
  busy := fun hno => absurd hno (by simp)

/-- A step after which the filters and the log go on outside of the ops. -/
theorem inv_step_over {plan : Plan} {s s₀ s' : State} {p : Phase} (h : Inv plan s)
    (hover : s.ended = true) (hsame₀ : SameMain s s₀) (hsub : ∀ b ∈ s₀.stack, b ∈ s.stack)
    (hp : rank p = none) (hsame : SameMain s₀ s')
    (hcases : s'.stack = s₀.stack ∨ ∃ j, s'.stack = ⟨p, j⟩ :: s₀.stack) : Inv plan s' := by
  have hall := hsame₀.trans hsame
  refine inv_of_over h hall (hall.ended.trans hover) ?_
  have hold : ∀ b ∈ s₀.stack, rank b.phase = none := fun b hb => h.ended hover b (hsub b hb)
  rcases hcases with heq | ⟨j, heq⟩
  · rw [heq]
    exact hold
  · rw [heq, List.forall_mem_cons]
    exact ⟨hp, hold⟩

/-- A step of a filter inside an op of the content phase. -/
theorem inv_step_nested {plan : Plan} {s s₀ s' : State} {p : Phase} {inner inner₀ : List Frame}
    {b : Frame} (h : Inv plan s) (hover : s.ended = false) (hstack : s.stack = inner ++ [b])
    (hcontent : b.phase = .content) (hsame₀ : SameMain s s₀) (hstack₀ : s₀.stack = inner₀ ++ [b])
    (hsub : ∀ g ∈ inner₀, g ∈ inner) (hp : rank p = none) (hsame : SameMain s₀ s')
    (hcases : s'.stack = s₀.stack ∨ ∃ j, s'.stack = ⟨p, j⟩ :: s₀.stack) : Inv plan s' := by
  have hfilters := (h.busy hover inner b hstack).filters
  have hold : ∀ g ∈ inner₀, rank g.phase = none := fun g hg => hfilters g (hsub g hg)
  rcases hcases with heq | ⟨j, heq⟩
  · exact inv_of_nested h (hsame₀.trans hsame) hover hstack hcontent (heq.trans hstack₀) hold
  · rw [hstack₀, ← List.cons_append] at heq
    refine inv_of_nested h (hsame₀.trans hsame) hover hstack hcontent heq ?_
    rw [List.forall_mem_cons]
    exact ⟨hp, hold⟩

theorem popped_same (s : State) (stack : List Frame) : SameMain s { s with stack := stack } :=
  ⟨fun _ _ => rfl, fun _ _ => rfl, rfl, rfl⟩

/-- What the two kinds of return have in common: `run` is the step from the popped state. -/
theorem inv_return {plan : Plan} {s : State} {f : Frame} {rest : List Frame} {run : State → State}
    (h : Inv plan s) (hstack : s.stack = f :: rest)
    (houter : s.ended = false → rest = [] → Inv plan (run { s with stack := [] }))
    (hfilter : rank f.phase = none → SameMain { s with stack := rest } (run { s with stack := rest }) ∧
      ((run { s with stack := rest }).stack = rest ∨
        ∃ j, (run { s with stack := rest }).stack = ⟨f.phase, j⟩ :: rest)) :
    Inv plan (run { s with stack := rest }) := by
  by_cases hover : s.ended = true
  · have hp := h.ended hover f (hstack ▸ List.mem_cons_self ..)
    obtain ⟨hsame, hcases⟩ := hfilter hp
    refine inv_step_over h hover (popped_same s rest) ?_ hp hsame hcases
    intro b hb
    rw [hstack]
    exact List.mem_cons_of_mem _ hb
  · rw [Bool.not_eq_true] at hover
    rcases List.eq_nil_or_concat rest with rfl | ⟨inner, b, rfl⟩
    · exact houter hover rfl
    · rw [List.concat_eq_append] at *
      have hsplit : s.stack = (f :: inner) ++ [b] := hstack
      have hbusy := h.busy hover (f :: inner) b hsplit
      have hcontent : b.phase = .content := by
        by_contra hno
        exact absurd (hbusy.alone hno) (List.cons_ne_nil _ _)
      have hp := hbusy.filters f (List.mem_cons_self ..)
      obtain ⟨hsame, hcases⟩ := hfilter hp
      exact inv_step_nested h hover hsplit hcontent (popped_same s _) rfl
        (fun g hg => List.mem_cons_of_mem _ hg) hp hsame hcases

theorem inv_step {plan : Plan} {found : Op → Bool} {s : State} {i : Input} (h : Inv plan s)
    (hfollows : Follows plan s i) (hcond : Condition plan s i) :
    Inv plan (step plan found s i).1 := by
  cases i with
  | called e =>
    obtain ⟨f, hf, hop⟩ := hfollows
    obtain ⟨rest, hstack⟩ := List.head?_eq_some_iff.mp hf
    have hstep : (step plan found s (.called e)).1 =
        opCalled plan found { s with stack := rest } f e := by
      simp only [step, hstack]
    rw [hstep]
    refine @inv_return _ _ _ _ (fun s => opCalled plan found s f e) h hstack ?_ fun hp =>
      opCalled_filter e hp
    intro hover hrest
    exact inv_called h hover (hrest ▸ hstack) hop hcond
  | handled rc =>
    obtain ⟨f, hf, hop⟩ := hfollows
    obtain ⟨rest, hstack⟩ := List.head?_eq_some_iff.mp hf
    have hstep : (step plan found s (.handled rc)).1 =
        opHandled plan found { s with stack := rest } f rc := by
      simp only [step, hstack]
    rw [hstep]
    refine @inv_return _ _ _ _ (fun s => opHandled plan found s f rc) h hstack ?_ fun hp =>
      opHandled_filter rc hp
    intro hover hrest
    exact inv_handled h hover (hrest ▸ hstack) hop hcond
  | resume p =>
    show Inv plan (opsResume plan found s p)
    simp only [Follows] at hfollows
    by_cases hstack : s.stack = []
    · rw [if_pos hstack] at hfollows
      by_cases hranked : (rank p).isSome
      · exact inv_resume_main h hstack hranked (hfollows hranked) hcond.1
      · have hp : rank p = none := by simpa using hranked
        obtain ⟨hsame, hcases⟩ := opsResume_filter (s := s) hp
        have hrecord : record s p = { s with ended := true } := by
          rw [record, if_pos hstack, if_neg hranked]
        rw [hrecord] at hsame
        exact inv_step_over (inv_record_over h hstack) rfl (popped_same _ s.stack)
          (fun b hb => hb) hp ⟨hsame.ran, hsame.result, hsame.main, hsame.ended⟩ hcases
    · rw [if_neg hstack] at hfollows
      obtain ⟨hfilter, hbottom⟩ := hfollows
      obtain ⟨b, hb, hcontent⟩ := Option.map_eq_some_iff.mp hbottom
      obtain ⟨inner, hsplit⟩ := List.getLast?_eq_some_iff.mp hb
      have hp := isFilter_rank hfilter
      obtain ⟨hsame, hcases⟩ := opsResume_filter (s := s) hp
      rw [record_nested p hstack] at hsame
      cases hover : s.ended with
      | true =>
        exact inv_step_over h hover (popped_same s s.stack) (fun b hb => hb) hp
          ⟨hsame.ran, hsame.result, hsame.main, hsame.ended⟩ hcases
      | false =>
        exact inv_step_nested h hover hsplit hcontent (popped_same s s.stack) hsplit
          (fun g hg => hg) hp ⟨hsame.ran, hsame.result, hsame.main, hsame.ended⟩ hcases

/-! ### Whole runs -/

/-- Two calls in the content phase and one in the body filter. -/
def twoCalls : Plan :=
  { planNew with
    pipelines := fun p =>
      match p with
      | .content => [.call .content [1], .call .content [2]]
      | .bodyFilter => [.call .bodyFilter [3]]
      | _ => [] }

/-- The filters run inside a call, the one of the body filter to its end. -/
def sends : List Input := [.resume .headerFilter, .resume .bodyFilter, .called .next]

/-- The first call yields, and the second one sends the response. -/
def secondSends : List Input :=
  [.resume .rewrite, .resume .access, .resume .content, .called .yield, .resume .content] ++ sends ++
    [.called .next]

def firstSends : List Input :=
  [.resume .rewrite, .resume .access, .resume .content] ++ sends ++ [.called .next]

instance (s : State) (p : Phase) : Decidable (PhaseFollows s p) :=
  decidable_of_iff (s.ended = false ∧ ∀ q ∈ s.main,
    (p = q ∧ ∃ rc ∈ s.result q, isError rc = false) ∨
      ((∃ i ∈ rank q, ∃ j ∈ rank p, i < j) ∧ ∃ rc ∈ s.result q, isError rc = false ∧ rc ≠ .again)) <| by
    simp only [PhaseFollows, complete, Option.mem_def, exists_and_left]

instance (plan : Plan) (s : State) : (i : Input) → Decidable (Follows plan s i)
  | .resume p => by unfold Follows; infer_instance
  | .called _ => by unfold Follows; infer_instance
  | .handled _ => by unfold Follows; infer_instance

instance (plan : Plan) (s : State) : (i : Input) → Decidable (CounterKept plan s i)
  | .resume _ => .isTrue trivial
  | .called e =>
    decidable_of_iff (∀ f ∈ s.stack, s.stack = [f] → f.phase = .content →
      s.curIdx = f.i ∨ (e ≠ .yield ∧ e ≠ .next) ∨
        (callCount plan .content ≤ f.i + 1 ∧ f.i ≤ s.curIdx))
      ⟨fun h f hf => h f (hf ▸ List.mem_cons_self ..) hf, fun h f _ => h f⟩
  | .handled rc =>
    decidable_of_iff (∀ f ∈ s.stack, s.stack = [f] → f.phase = .content →
      isError rc = true ∨ callCount plan .content ≤ s.curIdx)
      ⟨fun h f hf => h f (hf ▸ List.mem_cons_self ..) hf, fun h f _ => h f⟩

instance (plan : Plan) (s : State) (i : Input) : Decidable (Condition plan s i) := by
  unfold Condition CallsFirst
  infer_instance

instance meetsDecidable (step : State → Input → State × Unit) (C : State → Input → Prop)
    [∀ s i, Decidable (C s i)] : (s : State) → (is : List Input) → Decidable (Run.Meets step C s is)
  | _, [] => .isTrue trivial
  | s, i :: is =>
    have := meetsDecidable step C (step s i).1 is
    inferInstanceAs (Decidable (C s i ∧ Run.Meets step C (step s i).1 is))

end NgxWasm.Wasm.OpsResume
