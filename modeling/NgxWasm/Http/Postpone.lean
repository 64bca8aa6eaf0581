import NgxWasm.Lib.Run

/-!
# Postponed phase handlers (ngx_http_wasm_module.c 796-850, 932-985)

The first call of the rewrite (or access) handler in a worker may move the handler behind
all others of its phase. The array of phase handlers is that of all requests, and each of
them is somewhere in it with its `phase_handler`.
-/

namespace NgxWasm.Http.Postpone

open NgxWasm.Lib

inductive Phase where
  | rewrite
  | access
  deriving Repr, DecidableEq

inductive Handler where
  | wasm
  | other (id : ℕ)
  deriving Repr, DecidableEq

/-- `ngx_http_phase_handler_t`. -/
structure PhaseHandler where
  handler : Handler
  next : ℕ
  deriving Repr, DecidableEq

/-- From `next` back to the last handler of the phase; access has the post_access entry. -/
def Phase.behind : Phase → ℕ
  | .rewrite => 1
  | .access => 2

/-- The directive may be unset; `lua` is the handler of the Lua module in a build with it. -/
def postpones (lua : Option ℕ) (postpone : Option Bool) (last : Handler) : Bool :=
  let pset := postpone.isSome
  let p := pset && postpone.getD false
  p || (lua.any (fun id => last = .other id) && (!pset || (pset && p)))

/-- `ngx_memmove` of the handlers from `cur + 1` to `last`, then the one of `cur`. -/
def moveBehind (ph : List PhaseHandler) (cur last : ℕ) : List PhaseHandler :=
  ph.take cur ++ (ph.drop (cur + 1)).take (last - cur) ++ ph[cur]?.toList ++ ph.drop (last + 1)

/-- `r->phase_handler` and the handlers that are done with the request. -/
structure Request where
  index : ℕ
  ran : List Handler
  deriving Repr, DecidableEq

structure Worker where
  handlers : List PhaseHandler
  pcheck : Bool
  request : ℕ → Option Request

def Worker.setRequest (w : Worker) (r : ℕ) (q : Option Request) : Worker :=
  { w with request := Function.update w.request r q }

/-- What the checker of the phase makes of the result of a handler: go on to the next one, call
this one again later, skip the others, end the request. -/
inductive Outcome where
  | declined
  | again
  | skip
  | final
  deriving Repr, DecidableEq

/-- `postpone` is the directive in the location of the request. -/
inductive Event where
  | enter (r : ℕ)
  | call (r : ℕ) (postpone : Option Bool) (outcome : Outcome)
  deriving Repr, DecidableEq

/-- A request has come to the end of the phase, or left it before. -/
inductive Answer where
  | nothing
  | passed (ran : List Handler)
  | left (ran : List Handler)
  deriving Repr, DecidableEq

def runHandler (phase : Phase) (w : Worker) (r : ℕ) (q : Request) (cur : PhaseHandler) :
    Outcome → Worker × Answer
  | .declined =>
    if q.index + 1 ≤ cur.next - phase.behind then
      (w.setRequest r (some ⟨q.index + 1, q.ran ++ [cur.handler]⟩), .nothing)
    else (w.setRequest r none, .passed (q.ran ++ [cur.handler]))
  | .again => (w, .nothing)
  | .skip | .final => (w.setRequest r none, .left q.ran)

/-- After a move the request is at the same index: `r->phase_handler--`, and the checker adds
one again. -/
def callHandler (phase : Phase) (lua : Option ℕ) (w : Worker) (r : ℕ) (q : Request)
    (cur : PhaseHandler) (postpone : Option Bool) (outcome : Outcome) : Worker × Answer :=
  if cur.handler = .wasm ∧ w.pcheck = false then
    let w := { w with pcheck := true }
    let last := cur.next - phase.behind
    if (w.handlers[last]?.any fun h => postpones lua postpone h.handler) ∧ q.index < last then
      ({ w with handlers := moveBehind w.handlers q.index last }, .nothing)
    else runHandler phase w r q cur outcome
  else runHandler phase w r q cur outcome

def step (phase : Phase) (lua : Option ℕ) (start : ℕ) (w : Worker) : Event → Worker × Answer
  | .enter r => (w.setRequest r (some ⟨start, []⟩), .nothing)
  | .call r postpone outcome =>
    match w.request r with
    | none => (w, .nothing)
    | some q =>
      match w.handlers[q.index]? with
      | none => (w, .nothing)
      | some cur => callHandler phase lua w r q cur postpone outcome

/-! ### The array -/

/-- The handlers of other phases, and those of this one in the order of the configuration. -/
structure Engine where
  phase : Phase
  lua : Option ℕ
  pre : List PhaseHandler
  before : List ℕ
  after : List ℕ
  post : List PhaseHandler

def Engine.start (e : Engine) : ℕ := e.pre.length

def Engine.last (e : Engine) : ℕ := e.pre.length + e.before.length + e.after.length

def Engine.entry (e : Engine) (h : Handler) : PhaseHandler := ⟨h, e.last + e.phase.behind⟩

def Engine.array (e : Engine) (order : List Handler) : List PhaseHandler :=
  e.pre ++ (order.map e.entry ++ e.post)

def Engine.order (e : Engine) : List Handler :=
  e.before.map .other ++ .wasm :: e.after.map .other

def Engine.late (e : Engine) : List Handler :=
  e.before.map .other ++ (e.after.map .other ++ [.wasm])

def Engine.initial (e : Engine) : Worker := ⟨e.array e.order, false, fun _ => none⟩

def Engine.run (e : Engine) (events : List Event) : Worker × List Answer :=
  Run.exec (step e.phase e.lua e.start) e.initial events

theorem moveBehind_eq (xs ys zs : List PhaseHandler) (y : PhaseHandler) :
    moveBehind (xs ++ y :: (ys ++ zs)) xs.length (xs.length + ys.length) =
      xs ++ (ys ++ y :: zs) := by
  have hcur : (xs ++ y :: (ys ++ zs))[xs.length]? = some y := by simp
  have hrest : (xs ++ y :: (ys ++ zs)).drop (xs.length + 1) = ys ++ zs := by
    rw [← List.drop_drop, List.drop_left]
    rfl
  have hpost : (xs ++ y :: (ys ++ zs)).drop (xs.length + ys.length + 1) = zs := by
    rw [show xs.length + ys.length + 1 = xs.length + 1 + ys.length by omega, ← List.drop_drop,
      hrest, List.drop_left]
  have hlen : xs.length + ys.length - xs.length = ys.length := by omega
  rw [moveBehind, hcur, hrest, hpost, hlen, List.take_left, List.take_left]
  simp

theorem Engine.move (e : Engine) :
    moveBehind (e.array e.order) (e.start + e.before.length) e.last = e.array e.late := by
  have h := moveBehind_eq (e.pre ++ (e.before.map .other).map e.entry)
    ((e.after.map .other).map e.entry) e.post (e.entry .wasm)
  simp only [List.length_append, List.length_map] at h
  simp only [Engine.array, Engine.order, Engine.late, Engine.start, Engine.last, List.map_append,
    List.map_cons, List.map_nil, List.append_assoc, List.cons_append, List.nil_append] at h ⊢
  exact h

theorem Engine.array_get (e : Engine) {order : List Handler} {i : ℕ} (hlow : e.start ≤ i)
    (hup : i - e.start < order.length) :
    (e.array order)[i]? = (order[i - e.start]?).map e.entry := by
  rw [Engine.start] at hlow hup ⊢
  rw [Engine.array, List.getElem?_append_right hlow, List.getElem?_append_left (by simpa using hup),
    List.getElem?_map]

theorem Engine.order_length (e : Engine) :
    e.order.length = e.before.length + e.after.length + 1 := by
  simp [Engine.order]
  omega

theorem Engine.late_length (e : Engine) : e.late.length = e.before.length + e.after.length + 1 := by
  simp [Engine.late]
  omega

theorem Engine.late_perm (e : Engine) : e.late.Perm e.order := by
  rw [Engine.late, Engine.order]
  apply List.Perm.append_left
  exact List.perm_append_comm

/-! ### Requests in the phase -/

/-- The request has been through the handlers in front of its index. -/
structure Inside (e : Engine) (order : List Handler) (q : Request) : Prop where
  low : e.start ≤ q.index
  up : q.index ≤ e.last
  ran : q.ran = order.take (q.index - e.start)

/-- What came out of the phase follows the order. -/
def Answer.Within (order : List Handler) : Answer → Prop
  | .nothing => True
  | .passed ran => ran = order
  | .left ran => ran <+: order

/-- Nothing has come out of the phase but requests that left it early. -/
def Answer.Early (e : Engine) : Answer → Prop
  | .nothing => True
  | .passed _ => False
  | .left ran => ran <+: e.before.map .other

/-- The handler was called, and the order is settled. -/
structure Checked (e : Engine) (order : List Handler) (w : Worker) (answers : List Answer) :
    Prop where
  pcheck : w.pcheck = true
  handlers : w.handlers = e.array order
  requests : ∀ r q, w.request r = some q → Inside e order q
  answers : ∀ a ∈ answers, a.Within order

/-- No request has come to the handler yet, so none is behind it. -/
structure Unchecked (e : Engine) (w : Worker) (answers : List Answer) : Prop where
  pcheck : w.pcheck = false
  handlers : w.handlers = e.array e.order
  requests : ∀ r q, w.request r = some q →
    Inside e e.order q ∧ q.index ≤ e.start + e.before.length
  answers : ∀ a ∈ answers, a.Early e

theorem initial_unchecked (e : Engine) : Unchecked e e.initial [] where
  pcheck := rfl
  handlers := rfl
  requests := fun _ _ h => absurd h (by simp [Engine.initial])
  answers := fun _ h => absurd h List.not_mem_nil

theorem request_set {w : Worker} {r r' : ℕ} {x : Option Request} {q : Request}
    (h : (w.setRequest r x).request r' = some q) : x = some q ∨ w.request r' = some q := by
  by_cases hr : r' = r
  · subst hr
    left
    simpa only [Worker.setRequest, Function.update_self] using h
  · right
    simpa only [Worker.setRequest, Function.update_of_ne hr] using h

theorem forall_snoc {P : Answer → Prop} {answers : List Answer} {a : Answer}
    (h : ∀ x ∈ answers, P x) (ha : P a) : ∀ x ∈ answers ++ [a], P x := by
  intro x hx
  rcases List.mem_append.mp hx with hx | hx
  · exact h x hx
  · rw [List.mem_singleton.mp hx]
    exact ha

/-- What one handler does with a request: it goes on, comes out of the phase, stays or leaves. -/
inductive Moved (e : Engine) (w : Worker) (r : ℕ) (q : Request) (h : Handler) :
    Worker × Answer → Prop where
  | next (up : q.index + 1 ≤ e.last) :
    Moved e w r q h (w.setRequest r (some ⟨q.index + 1, q.ran ++ [h]⟩), .nothing)
  | passed (last : e.last ≤ q.index) :
    Moved e w r q h (w.setRequest r none, .passed (q.ran ++ [h]))
  | same : Moved e w r q h (w, .nothing)
  | left : Moved e w r q h (w.setRequest r none, .left q.ran)

theorem runHandler_moved (e : Engine) (w : Worker) (r : ℕ) (q : Request) (h : Handler)
    (outcome : Outcome) : Moved e w r q h (runHandler e.phase w r q (e.entry h) outcome) := by
  have hnext : (e.entry h).next - e.phase.behind = e.last := by
    rw [Engine.entry, Nat.add_sub_cancel]
  cases outcome with
  | again => exact .same
  | skip => exact .left
  | final => exact .left
  | declined =>
    rw [runHandler, hnext]
    split
    next hup => exact .next hup
    next hup => exact .passed (by omega)

theorem take_snoc {order : List Handler} {k : ℕ} {h : Handler} (hget : order[k]? = some h) :
    order.take k ++ [h] = order.take (k + 1) := by
  rw [List.take_add_one, hget]
  rfl

theorem Inside.step {e : Engine} {order : List Handler} {q : Request} {h : Handler}
    (hq : Inside e order q) (hget : order[q.index - e.start]? = some h)
    (hup : q.index + 1 ≤ e.last) : Inside e order ⟨q.index + 1, q.ran ++ [h]⟩ := by
  have hlow := hq.low
  refine ⟨Nat.le_succ_of_le hlow, hup, ?_⟩
  have hk : q.index - e.start + 1 = q.index + 1 - e.start := by omega
  rw [hq.ran, take_snoc hget, hk]

theorem inside_first (e : Engine) (order : List Handler) : Inside e order ⟨e.start, []⟩ := by
  refine ⟨Nat.le_refl _, ?_, by simp⟩
  show e.pre.length ≤ e.last
  rw [Engine.last]
  omega

/-- Once the order is settled every request goes through it. -/
theorem Checked.moved {e : Engine} {order : List Handler} {w : Worker} {answers : List Answer}
    (hw : Checked e order w answers) (hlen : order.length = e.before.length + e.after.length + 1)
    {r : ℕ} {q : Request} {h : Handler} (hq : Inside e order q)
    (hget : order[q.index - e.start]? = some h) {x : Worker × Answer} (hx : Moved e w r q h x) :
    Checked e order x.1 (answers ++ [x.2]) := by
  cases hx with
  | next up =>
    refine ⟨hw.pcheck, hw.handlers, fun r' q' hr => ?_, forall_snoc hw.answers trivial⟩
    rcases request_set hr with hnew | hold
    · rw [← Option.some.inj hnew]
      exact hq.step hget up
    · exact hw.requests r' q' hold
  | passed last =>
    refine ⟨hw.pcheck, hw.handlers, fun r' q' hr => ?_, forall_snoc hw.answers ?_⟩
    · rcases request_set hr with hnew | hold
      · exact absurd hnew (by simp)
      · exact hw.requests r' q' hold
    · have hup := hq.up
      have hall : q.index - e.start + 1 = order.length := by
        rw [Engine.start, hlen]
        rw [Engine.last] at last hup
        omega
      show q.ran ++ [h] = order
      rw [hq.ran, take_snoc hget, hall, List.take_length]
  | same => exact ⟨hw.pcheck, hw.handlers, hw.requests, forall_snoc hw.answers trivial⟩
  | left =>
    refine ⟨hw.pcheck, hw.handlers, fun r' q' hr => ?_, forall_snoc hw.answers ?_⟩
    · rcases request_set hr with hnew | hold
      · exact absurd hnew (by simp)
      · exact hw.requests r' q' hold
    · show q.ran <+: order
      rw [hq.ran]
      exact List.take_prefix _ _

theorem Checked.entry_at {e : Engine} {order : List Handler} {w : Worker} {answers : List Answer}
    (hw : Checked e order w answers) (hlen : order.length = e.before.length + e.after.length + 1)
    {q : Request} (hq : Inside e order q) :
    ∃ h, order[q.index - e.start]? = some h ∧ w.handlers[q.index]? = some (e.entry h) := by
  have hup := hq.up
  have hlt : q.index - e.start < order.length := by
    rw [hlen, Engine.start]
    rw [Engine.last] at hup
    omega
  refine ⟨order[q.index - e.start], List.getElem?_eq_getElem hlt, ?_⟩
  rw [hw.handlers, e.array_get hq.low hlt, List.getElem?_eq_getElem hlt]
  rfl

theorem Checked.step {e : Engine} {order : List Handler} {w : Worker} {answers : List Answer}
    (hw : Checked e order w answers) (hlen : order.length = e.before.length + e.after.length + 1)
    (event : Event) :
    Checked e order (step e.phase e.lua e.start w event).1
      (answers ++ [(step e.phase e.lua e.start w event).2]) := by
  have hsame : Checked e order w (answers ++ [.nothing]) :=
    ⟨hw.pcheck, hw.handlers, hw.requests, forall_snoc hw.answers trivial⟩
  cases event with
  | enter r =>
    refine ⟨hw.pcheck, hw.handlers, fun r' q' hr => ?_, forall_snoc hw.answers trivial⟩
    rcases request_set hr with hnew | hold
    · rw [← Option.some.inj hnew]
      exact inside_first e order
    · exact hw.requests r' q' hold
  | call r postpone outcome =>
    cases hr : w.request r with
    | none =>
      simp only [Postpone.step, hr]
      exact hsame
    | some q =>
      have hq := hw.requests r q hr
      obtain ⟨h, hget, hentry⟩ := hw.entry_at hlen hq
      have hcall : callHandler e.phase e.lua w r q (e.entry h) postpone outcome =
          runHandler e.phase w r q (e.entry h) outcome := by
        rw [callHandler, if_neg (by simp [hw.pcheck])]
      simp only [Postpone.step, hr, hentry, hcall]
      exact hw.moved hlen hq hget (runHandler_moved e w r q h outcome)

/-! ### The first call of the handler -/

/-- The order that the location of the first request decides. -/
def Engine.decided (e : Engine) (postpone : Option Bool) : List Handler :=
  if e.after.getLast?.any fun id => postpones e.lua postpone (.other id) then e.late else e.order

theorem Engine.order_take (e : Engine) {k : ℕ} (hk : k ≤ e.before.length) :
    e.order.take k = (e.before.map Handler.other).take k := by
  rw [Engine.order, List.take_append_of_le_length (by simpa using hk)]

theorem Engine.late_take (e : Engine) {k : ℕ} (hk : k ≤ e.before.length) :
    e.late.take k = (e.before.map Handler.other).take k := by
  rw [Engine.late, List.take_append_of_le_length (by simpa using hk)]

theorem Engine.order_before (e : Engine) {k : ℕ} (hk : k < e.before.length) :
    e.order[k]? = some (.other e.before[k]) := by
  rw [Engine.order, List.getElem?_append_left (by simpa using hk), List.getElem?_map,
    List.getElem?_eq_getElem hk]
  rfl

theorem Engine.order_wasm (e : Engine) : e.order[e.before.length]? = some .wasm := by
  rw [Engine.order, List.getElem?_append_right (by simp), List.length_map, Nat.sub_self]
  rfl

theorem Engine.order_last (e : Engine) {ids : List ℕ} {id : ℕ} (h : e.after = ids ++ [id]) :
    e.order[e.before.length + e.after.length]? = some (.other id) := by
  rw [Engine.order, List.getElem?_append_right (by simp), List.length_map, h]
  simp

theorem Answer.Early.within {e : Engine} {a : Answer} (h : a.Early e) {order : List Handler}
    (horder : e.before.map .other <+: order) : a.Within order := by
  cases a with
  | nothing => trivial
  | passed ran => exact absurd h (by simp [Answer.Early])
  | left ran => exact List.IsPrefix.trans h horder

theorem Unchecked.entry_at {e : Engine} {w : Worker} {answers : List Answer}
    (hw : Unchecked e w answers) {q : Request} (hq : Inside e e.order q) :
    ∃ h, e.order[q.index - e.start]? = some h ∧ w.handlers[q.index]? = some (e.entry h) := by
  have hup := hq.up
  have hlt : q.index - e.start < e.order.length := by
    rw [e.order_length, Engine.start]
    rw [Engine.last] at hup
    omega
  refine ⟨e.order[q.index - e.start], List.getElem?_eq_getElem hlt, ?_⟩
  rw [hw.handlers, e.array_get hq.low hlt, List.getElem?_eq_getElem hlt]
  rfl

/-- Before the handler of the module the requests only go through those in front of it. -/
theorem Unchecked.moved {e : Engine} {w : Worker} {answers : List Answer}
    (hw : Unchecked e w answers) {r : ℕ} {q : Request} {h : Handler} (hq : Inside e e.order q)
    (hfront : q.index < e.start + e.before.length)
    (hget : e.order[q.index - e.start]? = some h) {x : Worker × Answer} (hx : Moved e w r q h x) :
    Unchecked e x.1 (answers ++ [x.2]) := by
  cases hx with
  | next up =>
    refine ⟨hw.pcheck, hw.handlers, fun r' q' hr => ?_, forall_snoc hw.answers trivial⟩
    rcases request_set hr with hnew | hold
    · rw [← Option.some.inj hnew]
      exact ⟨hq.step hget up, hfront⟩
    · exact hw.requests r' q' hold
  | passed last =>
    rw [Engine.start] at hfront
    rw [Engine.last] at last
    omega
  | same => exact ⟨hw.pcheck, hw.handlers, hw.requests, forall_snoc hw.answers trivial⟩
  | left =>
    refine ⟨hw.pcheck, hw.handlers, fun r' q' hr => ?_, forall_snoc hw.answers ?_⟩
    · rcases request_set hr with hnew | hold
      · exact absurd hnew (by simp)
      · exact hw.requests r' q' hold
    · show q.ran <+: e.before.map .other
      have hlow := hq.low
      rw [hq.ran, e.order_take (by omega)]
      exact List.take_prefix _ _

/-- The requests that are inside of the phase are in front of what moves. -/
theorem Unchecked.postponed {e : Engine} {w : Worker} {answers : List Answer}
    (hw : Unchecked e w answers) :
    Checked e e.late { w with handlers := e.array e.late, pcheck := true }
      (answers ++ [.nothing]) := by
  refine ⟨rfl, rfl, fun r q hr => ?_, forall_snoc (fun a ha => ?_) trivial⟩
  · obtain ⟨hq, hbefore⟩ := hw.requests r q hr
    have hlow := hq.low
    refine ⟨hlow, hq.up, ?_⟩
    rw [hq.ran, e.order_take (by omega), e.late_take (by omega)]
  · exact (hw.answers a ha).within (List.prefix_append _ _)

theorem Unchecked.kept {e : Engine} {w : Worker} {answers : List Answer}
    (hw : Unchecked e w answers) : Checked e e.order { w with pcheck := true } answers :=
  ⟨rfl, hw.handlers, fun r q hr => (hw.requests r q hr).1,
    fun a ha => (hw.answers a ha).within (List.prefix_append _ _)⟩

/-- The test that the first call makes on the last handler of the phase. -/
theorem Engine.moves_iff (e : Engine) (postpone : Option Bool) :
    (((e.array e.order)[e.last]?.any fun h => postpones e.lua postpone h.handler) = true ∧
        e.start + e.before.length < e.last) ↔
      (e.after.getLast?.any fun id => postpones e.lua postpone (.other id)) = true := by
  have hlast : e.last - e.start = e.before.length + e.after.length := by
    rw [Engine.last, Engine.start]
    omega
  have hlow : e.start ≤ e.last := by
    rw [Engine.last, Engine.start]
    omega
  have hup : e.last - e.start < e.order.length := by
    rw [hlast, e.order_length]
    omega
  rw [e.array_get hlow hup, hlast]
  rcases List.eq_nil_or_concat e.after with hnil | ⟨ids, id, hafter⟩
  · rw [hnil]
    simp [Engine.start, Engine.last, hnil]
  · rw [List.concat_eq_append] at hafter
    have hlt : e.start + e.before.length < e.last := by
      rw [Engine.start, Engine.last, hafter]
      simp
    rw [e.order_last hafter, hafter, List.getLast?_concat]
    simp [hlt, Engine.entry]

theorem Unchecked.decide {e : Engine} {w : Worker} {answers : List Answer}
    (hw : Unchecked e w answers) {r : ℕ} {q : Request} (hr : w.request r = some q)
    (hat : q.index = e.start + e.before.length) (postpone : Option Bool) (outcome : Outcome) :
    Checked e (e.decided postpone)
      (step e.phase e.lua e.start w (.call r postpone outcome)).1
      (answers ++ [(step e.phase e.lua e.start w (.call r postpone outcome)).2]) := by
  obtain ⟨hq, _⟩ := hw.requests r q hr
  obtain ⟨h, hget, hentry⟩ := hw.entry_at hq
  have hwasm : e.order[q.index - e.start]? = some .wasm := by
    rw [hat, Nat.add_sub_cancel_left]
    exact e.order_wasm
  have hh : h = .wasm := Option.some.inj (hget.symm.trans hwasm)
  subst hh
  have hnext : (e.entry .wasm).next - e.phase.behind = e.last := by
    rw [Engine.entry, Nat.add_sub_cancel]
  simp only [step, hr, hentry]
  rw [callHandler, if_pos ⟨rfl, hw.pcheck⟩]
  have hcond := e.moves_iff postpone
  rw [← hw.handlers] at hcond
  simp only [hnext]
  by_cases hmoves : (e.after.getLast?.any fun id => postpones e.lua postpone (.other id)) = true
  · rw [Engine.decided, if_pos hmoves, if_pos (hat ▸ hcond.mpr hmoves), hat, hw.handlers, e.move]
    exact hw.postponed
  · rw [Engine.decided, if_neg hmoves, if_neg fun h => hmoves (hcond.mp (hat ▸ h))]
    exact hw.kept.moved e.order_length hq hwasm (runHandler_moved e _ r q .wasm outcome)

/-! ### Runs -/

theorem Unchecked.step {e : Engine} {w : Worker} {answers : List Answer}
    (hw : Unchecked e w answers) (event : Event) :
    Unchecked e (step e.phase e.lua e.start w event).1
        (answers ++ [(step e.phase e.lua e.start w event).2]) ∨
      ∃ postpone, Checked e (e.decided postpone) (step e.phase e.lua e.start w event).1
        (answers ++ [(step e.phase e.lua e.start w event).2]) := by
  have hsame : Unchecked e w (answers ++ [.nothing]) :=
    ⟨hw.pcheck, hw.handlers, hw.requests, forall_snoc hw.answers trivial⟩
  cases event with
  | enter r =>
    refine Or.inl ⟨hw.pcheck, hw.handlers, fun r' q' hr => ?_, forall_snoc hw.answers trivial⟩
    rcases request_set hr with hnew | hold
    · rw [← Option.some.inj hnew]
      exact ⟨inside_first e e.order, Nat.le_add_right _ _⟩
    · exact hw.requests r' q' hold
  | call r postpone outcome =>
    cases hr : w.request r with
    | none =>
      left
      simp only [Postpone.step, hr]
      exact hsame
    | some q =>
      obtain ⟨hq, hbefore⟩ := hw.requests r q hr
      rcases Nat.lt_or_eq_of_le hbefore with hfront | hat
      · left
        have hlow := hq.low
        obtain ⟨h, hget, hentry⟩ := hw.entry_at hq
        have hother := e.order_before (k := q.index - e.start) (by omega)
        have hne : h ≠ .wasm := by
          intro heq
          rw [hget, heq] at hother
          exact absurd hother (by simp)
        have hcall : callHandler e.phase e.lua w r q (e.entry h) postpone outcome =
            runHandler e.phase w r q (e.entry h) outcome := by
          rw [callHandler, if_neg (fun hwasm => hne hwasm.1)]
        simp only [Postpone.step, hr, hentry, hcall]
        exact hw.moved hq hfront hget (runHandler_moved e w r q h outcome)
      · exact Or.inr ⟨postpone, hw.decide hr hat postpone outcome⟩

theorem Engine.decided_length (e : Engine) (postpone : Option Bool) :
    (e.decided postpone).length = e.before.length + e.after.length + 1 := by
  rw [Engine.decided]
  split
  · exact e.late_length
  · exact e.order_length

theorem Engine.run_snoc (e : Engine) (events : List Event) (event : Event) :
    e.run (events ++ [event]) =
      ((step e.phase e.lua e.start (e.run events).1 event).1,
        (e.run events).2 ++ [(step e.phase e.lua e.start (e.run events).1 event).2]) := by
  rw [Engine.run, Run.exec_append]
  rfl

theorem run_checked (e : Engine) {order : List Handler}
    (hlen : order.length = e.before.length + e.after.length + 1) (first : List Event)
    (hfirst : Checked e order (e.run first).1 (e.run first).2) (rest : List Event) :
    Checked e order (e.run (first ++ rest)).1 (e.run (first ++ rest)).2 := by
  induction rest using List.reverseRecOn with
  | nil =>
    rw [List.append_nil]
    exact hfirst
  | append_singleton rest event ih =>
    rw [← List.append_assoc, e.run_snoc]
    exact ih.step hlen event

theorem run_position (e : Engine) (events : List Event) :
    Unchecked e (e.run events).1 (e.run events).2 ∨
      ∃ postpone, Checked e (e.decided postpone) (e.run events).1 (e.run events).2 := by
  induction events using List.reverseRecOn with
  | nil => exact Or.inl (initial_unchecked e)
  | append_singleton events event ih =>
    rw [e.run_snoc]
    rcases ih with hunchecked | ⟨postpone, hchecked⟩
    · exact hunchecked.step event
    · exact Or.inr ⟨postpone, hchecked.step (e.decided_length postpone) event⟩

/-- The call is the first that comes to the handler of the module. -/
def FirstCall (e : Engine) (events first : List Event) (postpone : Option Bool) : Prop :=
  ∃ r outcome rest q, events = first ++ .call r postpone outcome :: rest ∧
    (e.run first).1.pcheck = false ∧ (e.run first).1.request r = some q ∧
    q.index = e.start + e.before.length

theorem FirstCall.checked {e : Engine} {events first : List Event} {postpone : Option Bool}
    (h : FirstCall e events first postpone) :
    Checked e (e.decided postpone) (e.run events).1 (e.run events).2 := by
  obtain ⟨r, outcome, rest, q, heq, hpcheck, hr, hat⟩ := h
  rcases run_position e first with hunchecked | ⟨postpone', hchecked⟩
  · have hcall : Checked e (e.decided postpone)
        (e.run (first ++ [.call r postpone outcome])).1
        (e.run (first ++ [.call r postpone outcome])).2 := by
      rw [e.run_snoc]
      exact hunchecked.decide hr hat postpone outcome
    have hall := run_checked e (e.decided_length postpone) _ hcall rest
    rwa [List.append_assoc, List.singleton_append, ← heq] at hall
  · have hset := hchecked.pcheck
    rw [hpcheck] at hset
    exact absurd hset (by decide)

theorem Engine.entry_injective (e : Engine) : Function.Injective e.entry := by
  intro h h' heq
  exact congrArg PhaseHandler.handler heq

theorem Engine.array_injective (e : Engine) : Function.Injective e.array := by
  intro order order' heq
  have hmap := List.append_cancel_right (List.append_cancel_left heq)
  exact List.map_injective_iff.mpr e.entry_injective hmap

theorem Engine.decided_perm (e : Engine) (postpone : Option Bool) :
    (e.decided postpone).Perm e.order := by
  rw [Engine.decided]
  split
  · exact e.late_perm
  · exact List.Perm.refl _

/-- Whenever the array is changed, each request that comes to the end of the phase has gone
through every handler once, in the order in which the array is at last; this is the one that
the location of the first request decides. -/
theorem passes_in_order (e : Engine) (events : List Event) :
    ∃ order, order.Perm e.order ∧ (e.run events).1.handlers = e.array order ∧
      (∀ ran, .passed ran ∈ (e.run events).2 → ran = order) ∧
      (∀ ran, .left ran ∈ (e.run events).2 → ran <+: order) ∧
      ∀ first postpone, FirstCall e events first postpone → order = e.decided postpone := by
  rcases run_position e events with hunchecked | ⟨postpone, hchecked⟩
  · refine ⟨e.order, List.Perm.refl _, hunchecked.handlers, ?_, ?_, ?_⟩
    · intro ran hran
      exact absurd (hunchecked.answers _ hran) (by simp [Answer.Early])
    · intro ran hran
      exact List.IsPrefix.trans (hunchecked.answers _ hran) (List.prefix_append _ _)
    · intro first postpone hfirst
      have hset := hfirst.checked.pcheck
      rw [hunchecked.pcheck] at hset
      exact absurd hset (by decide)
  · refine ⟨e.decided postpone, e.decided_perm postpone, hchecked.handlers,
      fun ran hran => hchecked.answers _ hran, fun ran hran => hchecked.answers _ hran, ?_⟩
    intro first postpone' hfirst
    apply e.array_injective
    rw [← hchecked.handlers, hfirst.checked.handlers]

end NgxWasm.Http.Postpone
