import NgxWasm.ProxyWasm.DispatchOps
import NgxWasm.Lib.Trace
import Mathlib.Data.List.Count
import Mathlib.Data.List.Nodup
import Mathlib.Tactic.Common

/-!
# Every dispatched operation is over once

As long as no local response is stashed while a foreign call is pending, and no HTTP
call is over while nginx's resolver still has a query of its socket, the operations in
the queue are those that some socket or resolver will complete.
-/

namespace NgxWasm.ProxyWasm.DispatchOps

open NgxWasm.Lib.Run NgxWasm.Lib.Trace

/-- No callback of an operation runs after the operation was cancelled. -/
def Uncancelled (t : List Event) : Prop :=
  Each (fun before e => ∀ id, e = .callback id → .cancelled id ∉ before) t

/-- Every `continued` was written with no operation left. -/
def Drained (t : List Event) : Prop := ∀ n, .continued n ∈ t → n = 0

/-- Nothing happened to the operation since it was queued. -/
def Untouched (id : ℕ) (t : List Event) : Prop :=
  .left id ∉ t ∧ .callback id ∉ t ∧ .cancelled id ∉ t

structure Inv (e : Exec) : Prop where
  outstanding : e.outstanding = e.ops
  nodup : (e.ops.map Op.id).Nodup
  fresh : ∀ id ∈ e.ops.map Op.id, id < e.next
  queued : ∀ id, id ∈ e.ops.map Op.id ∨ e.next ≤ id → Untouched id e.trace
  leftOnce : ∀ id, id < e.next → id ∉ e.ops.map Op.id → e.trace.count (.left id) = 1
  callbackOnce : ∀ id, e.trace.count (.callback id) ≤ 1
  uncancelled : Uncancelled e.trace
  drained : Drained e.trace

theorem inv_init : Inv init where
  outstanding := rfl
  nodup := List.nodup_nil
  fresh := nofun
  queued := fun _ _ => ⟨nofun, nofun, nofun⟩
  leftOnce := nofun
  callbackOnce := fun _ => Nat.zero_le 1
  uncancelled := each_nil _
  drained := nofun

theorem mem_without {id : ℕ} {ops : List Op} {op : Op} :
    op ∈ without id ops ↔ op ∈ ops ∧ op.id ≠ id := by
  simp [without]

theorem mem_ids_without {id j : ℕ} {ops : List Op} :
    j ∈ (without id ops).map Op.id ↔ j ∈ ops.map Op.id ∧ j ≠ id := by
  simp only [List.mem_map, mem_without]
  constructor
  · rintro ⟨op, ⟨hop, hne⟩, rfl⟩
    exact ⟨⟨op, hop, rfl⟩, hne⟩
  · rintro ⟨⟨op, hop, rfl⟩, hne⟩
    exact ⟨op, ⟨hop, hne⟩, rfl⟩

theorem nodup_without {id : ℕ} {ops : List Op} (h : (ops.map Op.id).Nodup) :
    ((without id ops).map Op.id).Nodup :=
  h.sublist (List.filter_sublist.map Op.id)

theorem inv_insert {e : Exec} (h : Inv e) (kind : Kind) : Inv (e.insert kind) where
  outstanding := by rw [Exec.insert, h.outstanding]
  nodup := by
    refine List.nodup_cons.mpr ⟨?_, h.nodup⟩
    intro hmem
    exact absurd (h.fresh _ hmem) (lt_irrefl _)
  fresh := by
    intro id hid
    rcases List.mem_cons.mp hid with rfl | hid
    · exact Nat.lt_succ_self _
    · exact Nat.lt_succ_of_lt (h.fresh id hid)
  queued := by
    intro id hid
    apply h.queued
    rcases hid with hid | hid
    · rcases List.mem_cons.mp hid with rfl | hid
      · exact .inr (Nat.le_refl _)
      · exact .inl hid
    · exact .inr (Nat.le_of_succ_le hid)
  leftOnce := by
    intro id hlt hid
    have hne : id ≠ e.next ∧ id ∉ e.ops.map Op.id := by
      simpa [Exec.insert] using hid
    have hlt : id < e.next + 1 := hlt
    exact h.leftOnce id (by omega) hne.2
  callbackOnce := h.callbackOnce
  uncancelled := h.uncancelled
  drained := h.drained

/-- The open queries alone change. -/
theorem Inv.queries {e : Exec} (h : Inv e) (queries : List ℕ) : Inv { e with queries } :=
  ⟨h.outstanding, h.nodup, h.fresh, h.queued, h.leftOnce, h.callbackOnce, h.uncancelled, h.drained⟩

theorem destroyCall_eq {e : Exec} {id : ℕ} (h : id ∉ e.queries) : e.destroyCall id = e.settle id :=
  if_neg h

/-- An operation leaves the queue and is settled; it may then be called back or
recorded as cancelled. -/
structure Left (e : Exec) (id : ℕ) : Prop extends Inv e where
  known : id < e.next
  gone : id ∉ e.ops.map Op.id
  uncalled : .callback id ∉ e.trace
  spared : .cancelled id ∉ e.trace

theorem left_remove {e : Exec} (h : Inv e) {id : ℕ} (hid : id ∈ e.ops.map Op.id) :
    Left ((e.remove id).settle id) id := by
  obtain ⟨hleft, hcall, hcancel⟩ := h.queued id (.inl hid)
  refine
    { outstanding := ?_, nodup := nodup_without h.nodup, fresh := ?_, queued := ?_, leftOnce := ?_,
      callbackOnce := ?_, uncancelled := ?_, drained := ?_, known := h.fresh id hid, gone := ?_,
      uncalled := ?_, spared := ?_ }
  · simp only [Exec.settle, Exec.remove, h.outstanding]
  · intro j hj
    exact h.fresh j (mem_ids_without.mp hj).1
  · intro j hj
    have hne : j ≠ id := by
      intro heq
      subst heq
      rcases hj with hj | hj
      · exact (mem_ids_without.mp hj).2 rfl
      · exact absurd (h.fresh _ hid) (Nat.not_lt.mpr hj)
    have hold := h.queued j (hj.imp_left fun hj => (mem_ids_without.mp hj).1)
    simpa [Untouched, Exec.settle, Exec.remove, hne] using hold
  · intro j hlt hj
    have hj : ¬ (j ∈ e.ops.map Op.id ∧ j ≠ id) := fun hmem => hj (mem_ids_without.mpr hmem)
    simp only [Exec.settle, Exec.remove, List.count_append]
    by_cases heq : j = id
    · subst heq
      rw [List.count_eq_zero_of_not_mem hleft]
      simp
    · have hold := h.leftOnce j hlt fun hmem => hj ⟨hmem, heq⟩
      rw [hold]
      simp [Ne.symm heq]
  · intro j
    simpa [Exec.settle, Exec.remove, List.count_append] using h.callbackOnce j
  · exact h.uncancelled.snoc nofun
  · intro n hn
    exact h.drained n (by simpa [Exec.settle, Exec.remove] using hn)
  · exact fun hmem => (mem_ids_without.mp hmem).2 rfl
  · simpa [Exec.settle, Exec.remove] using hcall
  · simpa [Exec.settle, Exec.remove] using hcancel

/-- An event about an operation that left keeps the invariant. -/
theorem Left.emit {e : Exec} {id : ℕ} (h : Left e id) {ev : Event}
    (hev : ev = .callback id ∨ ev = .cancelled id) : Inv (e.emit ev) := by
  have hother : ∀ j, j ≠ id → Untouched j e.trace → Untouched j (e.emit ev).trace := by
    intro j hne hold
    rcases hev with rfl | rfl
    all_goals simpa [Untouched, Exec.emit, hne] using hold
  refine ⟨h.outstanding, h.nodup, h.fresh, ?_, ?_, ?_, ?_, ?_⟩
  · intro j hj
    apply hother j _ (h.queued j hj)
    intro heq
    subst heq
    rcases hj with hj | hj
    · exact h.gone hj
    · exact absurd h.known (Nat.not_lt.mpr hj)
  · intro j hlt hj
    rcases hev with rfl | rfl
    all_goals simpa [Exec.emit, List.count_append] using h.leftOnce j hlt hj
  · intro j
    rcases hev with rfl | rfl
    · simp only [Exec.emit, List.count_append]
      by_cases heq : j = id
      · subst heq
        rw [List.count_eq_zero_of_not_mem h.uncalled]
        simp
      · simpa [Ne.symm heq] using h.callbackOnce j
    · simpa [Exec.emit, List.count_append] using h.callbackOnce j
  · apply Each.snoc h.uncancelled
    intro j hj
    rcases hev with rfl | rfl
    · cases hj
      exact h.spared
    · cases hj
  · intro n hn
    rcases hev with rfl | rfl
    all_goals exact h.drained n (by simpa [Exec.emit] using hn)

theorem inv_finish {e : Exec} (h : Inv e) : Inv (finish e) := by
  unfold finish
  split
  · exact h
  · next hempty =>
    have hzero : e.ops.length = 0 := by simpa using hempty
    rw [hzero]
    refine ⟨h.outstanding, h.nodup, h.fresh, ?_, ?_, ?_, h.uncancelled.snoc nofun, ?_⟩
    · intro j hj
      simpa [Untouched, Exec.emit] using h.queued j hj
    · intro j hlt hj
      simpa [Exec.emit, List.count_append] using h.leftOnce j hlt hj
    · intro j
      simpa [Exec.emit, List.count_append] using h.callbackOnce j
    · intro n hn
      simp only [Exec.emit, List.mem_append, List.mem_singleton, Event.continued.injEq] at hn
      rcases hn with hn | hn
      · exact h.drained n hn
      · exact hn

/-! ### Guest code -/

theorem without_head {op : Op} {rest : List Op} (h : ((op :: rest).map Op.id).Nodup) :
    without op.id (op :: rest) = rest := by
  have hnot : op.id ∉ rest.map Op.id := (List.nodup_cons.mp h).1
  have hrest : ∀ x ∈ rest, (x.id != op.id) = true := by
    intro x hx
    have hne : x.id ≠ op.id := fun heq => hnot (heq ▸ List.mem_map_of_mem hx)
    simpa using hne
  simp only [without, List.filter_cons, bne_self_eq_false, Bool.false_eq_true, ↓reduceIte]
  exact List.filter_eq_self.mpr hrest

theorem inv_cancelOps (ops : List Op) (e : Exec) (hops : e.ops = ops)
    (hkind : ∀ op ∈ ops, op.kind = .http ∧ op.id ∉ e.queries) (h : Inv e) :
    Inv (cancelOps ops e) := by
  induction ops generalizing e with
  | nil => exact h
  | cons op rest ih =>
    have hid : op.id ∈ e.ops.map Op.id := by
      rw [hops]
      exact List.mem_cons_self
    have hnext := (left_remove h hid).emit (.inr rfl)
    have hrest : (((e.remove op.id).settle op.id).emit (.cancelled op.id)).ops = rest := by
      have hnodup := h.nodup
      rw [hops] at hnodup
      simp only [Exec.emit, Exec.settle, Exec.remove, hops]
      exact without_head hnodup
    obtain ⟨hhttp, hasked⟩ := hkind op List.mem_cons_self
    have hdestroy : ((e.remove op.id).emit (.cancelled op.id)).destroyCall op.id =
        ((e.remove op.id).settle op.id).emit (.cancelled op.id) := destroyCall_eq hasked
    simp only [cancelOps, hhttp]
    rw [hdestroy]
    exact ih _ hrest (fun x hx => hkind x (List.mem_cons_of_mem op hx)) hnext

/-- A local response cancels; then only HTTP calls may be pending, and nginx's resolver
has no query of theirs. -/
def CallGuard (e : Exec) : HostCall → Prop
  | .localResponse true => ∀ op ∈ e.ops, op.kind = .http ∧ op.id ∉ e.queries
  | _ => True

theorem inv_hostCall (e : Exec) (c : HostCall) (h : Inv e) (hc : CallGuard e c) :
    Inv (hostCall e c).1 := by
  cases c with
  | dispatch ok =>
    cases ok with
    | false => exact h
    | true => exact inv_insert h .http
  | resolve kind async =>
    cases async with
    | false => exact h
    | true => exact inv_insert h kind
  | localResponse stashed =>
    cases stashed with
    | false => exact h
    | true => exact inv_cancelOps e.ops e rfl hc h

theorem inv_guest {e : Exec} (h : Inv e) {calls : List HostCall}
    (hcalls : Meets hostCall CallGuard e calls) : Inv (exec hostCall e calls).1 :=
  exec_invariant hostCall CallGuard Inv inv_hostCall calls e h hcalls

/-! ### Completions -/

/-- What the callback of the operation calls meets its guard. -/
def CallbackGuard (e : Exec) (id : ℕ) (calls : List HostCall) : Prop :=
  Meets hostCall CallGuard (((e.remove id).settle id).emit (.callback id)) calls

def FailGuard (e : Exec) (id : ℕ) : Option (List HostCall) → Prop
  | some calls => CallbackGuard e id calls
  | none => True

/-- The operation is not an HTTP call with a query that is still open in `queries`. -/
def Answered (e : Exec) (id : ℕ) (queries : List ℕ) : Prop :=
  ⟨id, .http⟩ ∈ e.outstanding → id ∉ queries

/-- No query of an HTTP call is open when the call is over. -/
def AnswerGuard (e : Exec) (id : ℕ) : Answer → Prop
  | .unresolved calls =>
    Answered e id (e.queries.erase id) ∧ FailGuard (e.answered id) id calls
  | .received calls => Answered e id e.queries ∧ CallbackGuard e id calls
  | .failed calls => Answered e id e.queries ∧ FailGuard e id calls
  | .nomem => ⟨id, .resolveLua⟩ ∉ e.outstanding
  | _ => True

def Guard (e : Exec) : Input → Prop
  | .guest calls => Meets hostCall CallGuard e calls
  | .complete id answer => AnswerGuard e id answer
  | .unwound => True

theorem inv_callback {e : Exec} (h : Inv e) {id : ℕ} (hid : id ∈ e.ops.map Op.id)
    {calls : List HostCall} (hcalls : CallbackGuard e id calls) :
    Inv (finish (callback ((e.remove id).settle id) id calls)) :=
  inv_finish (inv_guest ((left_remove h hid).emit (.inl rfl)) hcalls)

theorem inv_httpError {e : Exec} (h : Inv e) {id : ℕ} (hid : id ∈ e.ops.map Op.id)
    (hasked : id ∉ e.queries) {calls : Option (List HostCall)} (hg : FailGuard e id calls) :
    Inv (httpError e id calls) := by
  have hdestroy : (e.remove id).destroyCall id = (e.remove id).settle id := destroyCall_eq hasked
  cases calls with
  | none =>
    rw [httpError, hdestroy]
    exact inv_finish (left_remove h hid).toInv
  | some calls =>
    rw [httpError, hdestroy]
    exact inv_callback h hid hg

theorem inv_httpHandler {e : Exec} (h : Inv e) {id : ℕ} (hid : id ∈ e.ops.map Op.id)
    (hout : ⟨id, .http⟩ ∈ e.outstanding) {answer : Answer} (hg : AnswerGuard e id answer) :
    Inv (httpHandler e id answer) := by
  cases answer with
  | progress asks =>
    cases asks with
    | false => exact inv_finish h
    | true => exact inv_finish (h.queries _)
  | resolved => exact h.queries _
  | unresolved calls =>
    have hanswered : Inv (e.answered id) := h.queries (e.queries.erase id)
    exact inv_httpError hanswered hid (hg.1 hout) hg.2
  | received calls =>
    have hdestroy : (e.remove id).destroyCall id = (e.remove id).settle id :=
      destroyCall_eq (hg.1 hout)
    rw [httpHandler, hdestroy]
    exact inv_callback h hid hg.2
  | failed calls => exact inv_httpError h hid (hg.1 hout) hg.2
  | nomem => exact h

theorem inv_resolveHandler {e : Exec} (h : Inv e) {id : ℕ} (hid : id ∈ e.ops.map Op.id)
    {lua : Bool} {answer : Answer} (hg : AnswerGuard e id answer)
    (hlua : answer = .nomem → lua = false) : Inv (resolveHandler lua e id answer) := by
  cases answer with
  | progress asks => exact h
  | resolved => exact h
  | unresolved calls => exact h
  | received calls => exact inv_callback h hid hg.2
  | failed calls =>
    cases calls with
    | none => exact inv_finish (left_remove h hid).toInv
    | some calls => exact inv_callback h hid hg.2
  | nomem =>
    rw [hlua rfl]
    exact (left_remove h hid).toInv

theorem inv_complete {e : Exec} (h : Inv e) {id : ℕ} {answer : Answer}
    (hg : AnswerGuard e id answer) : Inv (complete e id answer) := by
  unfold complete
  cases hfind : e.outstanding.find? fun op => op.id == id with
  | none => exact h
  | some op =>
    obtain ⟨j, kind⟩ := op
    have hmem := List.mem_of_find?_eq_some hfind
    have hj : j = id := by simpa using List.find?_some hfind
    subst hj
    have hid : j ∈ e.ops.map Op.id := by
      rw [← h.outstanding]
      exact List.mem_map_of_mem hmem
    cases kind with
    | http => exact inv_httpHandler h hid hmem hg
    | resolve => exact inv_resolveHandler h hid hg fun _ => rfl
    | resolveLua =>
      apply inv_resolveHandler h hid hg
      rintro rfl
      exact absurd hmem hg

theorem inv_step (e : Exec) (i : Input) (h : Inv e) (hg : Guard e i) : Inv (step e i).1 := by
  cases i with
  | guest calls => exact inv_guest h hg
  | complete id answer => exact inv_complete h hg
  | unwound => exact inv_finish h

/-- Two HTTP calls, the second one to a name; the callback of the first answers the request
after the name was resolved. -/
def answered : List Input :=
  [.guest [.dispatch true, .dispatch true], .complete 1 (.progress true), .complete 1 .resolved,
    .complete 0 (.received [.localResponse true])]

end NgxWasm.ProxyWasm.DispatchOps
