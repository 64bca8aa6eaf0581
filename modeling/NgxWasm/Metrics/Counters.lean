import NgxWasm.Lib.Run
import NgxWasm.Metrics.Reload

/-!
# Counters of several processes (ngx_wa_metrics.c 35-46, 367-421, 489-532)

`ngx_wa_metrics_increment` and `ngx_wa_metrics_get` take no lock. An increment reads the
slot of its process and then writes it, a read adds up the slots one after the other, and
the processes run in any order between these steps. A worker has the slot of its number,
all other processes have slot 0.
-/

namespace NgxWasm.Metrics.Counters

open NgxWasm NgxWasm.Lib NgxWasm.Lib.SearchTree
open NgxWasm.Shm.Kv (crc32)

/-- `worker` is `ngx_worker` of an `NGX_PROCESS_WORKER`. -/
structure Process where
  pid : ℕ
  worker : Option ℕ
  deriving Repr, DecidableEq

def Process.slot (p : Process) : ℕ := p.worker.getD 0

/-- What a process is in the middle of. -/
inductive Call where
  | idle
  | adding (mid node value n : ℕ)
  | summing (mid node i val : ℕ)
  deriving Repr, DecidableEq

structure Cycle where
  store : Store
  call : Process → Call

def Cycle.setCall (s : Cycle) (p : Process) (c : Call) : Cycle :=
  { s with call := Function.update s.call p c }

/-- A definition holds the lock; a gauge or histogram is recorded at once. -/
inductive Event where
  | define (name : Bytes) (type : MetricType) (bins : Option (List ℕ))
  | record (p : Process) (mid n now : ℕ) (alloc : Bool)
  | load (p : Process) (mid n : ℕ)
  | write (p : Process)
  | get (p : Process) (mid : ℕ)
  | next (p : Process)

inductive Answer where
  | nothing
  | rc (rc : Rc)
  | added (mid n : ℕ)
  | value (val : ℕ)
  deriving Repr, DecidableEq

/-- The slots of `ngx_wa_metric_t` behind a pointer, if it is a counter. -/
def counterSlots (s : Store) (a : ℕ) : Option (List ℕ) :=
  match (s.node a).metric with
  | .counter slots => some slots
  | _ => none

/-- `m->slots[slot].counter` is read. -/
def incrementLoad (s : Cycle) (p : Process) (mid n : ℕ) : Cycle × Answer :=
  match kvGet s.store mid with
  | none => (s, .rc .declined)
  | some a =>
    match counterSlots s.store a with
    | none => (s, .rc .abort)
    | some slots =>
      match slots[p.slot]? with
      | some value => (s.setCall p (.adding mid a value n), .nothing)
      | none => (s, .nothing)

/-- The sum is written to the slot. -/
def incrementWrite (s : Cycle) (p : Process) (mid a value n : ℕ) : Cycle × Answer :=
  match counterSlots s.store a with
  | none => (s, .nothing)
  | some slots =>
    (⟨setMetric s.store a (.counter (slots.set p.slot ((value + n) % 2 ^ 64))),
      Function.update s.call p .idle⟩, .added mid n)

/-- The loop of `get_counter` is at slot `i`. -/
def getCounterAt (s : Cycle) (p : Process) (mid a i val : ℕ) : Cycle × Answer :=
  match (counterSlots s.store a).bind fun slots => slots[i]? with
  | some c => (s.setCall p (.summing mid a (i + 1) ((val + c) % 2 ^ 64)), .nothing)
  | none => (s.setCall p .idle, .value val)

def getCounterFirst (s : Cycle) (p : Process) (mid : ℕ) : Cycle × Answer :=
  match kvGet s.store mid with
  | none => (s, .rc .declined)
  | some a =>
    match counterSlots s.store a with
    | none => (s, .nothing)
    | some _ => (s.setCall p (.summing mid a 0 0), .nothing)

/-- A process has one call at a time. -/
def onEvent (rb : MetricOps) (s : Cycle) : Event → Cycle × Answer
  | .define name type bins =>
    let r := metricsDefine rb s.store name type bins
    ({ s with store := r.1 }, .rc r.2)
  | .record p mid n now alloc =>
    match s.call p with
    | .idle =>
      let r := metricsRecord s.store mid p.slot n now alloc
      ({ s with store := r.1 }, .rc r.2)
    | _ => (s, .nothing)
  | .load p mid n =>
    match s.call p with
    | .idle => incrementLoad s p mid n
    | _ => (s, .nothing)
  | .write p =>
    match s.call p with
    | .adding mid a value n => incrementWrite s p mid a value n
    | _ => (s, .nothing)
  | .get p mid =>
    match s.call p with
    | .idle => getCounterFirst s p mid
    | _ => (s, .nothing)
  | .next p =>
    match s.call p with
    | .summing mid a i val => getCounterAt s p mid a i val
    | _ => (s, .nothing)

def Event.process : Event → Option Process
  | .define .. => none
  | .record p .. | .load p .. | .write p | .get p _ | .next p => some p

def Answer.count (mid : ℕ) : Answer → ℕ
  | .added k n => if k = mid then n else 0
  | _ => 0

/-- What the finished increments of a metric have added. -/
def counted (mid : ℕ) (answers : List Answer) : ℕ := (answers.map (Answer.count mid)).sum

theorem counted_cons (mid : ℕ) (x : Answer) (answers : List Answer) :
    counted mid (x :: answers) = x.count mid + counted mid answers := by
  simp [counted]

theorem counted_append (mid : ℕ) (xs ys : List Answer) :
    counted mid (xs ++ ys) = counted mid xs + counted mid ys := by
  simp [counted]

/-! ### Calls that are not interrupted -/

theorem setCall_own (s : Cycle) (p : Process) (c : Call) : (s.setCall p c).call p = c := by
  simp only [Cycle.setCall, Function.update_self]

theorem setCall_other (s : Cycle) {p q : Process} (c : Call) (h : p ≠ q) :
    (s.setCall q c).call p = s.call p := by
  simp only [Cycle.setCall, Function.update_of_ne h]

theorem setMetric_same (s : Store) (a : ℕ) : setMetric s a (s.node a).metric = s := by
  rw [setMetric, Function.update_eq_self]

theorem modify_eq_set {slots : List ℕ} {slot value : ℕ} (f : ℕ → ℕ)
    (h : slots[slot]? = some value) : slots.modify slot f = slots.set slot (f value) := by
  rw [List.modify_eq_set_getElem?, h]
  rfl

theorem increment_uninterrupted (rb : MetricOps) (s : Cycle) (p : Process) (mid n : ℕ)
    (hidle : s.call p = .idle) :
    (Run.exec (onEvent rb) s [.load p mid n, .write p]).1.store =
      (metricsIncrement s.store mid p.slot n).1 := by
  simp only [Run.exec_cons, Run.exec_nil, onEvent, hidle, incrementLoad, metricsIncrement]
  cases hget : kvGet s.store mid with
  | none => simp only [hidle]
  | some a =>
    cases hm : (s.store.node a).metric with
    | gauge slots => simp only [counterSlots, hm, hidle]
    | histogram slots => simp only [counterSlots, hm, hidle]
    | counter slots =>
      have hslots : counterSlots s.store a = some slots := by rw [counterSlots, hm]
      simp only [hslots]
      cases hread : slots[p.slot]? with
      | none =>
        have hsame : slots.modify p.slot (fun c => (c + n) % 2 ^ 64) = slots :=
          List.modify_eq_self (List.getElem?_eq_none_iff.mp hread)
        simp only [hidle, hm, hsame]
        rw [← hm, setMetric_same]
      | some value =>
        simp only [hm, modify_eq_set _ hread, incrementWrite, Cycle.setCall, Function.update_self,
          hslots]

theorem loop_uninterrupted (rb : MetricOps) {p : Process} {mid a : ℕ} {slots : List ℕ} (k : ℕ) :
    ∀ {s : Cycle} {i val : ℕ}, counterSlots s.store a = some slots → i + k = slots.length →
      s.call p = .summing mid a i val →
      (Run.exec (onEvent rb) s (List.replicate k (.next p))).1.store = s.store ∧
        (Run.exec (onEvent rb) s (List.replicate k (.next p))).1.call p =
          .summing mid a slots.length
            ((slots.drop i).foldl (fun val c => (val + c) % 2 ^ 64) val) := by
  induction k with
  | zero =>
    intro s i val _ hi hcall
    rw [List.drop_of_length_le (by omega)]
    exact ⟨rfl, by rw [← hi]; exact hcall⟩
  | succ k ih =>
    intro s i val hslots hi hcall
    have hlt : i < slots.length := by omega
    have hread : ((counterSlots s.store a).bind fun slots => slots[i]?) = some slots[i] := by
      rw [hslots, Option.bind_some, List.getElem?_eq_getElem hlt]
    have hstep : (onEvent rb s (.next p)).1 =
        s.setCall p (.summing mid a (i + 1) ((val + slots[i]) % 2 ^ 64)) := by
      simp only [onEvent, hcall, getCounterAt, hread]
    obtain ⟨hstore, hlast⟩ := @ih (s.setCall p (.summing mid a (i + 1) ((val + slots[i]) % 2 ^ 64)))
      (i + 1) _ hslots (by omega) (setCall_own s p _)
    rw [List.replicate_succ, Run.exec_cons, hstep, List.drop_eq_getElem_cons hlt, List.foldl_cons]
    exact ⟨hstore, hlast⟩

theorem get_uninterrupted (rb : MetricOps) (s : Cycle) (p : Process) {mid : ℕ} {slots : List ℕ}
    (hidle : s.call p = .idle) (hfind : find s.store mid = some (.counter slots)) :
    ∃ val, (onEvent rb (Run.exec (onEvent rb) s
        (.get p mid :: List.replicate slots.length (.next p))).1 (.next p)).2 = .value val ∧
      metricsGet s.store mid = .counter val := by
  obtain ⟨a, hget, hm⟩ := Option.map_eq_some_iff.mp hfind
  have hslots : counterSlots s.store a = some slots := by rw [counterSlots, hm]
  have hfirst : (onEvent rb s (.get p mid)).1 = s.setCall p (.summing mid a 0 0) := by
    simp only [onEvent, hidle, getCounterFirst, hget, hslots]
  obtain ⟨hstore, hlast⟩ := @loop_uninterrupted rb p mid a slots slots.length
    (s.setCall p (.summing mid a 0 0)) 0 0 hslots (by omega) (setCall_own s p _)
  refine ⟨getCounter slots, ?_, by rw [metricsGet_eq, hfind]; rfl⟩
  rw [Run.exec_cons, hfirst]
  generalize (Run.exec (onEvent rb) (s.setCall p (.summing mid a 0 0))
    (List.replicate slots.length (.next p))).1 = t at hstore hlast ⊢
  have hkept : counterSlots t.store a = some slots := hstore ▸ hslots
  simp only [onEvent, hlast, getCounterAt, hkept, Option.bind_some,
    List.getElem?_eq_none (Nat.le_refl _)]
  rfl

/-! ### Sums of slots -/

theorem foldl_slots (slots : List ℕ) (val : ℕ) :
    slots.foldl (fun val c => (val + c) % 2 ^ 64) (val % 2 ^ 64) =
      (val + slots.sum) % 2 ^ 64 := by
  induction slots generalizing val with
  | nil => simp
  | cons c slots ih =>
    rw [List.foldl_cons, Nat.mod_add_mod, ih, List.sum_cons, Nat.add_assoc]

theorem getCounter_eq (slots : List ℕ) : getCounter slots = slots.sum % 2 ^ 64 := by
  have h := foldl_slots slots 0
  rw [Nat.zero_mod, Nat.zero_add] at h
  exact h

theorem sum_set (slots : List ℕ) : ∀ {j c : ℕ} (v : ℕ), slots[j]? = some c →
    (slots.set j v).sum + c = slots.sum + v := by
  induction slots with
  | nil => intro j c v h; simp at h
  | cons x slots ih =>
    intro j c v h
    cases j with
    | zero =>
      have hx : x = c := by simpa using h
      rw [List.set_cons_zero, List.sum_cons, List.sum_cons, hx]
      omega
    | succ j =>
      have hrest := ih v (show slots[j]? = some c by simpa using h)
      rw [List.set_cons_succ, List.sum_cons, List.sum_cons]
      omega

/-- A slot whose increment was not disturbed adds it to the counter. -/
theorem getCounter_set {slots : List ℕ} {j c : ℕ} (n : ℕ) (h : slots[j]? = some c) :
    getCounter (slots.set j ((c + n) % 2 ^ 64)) = (getCounter slots + n) % 2 ^ 64 := by
  have hsum := sum_set slots ((c + n) % 2 ^ 64) h
  rw [getCounter_eq, getCounter_eq]
  omega

/-! ### The invariant -/

/-- The metric is a counter with these slots, at this address. -/
structure Holds (s : Store) (mid a : ℕ) (slots : List ℕ) : Prop where
  get : kvGet s mid = some a
  counter : counterSlots s a = some slots

/-- A process inside of an increment read what its slot still holds. -/
def CallOk (ps : Set Process) (s : Store) (p : Process) : Call → Prop
  | .idle => True
  | .adding mid a value _ =>
    p ∈ ps ∧ ∃ slots, Holds s mid a slots ∧ slots[p.slot]? = some value
  | .summing mid a _ _ => ∃ slots, Holds s mid a slots

structure CallsOk (ps : Set Process) (s : Cycle) : Prop where
  store : StoreOk s.store
  calls : ∀ p, CallOk ps s.store p (s.call p)

/-- Counters stay where they are, with their slots. -/
def Keeps (s s' : Store) : Prop := ∀ mid a slots, Holds s mid a slots → Holds s' mid a slots

theorem CallOk.mono {ps : Set Process} {s s' : Store} (h : Keeps s s') {p : Process} {c : Call}
    (hc : CallOk ps s p c) : CallOk ps s' p c := by
  cases c with
  | idle => trivial
  | adding mid a value n =>
    obtain ⟨hp, slots, hold, hread⟩ := hc
    exact ⟨hp, slots, h mid a slots hold, hread⟩
  | summing mid a i val =>
    obtain ⟨slots, hold⟩ := hc
    exact ⟨slots, h mid a slots hold⟩

theorem kvGet_setMetric (s : Store) (a : ℕ) (m : Metric) (k : ℕ) :
    kvGet (setMetric s a m) k = kvGet s k := by
  rw [kvGet, funext (setMetric_hash s a m)]
  rfl

theorem counterSlots_set (s : Store) (a : ℕ) (slots : List ℕ) (b : ℕ) :
    counterSlots (setMetric s a (.counter slots)) b =
      if b = a then some slots else counterSlots s b := by
  by_cases hb : b = a
  · rw [if_pos hb, hb, counterSlots, setMetric]
    simp only [Function.update_self]
  · rw [if_neg hb, counterSlots, setMetric, counterSlots]
    simp only [Function.update_of_ne hb]

theorem insert_keeps (rb : MetricOps) {s : Store} (hs : StoreOk s) {n : MetricNode}
    (hnone : kvGet s n.hash = none) : Keeps s (kvInsert rb s n) := by
  intro mid a slots h
  obtain ⟨_, hget⟩ := kvGet_insert rb hs hnone
  have hmid : mid ≠ n.hash := by
    intro heq
    have hat := h.get
    rw [heq, hnone] at hat
    exact absurd hat (by simp)
  constructor
  · rw [hget, if_neg hmid]
    exact h.get
  · rw [counterSlots, kvInsert_old rb s n (kvGet_lt hs h.get)]
    exact h.counter

theorem set_keeps {s : Store} {a : ℕ} (hother : counterSlots s a = none) (m : Metric) :
    Keeps s (setMetric s a m) := by
  intro mid b slots h
  have hb : b ≠ a := by
    intro heq
    have hslots := h.counter
    rw [heq, hother] at hslots
    exact absurd hslots (by simp)
  constructor
  · rw [kvGet_setMetric]
    exact h.get
  · rw [counterSlots, setMetric]
    simp only [Function.update_of_ne hb]
    exact h.counter

theorem keeps_refl (s : Store) : Keeps s s := fun _ _ _ h => h

/-! ### One step -/

/-- A step leaves all counters as they are, or is the second half of an increment. -/
inductive CounterStep (ps : Set Process) (rb : MetricOps) (s : Cycle) (e : Event) : Prop where
  | quiet (store : StoreOk (onEvent rb s e).1.store)
      (keeps : Keeps s.store (onEvent rb s e).1.store)
      (calls : ∀ q, (onEvent rb s e).1.call q = s.call q ∨
        CallOk ps (onEvent rb s e).1.store q ((onEvent rb s e).1.call q))
      (answer : ∀ mid, (onEvent rb s e).2.count mid = 0)
  | written (p : Process) (mid a value n : ℕ) (slots : List ℕ) (event : e = .write p)
      (call : s.call p = .adding mid a value n) (holds : Holds s.store mid a slots)
      (run : onEvent rb s e =
        (⟨setMetric s.store a (.counter (slots.set p.slot ((value + n) % 2 ^ 64))),
          Function.update s.call p .idle⟩, .added mid n))

/-- A step that changes at most the call of its process. -/
theorem CounterStep.of_call {ps : Set Process} {rb : MetricOps} {s : Cycle} {e : Event}
    (hs : CallsOk ps s) (p : Process) (c : Call) (answer : Answer)
    (hrun : onEvent rb s e = (s.setCall p c, answer)) (hc : CallOk ps s.store p c)
    (hanswer : ∀ mid, answer.count mid = 0) : CounterStep ps rb s e := by
  refine .quiet ?_ ?_ ?_ ?_
  · rw [hrun]
    exact hs.store
  · rw [hrun]
    exact keeps_refl _
  · intro q
    rw [hrun]
    by_cases hq : q = p
    · right
      rw [hq]
      simpa only [Cycle.setCall, Function.update_self] using hc
    · left
      simp only [Cycle.setCall, Function.update_of_ne hq]
  · rw [hrun]
    exact hanswer

theorem CounterStep.of_same {ps : Set Process} {rb : MetricOps} {s : Cycle} {e : Event}
    (hs : CallsOk ps s) (answer : Answer) (hrun : onEvent rb s e = (s, answer))
    (hanswer : ∀ mid, answer.count mid = 0) : CounterStep ps rb s e := by
  refine .quiet ?_ ?_ (fun q => Or.inl ?_) ?_
  · rw [hrun]
    exact hs.store
  · rw [hrun]
    exact keeps_refl _
  · rw [hrun]
  · rw [hrun]
    exact hanswer

theorem CounterStep.of_store {ps : Set Process} {rb : MetricOps} {s : Cycle} {e : Event}
    (t : Store) (rc : Rc) (hrun : onEvent rb s e = ({ s with store := t }, .rc rc))
    (hstore : StoreOk t) (hkeeps : Keeps s.store t) : CounterStep ps rb s e := by
  refine .quiet ?_ ?_ (fun q => Or.inl ?_) ?_
  · rw [hrun]
    exact hstore
  · rw [hrun]
    exact hkeeps
  · rw [hrun]
  · intro mid
    rw [hrun]
    rfl

theorem define_keeps (rb : MetricOps) {s : Store} (hs : StoreOk s) (name : Bytes)
    (type : MetricType) (bins : Option (List ℕ)) :
    StoreOk (metricsDefine rb s name type bins).1 ∧
      Keeps s (metricsDefine rb s name type bins).1 := by
  rw [metricsDefine]
  split
  · exact ⟨hs, keeps_refl s⟩
  · cases hget : kvGet s (crc32 name) with
    | some a => exact ⟨hs, keeps_refl s⟩
    | none =>
      cases newMetric s.workers bins type with
      | none => exact ⟨hs, keeps_refl s⟩
      | some m =>
        have hnone : kvGet s (⟨crc32 name, name, m⟩ : MetricNode).hash = none := hget
        exact ⟨(kvGet_insert rb hs hnone).1, insert_keeps rb hs hnone⟩

theorem record_keeps {s : Store} (hs : StoreOk s) (mid slot n now : ℕ) (alloc : Bool) :
    StoreOk (metricsRecord s mid slot n now alloc).1 ∧
      Keeps s (metricsRecord s mid slot n now alloc).1 := by
  rw [metricsRecord]
  cases hget : kvGet s mid with
  | none => exact ⟨hs, keeps_refl s⟩
  | some a =>
    cases hm : (s.node a).metric with
    | counter slots =>
      simp only [hm]
      exact ⟨hs, keeps_refl s⟩
    | gauge slots =>
      have hother : counterSlots s a = none := by rw [counterSlots, hm]
      simp only [hm]
      exact ⟨(find_set hs hget _).1, set_keeps hother _⟩
    | histogram slots =>
      have hother : counterSlots s a = none := by rw [counterSlots, hm]
      simp only [hm]
      split
      · exact ⟨(find_set hs hget _).1, set_keeps hother _⟩
      · exact ⟨hs, keeps_refl s⟩

theorem load_step {ps : Set Process} (rb : MetricOps) {s : Cycle} (hs : CallsOk ps s)
    (p : Process) (hp : p ∈ ps) (mid n : ℕ) : CounterStep ps rb s (.load p mid n) := by
  cases hcall : s.call p with
  | adding => exact .of_same hs .nothing (by simp only [onEvent, hcall]) fun _ => rfl
  | summing => exact .of_same hs .nothing (by simp only [onEvent, hcall]) fun _ => rfl
  | idle =>
    cases hget : kvGet s.store mid with
    | none =>
      exact .of_same hs (.rc .declined) (by simp only [onEvent, hcall, incrementLoad, hget])
        fun _ => rfl
    | some a =>
      cases hslots : counterSlots s.store a with
      | none =>
        exact .of_same hs (.rc .abort)
          (by simp only [onEvent, hcall, incrementLoad, hget, hslots]) fun _ => rfl
      | some slots =>
        cases hread : slots[p.slot]? with
        | none =>
          exact .of_same hs .nothing
            (by simp only [onEvent, hcall, incrementLoad, hget, hslots, hread]) fun _ => rfl
        | some value =>
          exact .of_call hs p (.adding mid a value n) .nothing
            (by simp only [onEvent, hcall, incrementLoad, hget, hslots, hread])
            ⟨hp, slots, ⟨hget, hslots⟩, hread⟩ fun _ => rfl

theorem write_step {ps : Set Process} (rb : MetricOps) {s : Cycle} (hs : CallsOk ps s)
    (p : Process) : CounterStep ps rb s (.write p) := by
  cases hcall : s.call p with
  | idle => exact .of_same hs .nothing (by simp only [onEvent, hcall]) fun _ => rfl
  | summing => exact .of_same hs .nothing (by simp only [onEvent, hcall]) fun _ => rfl
  | adding mid a value n =>
    have hok := hs.calls p
    rw [hcall] at hok
    obtain ⟨_, slots, hold, _⟩ := hok
    exact .written p mid a value n slots rfl hcall hold
      (by simp only [onEvent, hcall, incrementWrite, hold.counter])

theorem get_step {ps : Set Process} (rb : MetricOps) {s : Cycle} (hs : CallsOk ps s)
    (p : Process) (mid : ℕ) : CounterStep ps rb s (.get p mid) := by
  cases hcall : s.call p with
  | adding => exact .of_same hs .nothing (by simp only [onEvent, hcall]) fun _ => rfl
  | summing => exact .of_same hs .nothing (by simp only [onEvent, hcall]) fun _ => rfl
  | idle =>
    cases hget : kvGet s.store mid with
    | none =>
      exact .of_same hs (.rc .declined) (by simp only [onEvent, hcall, getCounterFirst, hget])
        fun _ => rfl
    | some a =>
      cases hslots : counterSlots s.store a with
      | none =>
        exact .of_same hs .nothing
          (by simp only [onEvent, hcall, getCounterFirst, hget, hslots]) fun _ => rfl
      | some slots =>
        exact .of_call hs p (.summing mid a 0 0) .nothing
          (by simp only [onEvent, hcall, getCounterFirst, hget, hslots])
          ⟨slots, hget, hslots⟩ fun _ => rfl

theorem next_step {ps : Set Process} (rb : MetricOps) {s : Cycle} (hs : CallsOk ps s)
    (p : Process) : CounterStep ps rb s (.next p) := by
  cases hcall : s.call p with
  | idle => exact .of_same hs .nothing (by simp only [onEvent, hcall]) fun _ => rfl
  | adding => exact .of_same hs .nothing (by simp only [onEvent, hcall]) fun _ => rfl
  | summing mid a i val =>
    have hok := hs.calls p
    rw [hcall] at hok
    cases hread : (counterSlots s.store a).bind fun slots => slots[i]? with
    | none =>
      exact .of_call hs p .idle (.value val)
        (by simp only [onEvent, hcall, getCounterAt, hread]) trivial fun _ => rfl
    | some c =>
      exact .of_call hs p (.summing mid a (i + 1) ((val + c) % 2 ^ 64)) .nothing
        (by simp only [onEvent, hcall, getCounterAt, hread]) hok fun _ => rfl

theorem counterStep {ps : Set Process} (rb : MetricOps) {s : Cycle} (hs : CallsOk ps s)
    (e : Event) (he : ∀ p, e.process = some p → p ∈ ps) : CounterStep ps rb s e := by
  cases e with
  | define name type bins =>
    obtain ⟨hstore, hkeeps⟩ := define_keeps rb hs.store name type bins
    exact .of_store _ _ rfl hstore hkeeps
  | record p mid n now alloc =>
    obtain ⟨hstore, hkeeps⟩ := record_keeps hs.store mid p.slot n now alloc
    cases hcall : s.call p with
    | idle =>
      exact .of_store (metricsRecord s.store mid p.slot n now alloc).1
        (metricsRecord s.store mid p.slot n now alloc).2 (by simp only [onEvent, hcall])
        hstore hkeeps
    | adding => exact .of_same hs .nothing (by simp only [onEvent, hcall]) fun _ => rfl
    | summing => exact .of_same hs .nothing (by simp only [onEvent, hcall]) fun _ => rfl
  | load p mid n => exact load_step rb hs p (he p rfl) mid n
  | write p => exact write_step rb hs p
  | get p mid => exact get_step rb hs p mid
  | next p => exact next_step rb hs p

/-! ### Slots of their own -/

theorem Holds.slots_eq {s : Store} {mid a : ℕ} {slots slots' : List ℕ} (h : Holds s mid a slots)
    (h' : Holds s mid a slots') : slots = slots' := by
  have heq := h.counter
  rw [h'.counter] at heq
  exact (Option.some.inj heq).symm

/-- An address belongs to one metric. -/
theorem Holds.mid_eq {s : Store} {mid mid' a : ℕ} {slots slots' : List ℕ}
    (h : Holds s mid a slots) (h' : Holds s mid' a slots') : mid = mid' :=
  (lookup_some _ _ _ _ h.get).2.symm.trans (lookup_some _ _ _ _ h'.get).2

theorem holds_set {s : Store} {mid a : ℕ} {slots : List ℕ} (h : Holds s mid a slots) (b : ℕ)
    (slots' : List ℕ) :
    Holds (setMetric s b (.counter slots')) mid a (if a = b then slots' else slots) := by
  constructor
  · rw [kvGet_setMetric]
    exact h.get
  · rw [counterSlots_set]
    by_cases hab : a = b
    · rw [if_pos hab, if_pos hab]
    · rw [if_neg hab, if_neg hab]
      exact h.counter

/-- The write of one process leaves alone what another one has read. -/
theorem CallOk.of_write {ps : Set Process} (hown : Set.InjOn Process.slot ps) {s : Store}
    {p q : Process} (hp : p ∈ ps) (hq : q ≠ p) {a : ℕ} {slots : List ℕ} {mid : ℕ}
    (hold : Holds s mid a slots) (v : ℕ) {c : Call} (hc : CallOk ps s q c) :
    CallOk ps (setMetric s a (.counter (slots.set p.slot v))) q c := by
  cases c with
  | idle => trivial
  | summing mid' b i val =>
    obtain ⟨slots', hold'⟩ := hc
    exact ⟨_, holds_set hold' a _⟩
  | adding mid' b value n =>
    obtain ⟨hqs, slots', hold', hread⟩ := hc
    refine ⟨hqs, _, holds_set hold' a _, ?_⟩
    by_cases hb : b = a
    · subst hb
      have hmid := hold'.mid_eq hold
      subst hmid
      have hslot : p.slot ≠ q.slot := fun heq => hq (hown hqs hp heq.symm)
      rw [if_pos rfl, List.getElem?_set_ne hslot, hold.slots_eq hold']
      exact hread
    · rw [if_neg hb]
      exact hread

theorem calls_step {ps : Set Process} (hown : Set.InjOn Process.slot ps) (rb : MetricOps)
    {s : Cycle} (hs : CallsOk ps s) (e : Event) (he : ∀ p, e.process = some p → p ∈ ps) :
    CallsOk ps (onEvent rb s e).1 := by
  cases counterStep rb hs e he with
  | quiet store keeps calls answer =>
    refine ⟨store, fun q => ?_⟩
    rcases calls q with hsame | hok
    · rw [hsame]
      exact (hs.calls q).mono keeps
    · exact hok
  | written p mid a value n slots event call holds run =>
    rw [run]
    have hp := hs.calls p
    rw [call] at hp
    refine ⟨(find_set hs.store holds.get _).1, fun q => ?_⟩
    by_cases hq : q = p
    · rw [hq]
      simp only [Function.update_self]
      trivial
    · simp only [Function.update_of_ne hq]
      exact (hs.calls q).of_write hown hp.1 hq holds _

/-- The slots of one counter before and after a step, and what it has added. -/
inductive SlotsStep (slots : List ℕ) : List ℕ → ℕ → Prop where
  | same : SlotsStep slots slots 0
  | add (j c n : ℕ) (read : slots[j]? = some c) :
    SlotsStep slots (slots.set j ((c + n) % 2 ^ 64)) n

theorem slots_step {ps : Set Process} (rb : MetricOps) {s : Cycle} (hs : CallsOk ps s)
    (e : Event) (he : ∀ p, e.process = some p → p ∈ ps) {mid a : ℕ} {slots : List ℕ}
    (hold : Holds s.store mid a slots) :
    ∃ slots', Holds (onEvent rb s e).1.store mid a slots' ∧
      SlotsStep slots slots' ((onEvent rb s e).2.count mid) := by
  cases counterStep rb hs e he with
  | quiet store keeps calls answer =>
    rw [answer mid]
    exact ⟨slots, keeps mid a slots hold, .same⟩
  | written p mid' b value n slots' event call holds run =>
    rw [run]
    have hp := hs.calls p
    rw [call] at hp
    obtain ⟨_, read, hread, hvalue⟩ := hp
    have hset := holds_set hold b (slots'.set p.slot ((value + n) % 2 ^ 64))
    by_cases hab : a = b
    · subst hab
      have hmid := holds.mid_eq hold
      subst hmid
      rw [holds.slots_eq hold, if_pos rfl] at hset
      rw [hread.slots_eq hold] at hvalue
      have hcount : (Answer.added mid' n).count mid' = n := if_pos rfl
      rw [hcount, holds.slots_eq hold]
      exact ⟨_, hset, .add p.slot value n hvalue⟩
    · rw [if_neg hab] at hset
      have hne : mid' ≠ mid := by
        intro heq
        subst heq
        exact hab (Option.some.inj (hold.get.symm.trans holds.get))
      have hcount : (Answer.added mid' n).count mid = 0 := if_neg hne
      rw [hcount]
      exact ⟨slots, hset, .same⟩

theorem SlotsStep.counter {slots slots' : List ℕ} {k : ℕ} (h : SlotsStep slots slots' k) :
    getCounter slots' = (getCounter slots + k) % 2 ^ 64 := by
  cases h with
  | same =>
    rw [Nat.add_zero]
    exact (Nat.mod_eq_of_lt (getCounter_lt slots)).symm
  | add j c _ read => exact getCounter_set k read

/-- Below 2^64 the slots add up to all that was counted. -/
theorem SlotsStep.sum {slots slots' : List ℕ} {k : ℕ} (h : SlotsStep slots slots' k)
    (hfit : slots.sum + k < 2 ^ 64) : slots'.sum = slots.sum + k := by
  cases h with
  | same => rfl
  | add j c _ read =>
    have hsum := sum_set slots ((c + k) % 2 ^ 64) read
    have hzero := sum_set slots 0 read
    omega

/-! ### Runs -/

def idle (s : Store) : Cycle := ⟨s, fun _ => .idle⟩

theorem idle_ok (ps : Set Process) {s : Store} (hs : StoreOk s) : CallsOk ps (idle s) :=
  ⟨hs, fun _ => trivial⟩

/-- The steps are those of these processes. -/
def RunBy (ps : Set Process) (events : List Event) : Prop :=
  ∀ e ∈ events, ∀ p, e.process = some p → p ∈ ps

theorem total_run {ps : Set Process} (hown : Set.InjOn Process.slot ps) (rb : MetricOps)
    {mid a : ℕ} (events : List Event) : ∀ {s : Cycle} {slots : List ℕ}, CallsOk ps s →
      Holds s.store mid a slots → RunBy ps events →
      CallsOk ps (Run.exec (onEvent rb) s events).1 ∧
      ∃ slots', Holds (Run.exec (onEvent rb) s events).1.store mid a slots' ∧
        getCounter slots' =
          (getCounter slots + counted mid (Run.exec (onEvent rb) s events).2) % 2 ^ 64 ∧
        (slots.sum + counted mid (Run.exec (onEvent rb) s events).2 < 2 ^ 64 →
          slots'.sum = slots.sum + counted mid (Run.exec (onEvent rb) s events).2) := by
  induction events with
  | nil =>
    intro s slots hs hold _
    exact ⟨hs, slots, hold, (Nat.mod_eq_of_lt (getCounter_lt slots)).symm, fun _ => rfl⟩
  | cons e events ih =>
    intro s slots hs hold hby
    have he := hby e (List.mem_cons_self ..)
    obtain ⟨next, hnext, hstep⟩ := slots_step rb hs e he hold
    obtain ⟨hend, slots', hlast, htotal, hsum⟩ := ih (calls_step hown rb hs e he) hnext
      fun x hx => hby x (List.mem_cons_of_mem _ hx)
    rw [Run.exec_cons, counted_cons]
    refine ⟨hend, slots', hlast, ?_, fun hfit => ?_⟩
    · rw [htotal, hstep.counter, Nat.mod_add_mod, Nat.add_assoc]
    · have hfirst := hstep.sum (by omega)
      rw [hsum (by omega), hfirst, Nat.add_assoc]

/-- Every counter has, after every run of the processes, all that they have added. -/
def Exact (ps : Set Process) : Prop :=
  ∀ (rb : MetricOps) (s : Store) (mid : ℕ) (slots : List ℕ) (events : List Event),
    StoreOk s → find s mid = some (.counter slots) → RunBy ps events →
    metricsGet (Run.exec (onEvent rb) (idle s) events).1.store mid =
      .counter ((getCounter slots +
        counted mid (Run.exec (onEvent rb) (idle s) events).2) % 2 ^ 64)

theorem find_counter {s : Store} {mid : ℕ} {slots : List ℕ} :
    find s mid = some (.counter slots) ↔ ∃ a, Holds s mid a slots := by
  constructor
  · intro h
    obtain ⟨a, hget, hm⟩ := Option.map_eq_some_iff.mp h
    exact ⟨a, hget, by rw [counterSlots, hm]⟩
  · intro h
    obtain ⟨a, hget, hslots⟩ := h
    rw [find, hget, Option.map_some]
    simp only [counterSlots] at hslots
    split at hslots
    · rename_i m hm
      rw [hm, Option.some.inj hslots]
    · exact absurd hslots (by simp)

theorem exact_of_own {ps : Set Process} (hown : Set.InjOn Process.slot ps) : Exact ps := by
  intro rb s mid slots events hs hfind hby
  obtain ⟨a, hold⟩ := find_counter.mp hfind
  obtain ⟨_, slots', hlast, htotal, _⟩ := total_run hown rb events (idle_ok ps hs) hold hby
  rw [metricsGet_eq, find_counter.mpr ⟨a, hlast⟩, ← htotal]
  rfl

/-! ### A slot that is shared -/

/-- Two processes read a slot before either writes it. -/
def overlap (p q : Process) (mid : ℕ) : List Event :=
  [.load p mid 1, .load q mid 1, .write p, .write q]

theorem overlap_counted (rb : MetricOps) {p q : Process} (hpq : p ≠ q) (hslot : p.slot = q.slot)
    {s : Store} {mid a : ℕ} {slots : List ℕ} (hold : Holds s mid a slots)
    (hread : slots[p.slot]? = some 0) :
    (Run.exec (onEvent rb) (idle s) (overlap p q mid)).1.store =
        setMetric (setMetric s a (.counter (slots.set p.slot 1))) a
          (.counter (slots.set p.slot 1)) ∧
      counted mid (Run.exec (onEvent rb) (idle s) (overlap p q mid)).2 = 2 := by
  have hq : slots[q.slot]? = some 0 := hslot ▸ hread
  have hone : (0 + 1) % 2 ^ 64 = 1 := by decide
  simp only [overlap, Run.exec_cons, Run.exec_nil, onEvent, idle, incrementLoad, hold.get,
    hold.counter, hread, hq, Cycle.setCall, Function.update_self, Function.update_of_ne hpq.symm,
    Function.update_of_ne hpq, incrementWrite, counterSlots_set, if_true, hone]
  constructor
  · rw [← hslot, List.set_set]
  · simp [counted, Answer.count]

def oneCounter (slots : List ℕ) : Store := oneMetric slots.length (.counter slots)

theorem oneCounter_ok {slots : List ℕ} (hpos : 0 < slots.length) : StoreOk (oneCounter slots) := by
  have hwf : StoreWf (oneCounter slots) := oneMetric_wf hpos rfl fun _ heq => absurd heq (by simp)
  refine ⟨hwf.ordered, hwf.hashes, fun a ha => ?_⟩
  rw [List.mem_singleton.mp (show a ∈ [0] from ha)]
  exact Nat.succ_pos 0

theorem oneCounter_holds {slots : List ℕ} (hpos : 0 < slots.length) :
    Holds (oneCounter slots) (crc32 [104]) 0 slots := by
  constructor
  · exact lookup_eq_some (fun b => ((oneCounter slots).node b).hash) (oneCounter slots).tree 0
      (oneCounter_ok hpos).ordered (oneCounter_ok hpos).hashes (List.mem_singleton_self _)
  · rfl

theorem own_of_exact {ps : Set Process} (h : Exact ps) : Set.InjOn Process.slot ps := by
  intro p hp q hq hslot
  by_contra hpq
  have hpos : 0 < (List.replicate (p.slot + 1) 0).length := by simp
  have hold := oneCounter_holds hpos
  have hread : (List.replicate (p.slot + 1) 0)[p.slot]? = some 0 := by simp
  have hby : RunBy ps (overlap p q (crc32 [104])) := by
    simp only [RunBy, overlap, List.forall_mem_cons, Event.process, Option.some.injEq,
      forall_eq', hp, hq, List.not_mem_nil, false_imp_iff, implies_true, and_self]
  obtain ⟨hstore, hcount⟩ := overlap_counted metricList hpq hslot hold hread
  have hget := h metricList _ (crc32 [104]) _ (overlap p q (crc32 [104])) (oneCounter_ok hpos)
    (find_counter.mpr ⟨0, hold⟩) hby
  have hlast := holds_set (holds_set hold 0 ((List.replicate (p.slot + 1) 0).set p.slot 1)) 0
    ((List.replicate (p.slot + 1) 0).set p.slot 1)
  rw [if_pos rfl] at hlast
  have hsum := sum_set (List.replicate (p.slot + 1) 0) 1 hread
  rw [hstore, hcount, metricsGet_eq, find_counter.mpr ⟨0, hlast⟩] at hget
  simp only [getMetric, getCounter_eq, Got.counter.injEq] at hget
  rw [List.sum_replicate_nat, Nat.mul_zero] at hget hsum
  omega

/-- No increment is lost, whatever the order of the steps, exactly when no two of the processes
have the same slot. -/
theorem counters_exact_iff (ps : Set Process) : Exact ps ↔ Set.InjOn Process.slot ps :=
  ⟨own_of_exact, exact_of_own⟩

/-! ### Reads among the increments -/

/-- No slot became smaller. -/
structure Grown (slots slots' : List ℕ) : Prop where
  length : slots'.length = slots.length
  le : ∀ i, slots.getD i 0 ≤ slots'.getD i 0

theorem Grown.refl (slots : List ℕ) : Grown slots slots := ⟨rfl, fun _ => Nat.le_refl _⟩

theorem Grown.trans {xs ys zs : List ℕ} (h : Grown xs ys) (h' : Grown ys zs) : Grown xs zs :=
  ⟨h'.length.trans h.length, fun i => Nat.le_trans (h.le i) (h'.le i)⟩

theorem sum_take_succ (slots : List ℕ) (i : ℕ) :
    (slots.take (i + 1)).sum = (slots.take i).sum + slots.getD i 0 := by
  rw [List.take_add_one, List.sum_append]
  cases h : slots[i]? with
  | none => simp [List.getD, h]
  | some c => simp [List.getD, h]

theorem Grown.take {slots slots' : List ℕ} (h : Grown slots slots') (i : ℕ) :
    (slots.take i).sum ≤ (slots'.take i).sum := by
  induction i with
  | zero => simp
  | succ i ih =>
    have hi := h.le i
    rw [sum_take_succ, sum_take_succ]
    omega

theorem SlotsStep.grown {slots slots' : List ℕ} {k : ℕ} (h : SlotsStep slots slots' k)
    (hfit : slots.sum + k < 2 ^ 64) : Grown slots slots' := by
  cases h with
  | same => exact Grown.refl slots
  | add j c _ read =>
    have hzero := sum_set slots 0 read
    have hv : (c + k) % 2 ^ 64 = c + k := Nat.mod_eq_of_lt (by omega)
    rw [hv]
    refine ⟨List.length_set, fun i => ?_⟩
    by_cases hij : j = i
    · subst hij
      obtain ⟨hj, hc⟩ := List.getElem?_eq_some_iff.mp read
      simp [List.getD, hj, hc]
    · simp [List.getD, List.getElem?_set_ne hij]

/-- Of a read that began at `first`: what was added up lies between the sums of these slots
then and now. -/
structure Reading (first slots : List ℕ) (p : Process) (mid a : ℕ) (s : Cycle) : Prop where
  holds : Holds s.store mid a slots
  grown : Grown first slots
  fits : slots.sum < 2 ^ 64
  between : ∀ mid' a' i val, s.call p = .summing mid' a' i val → a' = a ∧
    (first.take i).sum ≤ val ∧ val ≤ (slots.take i).sum

theorem sum_take_le (slots : List ℕ) (i : ℕ) : (slots.take i).sum ≤ slots.sum := by
  have h := congrArg List.sum (List.take_append_drop i slots)
  rw [List.sum_append] at h
  omega

/-- A process is inside of a read since before the step, or it began or went on with it. -/
theorem summing_after (rb : MetricOps) (s : Cycle) (e : Event) {p : Process} {mid a i val : ℕ}
    (h : (onEvent rb s e).1.call p = .summing mid a i val) :
    s.call p = .summing mid a i val ∨ e = .get p mid ∨
      ∃ j sum c, s.call p = .summing mid a j sum ∧ i = j + 1 ∧
        ((counterSlots s.store a).bind fun slots => slots[j]?) = some c ∧
        val = (sum + c) % 2 ^ 64 := by
  cases e with
  | define name type bins => exact Or.inl h
  | record q k n now alloc =>
    simp only [onEvent] at h
    split at h
    · exact Or.inl h
    · exact Or.inl h
  | load q k n =>
    simp only [onEvent] at h
    split at h
    · simp only [incrementLoad] at h
      repeat' split at h
      all_goals first
        | exact Or.inl h
        | skip
      by_cases hpq : p = q
      · rw [hpq, setCall_own] at h
        exact absurd h (by simp)
      · rw [setCall_other _ _ hpq] at h
        exact Or.inl h
    · exact Or.inl h
  | write q =>
    simp only [onEvent] at h
    split at h
    · simp only [incrementWrite] at h
      split at h
      · exact Or.inl h
      · by_cases hpq : p = q
        · subst hpq
          simp only [Function.update_self, reduceCtorEq] at h
        · simp only [Function.update_of_ne hpq] at h
          exact Or.inl h
    · exact Or.inl h
  | get q k =>
    simp only [onEvent] at h
    split at h
    · simp only [getCounterFirst] at h
      repeat' split at h
      all_goals first
        | exact Or.inl h
        | skip
      by_cases hpq : p = q
      · subst hpq
        rw [setCall_own] at h
        injection h with hmid
        exact Or.inr (Or.inl (by rw [hmid]))
      · rw [setCall_other _ _ hpq] at h
        exact Or.inl h
    · exact Or.inl h
  | next q =>
    simp only [onEvent] at h
    split at h
    · rename_i mid' a' j sum hcall
      simp only [getCounterAt] at h
      split at h
      · rename_i c hread
        by_cases hpq : p = q
        · subst hpq
          rw [setCall_own] at h
          injection h with hmid ha hi hval
          subst hmid
          subst ha
          exact Or.inr (Or.inr ⟨j, sum, c, hcall, hi.symm, hread, hval.symm⟩)
        · rw [setCall_other _ _ hpq] at h
          exact Or.inl h
      · by_cases hpq : p = q
        · rw [hpq, setCall_own] at h
          exact absurd h (by simp)
        · rw [setCall_other _ _ hpq] at h
          exact Or.inl h
    · exact Or.inl h

theorem read_step {ps : Set Process} (rb : MetricOps) {s : Cycle} (hs : CallsOk ps s)
    (e : Event) (he : ∀ p, e.process = some p → p ∈ ps) {first slots : List ℕ} {p : Process}
    {mid a : ℕ} (hr : Reading first slots p mid a s) (hnew : ∀ k, e ≠ .get p k)
    (hfit : slots.sum + (onEvent rb s e).2.count mid < 2 ^ 64) :
    ∃ slots', Reading first slots' p mid a (onEvent rb s e).1 ∧
      slots'.sum = slots.sum + (onEvent rb s e).2.count mid := by
  obtain ⟨slots', hold, hstep⟩ := slots_step rb hs e he hr.holds
  have hsum := hstep.sum hfit
  have hgrown := hstep.grown hfit
  refine ⟨slots', ⟨hold, hr.grown.trans hgrown, by omega, ?_⟩, hsum⟩
  intro mid' a' i val hcall
  rcases summing_after rb s e hcall with hsame | hget | ⟨j, sum, c, hbefore, hi, hread, hval⟩
  · obtain ⟨ha, hlow, hup⟩ := hr.between mid' a' i val hsame
    exact ⟨ha, hlow, Nat.le_trans hup (hgrown.take i)⟩
  · exact absurd hget (hnew mid')
  · obtain ⟨ha, hlow, hup⟩ := hr.between mid' a' j sum hbefore
    subst ha
    rw [hr.holds.counter, Option.bind_some] at hread
    have hc : slots.getD j 0 = c := by simp [List.getD, hread]
    have hnext := sum_take_succ slots j
    have hfirst := sum_take_succ first j
    have hle := hr.grown.le j
    have hall := sum_take_le slots (j + 1)
    have htake := hgrown.take (j + 1)
    have hfits := hr.fits
    have hnowrap : (sum + c) % 2 ^ 64 = sum + c := Nat.mod_eq_of_lt (by omega)
    rw [hi, hval, hnowrap]
    exact ⟨rfl, by omega, by omega⟩

theorem read_run {ps : Set Process} (hown : Set.InjOn Process.slot ps) (rb : MetricOps)
    {first : List ℕ} {p : Process} {mid a : ℕ} (events : List Event) :
    ∀ {s : Cycle} {slots : List ℕ}, CallsOk ps s → Reading first slots p mid a s →
      RunBy ps events → (∀ k, Event.get p k ∉ events) →
      slots.sum + counted mid (Run.exec (onEvent rb) s events).2 < 2 ^ 64 →
      CallsOk ps (Run.exec (onEvent rb) s events).1 ∧
        ∃ slots', Reading first slots' p mid a (Run.exec (onEvent rb) s events).1 ∧
          slots'.sum = slots.sum + counted mid (Run.exec (onEvent rb) s events).2 := by
  induction events with
  | nil =>
    intro s slots hs hr _ _ _
    exact ⟨hs, slots, hr, rfl⟩
  | cons e events ih =>
    intro s slots hs hr hby hnew hfit
    have he := hby e (List.mem_cons_self ..)
    rw [Run.exec_cons, counted_cons] at hfit ⊢
    obtain ⟨next, hnext, hsum⟩ := read_step rb hs e he hr
      (fun k heq => hnew k (heq ▸ List.mem_cons_self ..)) (by omega)
    obtain ⟨hlast, slots', hr', hsum'⟩ := ih (calls_step hown rb hs e he) hnext
      (fun x hx => hby x (List.mem_cons_of_mem _ hx))
      (fun k hk => hnew k (List.mem_cons_of_mem _ hk)) (by omega)
    exact ⟨hlast, slots', hr', by omega⟩

theorem RunBy.append {ps : Set Process} {xs ys : List Event} (h : RunBy ps (xs ++ ys)) :
    RunBy ps xs ∧ RunBy ps ys :=
  ⟨fun e he => h e (List.mem_append_left _ he), fun e he => h e (List.mem_append_right _ he)⟩

theorem reading_first (rb : MetricOps) {s : Cycle} {p : Process} {mid a : ℕ} {slots : List ℕ}
    (hidle : s.call p = .idle) (hold : Holds s.store mid a slots) (hfits : slots.sum < 2 ^ 64) :
    Reading slots slots p mid a (onEvent rb s (.get p mid)).1 := by
  have hrun : onEvent rb s (.get p mid) = (s.setCall p (.summing mid a 0 0), .nothing) := by
    simp only [onEvent, hidle, getCounterFirst, hold.get, hold.counter]
  rw [hrun]
  refine ⟨hold, Grown.refl slots, hfits, ?_⟩
  intro mid' a' i val hcall
  rw [setCall_own] at hcall
  injection hcall with _ ha hi hval
  subst hi
  subst hval
  exact ⟨ha.symm, by simp, by simp⟩

/-- The loop ends behind the last slot. -/
theorem next_value (rb : MetricOps) {s : Cycle} {p : Process} {val : ℕ}
    (h : (onEvent rb s (.next p)).2 = .value val) :
    ∃ mid a i, s.call p = .summing mid a i val ∧
      ((counterSlots s.store a).bind fun slots => slots[i]?) = none := by
  simp only [onEvent] at h
  split at h
  · rename_i mid a i sum hcall
    simp only [getCounterAt] at h
    split at h
    · exact absurd h (by simp)
    · rename_i hread
      injection h with hval
      subst hval
      exact ⟨mid, a, i, hcall, hread⟩
  · exact absurd h (by simp)

/-- While other processes go on counting, a read gives no less than what was counted when it
began and no more than what is counted when it ends. -/
theorem counter_read_between (ps : Set Process) (hown : Set.InjOn Process.slot ps) (rb : MetricOps)
    (s : Store) (hs : StoreOk s) (mid : ℕ) (slots : List ℕ)
    (hfind : find s mid = some (.counter slots)) (p : Process) (before after : List Event)
    (hby : RunBy ps (before ++ .get p mid :: after))
    (hidle : (Run.exec (onEvent rb) (idle s) before).1.call p = .idle)
    (hone : ∀ k, Event.get p k ∉ after) (val : ℕ)
    (hval : (onEvent rb (Run.exec (onEvent rb) (idle s) (before ++ .get p mid :: after)).1
      (.next p)).2 = .value val)
    (hfit : slots.sum +
      counted mid (Run.exec (onEvent rb) (idle s) (before ++ .get p mid :: after)).2 < 2 ^ 64) :
    slots.sum + counted mid (Run.exec (onEvent rb) (idle s) before).2 ≤ val ∧
      val ≤ slots.sum +
        counted mid (Run.exec (onEvent rb) (idle s) (before ++ .get p mid :: after)).2 := by
  obtain ⟨a, hold⟩ := find_counter.mp hfind
  obtain ⟨hbyBefore, hbyAfter⟩ := hby.append
  rw [Run.exec_append, Run.exec_cons] at hval
  simp only [Run.exec_append, Run.exec_cons, counted_append, counted_cons] at hfit ⊢
  obtain ⟨hstart, first, hfirst, _, hsum⟩ :=
    total_run hown rb before (idle_ok ps hs) hold hbyBefore
  have hbegun := hsum (by omega)
  have hget := hbyAfter _ (List.mem_cons_self ..)
  have hbegin := reading_first rb hidle hfirst (by omega)
  have hquiet : (onEvent rb (Run.exec (onEvent rb) (idle s) before).1 (.get p mid)).2.count mid =
      0 := by
    simp only [onEvent, hidle, getCounterFirst, hfirst.get, hfirst.counter]
    rfl
  rw [hquiet, Nat.zero_add] at hfit ⊢
  obtain ⟨_, last, hread, hlast⟩ := read_run hown rb after (calls_step hown rb hstart _ hget)
    hbegin (fun e he => hbyAfter e (List.mem_cons_of_mem _ he)) hone (by omega)
  obtain ⟨mid', a', i, hcall, hend⟩ := next_value rb hval
  obtain ⟨ha, hlow, hup⟩ := hread.between mid' a' i val hcall
  rw [ha, hread.holds.counter, Option.bind_some, List.getElem?_eq_none_iff] at hend
  have hfull := hread.grown.length
  rw [List.take_of_length_le (by omega)] at hlow hup
  omega

def workerZero : Process := ⟨1, some 0⟩

def workerOne : Process := ⟨2, some 1⟩

theorem workers_own : Set.InjOn Process.slot {workerZero, workerOne} := by
  intro p hp q hq hslot
  rcases hp with rfl | rfl <;> rcases hq with rfl | rfl <;>
    first
      | rfl
      | exact absurd hslot (by decide)

/-- Worker 0 reads slot 0, then worker 1 adds 5 to slot 1, which is read last. -/
def readAndCount : List Event :=
  [.get workerZero (crc32 [104]), .next workerZero, .load workerOne (crc32 [104]) 5,
    .write workerOne, .next workerZero]

theorem counter_read_between_workers :
    (onEvent metricList (Run.exec (onEvent metricList) (idle (oneCounter [1, 2])) readAndCount).1
        (.next workerZero)).2 = .value 8 ∧ [1, 2].sum + 0 ≤ 8 ∧ 8 ≤ [1, 2].sum + 5 :=
  ⟨by decide, counter_read_between {workerZero, workerOne} workers_own metricList
    (oneCounter [1, 2]) (oneCounter_ok (by simp)) (crc32 [104]) [1, 2]
    (find_counter.mpr ⟨0, oneCounter_holds (by simp)⟩) workerZero []
    [.next workerZero, .load workerOne (crc32 [104]) 5, .write workerOne, .next workerZero]
    (by simp [RunBy, Event.process]) rfl (by simp) 8 (by decide) (by decide)⟩

end NgxWasm.Metrics.Counters
