import Mathlib
import NgxWasm.Lib.Run

/-!
# Arguments and results of calls

`ngx_wavm_func_call`, `ngx_wavm_val_vec_set`, `ngx_wavm_instance_call_func_va` and
`_call_func_vec` (ngx_wavm.c 1092-1260) and `ngx_wasm_valvec2wasmtime`, `ngx_wasmtime_valvec2wasm` and `ngx_wasmtime_call`
(ngx_wrt_wasmtime.c 566-720). Each function of an instance has one vector of arguments and one
of results, which all its calls use; they are not initialised when the instance is created. A
value is its bits, and what an assertion marks as not yet implemented is skipped.
-/

namespace NgxWasm.Wavm.CallValues

open NgxWasm.Lib

/-- `wasm_valkind_t`, with one kind for the references. -/
inductive ValKind where
  | i32
  | i64
  | f32
  | f64
  | ref
  deriving Repr, DecidableEq

def ValKind.width : ValKind → ℕ
  | .i32 | .f32 => 32
  | .i64 | .f64 | .ref => 64

structure Val where
  kind : ValKind
  bits : ℕ
  deriving Repr, DecidableEq

/-- A cell is `none` until it is written. -/
abbrev Cells := List (Option Val)

structure FuncType where
  params : List ValKind
  results : List ValKind
  deriving Repr, DecidableEq

/-- `va` are the variadic arguments; none is taken for a reference. -/
def valVecSet : Cells → List ValKind → List ℕ → Cells
  | cells, [], _ => cells
  | [], _ :: _, _ => []
  | cell :: cells, .ref :: kinds, va => cell :: valVecSet cells kinds va
  | _ :: cells, kind :: kinds, va =>
    (va.head?.map fun b => ⟨kind, b % 2 ^ kind.width⟩) :: valVecSet cells kinds va.tail

/-- `NGX_WRT_WASMTIME_STACK_NARGS`. -/
def stackNargs : ℕ := 10

/-- Up to ten values are on the stack, more are allocated as zeroes, which is `WASMTIME_I32`. -/
def freshVals (n : ℕ) : Cells :=
  if n ≤ stackNargs then List.replicate n none else List.replicate n (some ⟨.i32, 0⟩)

def toWasmtime (out cell : Option Val) : Option Val :=
  match cell with
  | some ⟨.i32, bits⟩ => some ⟨.i32, bits⟩
  | some ⟨.i64, bits⟩ => some ⟨.i64, bits⟩
  | _ => out

def valvec2wasmtime (out vec : Cells) : Cells := List.zipWith toWasmtime out vec

def toWasm (out : Option Val) (v : Val) : Option Val :=
  match v.kind with
  | .ref => out
  | _ => some v

def wasmtimeValvec2wasm (out : Cells) (vec : List Val) : Cells := List.zipWith toWasm out vec

/-- `func->args` and `func->rets`. -/
structure FuncVals where
  args : Cells
  rets : Cells

/-- `trapped` is `NGX_WAVM_INSTANCE_TRAPPED`. -/
structure Instance where
  func : ℕ → FuncVals
  frames : List ℕ
  trapped : Bool

inductive Event where
  | call (f : ℕ) (va : List ℕ)
  /-- A null pointer for the arguments is an empty vector. -/
  | callVec (f : ℕ) (args : List Val)
  | leave (results : List Val)
  | trap
  deriving Repr, DecidableEq

/-- What the guest is given, and what the caller finds in `rets`. -/
inductive Answer where
  | nothing
  | badArgs
  | aborted
  | entered (f : ℕ) (args : Cells)
  | returned (f : ℕ) (rets : Cells)
  deriving Repr, DecidableEq

def Instance.setArgs (s : Instance) (f : ℕ) (args : Cells) : Instance :=
  { s with func := Function.update s.func f { s.func f with args } }

def Instance.setRets (s : Instance) (f : ℕ) (rets : Cells) : Instance :=
  { s with func := Function.update s.func f { s.func f with rets } }

/-- The guest is not entered once a call into the instance has trapped. -/
def funcCall (s : Instance) (f : ℕ) : Instance × Answer :=
  if s.trapped then (s, .aborted)
  else
    ({ s with frames := f :: s.frames },
      .entered f (valvec2wasmtime (freshVals (s.func f).args.length) (s.func f).args))

/-- The runtime gives back results of the types of the function. -/
def step (types : ℕ → FuncType) (s : Instance) : Event → Instance × Answer
  | .call f va => funcCall (s.setArgs f (valVecSet (s.func f).args (types f).params va)) f
  | .callVec f args =>
    if args = [] then funcCall s f
    else if args.length = (s.func f).args.length then funcCall (s.setArgs f (args.map some)) f
    else (s, .badArgs)
  | .leave results =>
    match s.frames with
    | [] => (s, .nothing)
    | f :: rest =>
      if results.map (fun v => v.kind) = (types f).results then
        let rets := wasmtimeValvec2wasm (s.func f).rets results
        ({ s.setRets f rets with frames := rest }, .returned f rets)
      else (s, .nothing)
  | .trap =>
    match s.frames with
    | [] => (s, .nothing)
    | _ :: rest => ({ s with frames := rest, trapped := true }, .aborted)

/-- As `ngx_wavm_instance_create` leaves it. -/
def initial (types : ℕ → FuncType) : Instance where
  func := fun f => ⟨List.replicate (types f).params.length none,
    List.replicate (types f).results.length none⟩
  frames := []
  trapped := false

def run (types : ℕ → FuncType) (events : List Event) : Instance × List Answer :=
  Run.exec (step types) (initial types) events

theorem run_snoc (types : ℕ → FuncType) (events : List Event) (e : Event) :
    run types (events ++ [e]) = ((step types (run types events).1 e).1,
      (run types events).2 ++ [(step types (run types events).1 e).2]) := by
  rw [run, Run.exec_append]
  rfl

/-! ### Vectors of values -/

/-- The kinds that get to the guest. -/
def ValKind.Carried (k : ValKind) : Prop := k = .i32 ∨ k = .i64

theorem toWasmtime_carried {out cell : Option Val} (hout : ∀ v, out = some v → v.kind.Carried)
    {v : Val} (h : toWasmtime out cell = some v) : v.kind.Carried := by
  match cell with
  | none => exact hout v h
  | some ⟨.i32, bits⟩ =>
    rw [← Option.some.inj h]
    exact Or.inl rfl
  | some ⟨.i64, bits⟩ =>
    rw [← Option.some.inj h]
    exact Or.inr rfl
  | some ⟨.f32, bits⟩ => exact hout v h
  | some ⟨.f64, bits⟩ => exact hout v h
  | some ⟨.ref, bits⟩ => exact hout v h

theorem toWasmtime_self {v : Val} (h : v.kind.Carried) (out : Option Val) :
    toWasmtime out (some v) = some v := by
  obtain ⟨kind, bits⟩ := v
  rcases h with hk | hk <;> simp only at hk <;> subst hk <;> rfl

theorem freshVals_carried (n : ℕ) : ∀ c ∈ freshVals n, ∀ v, c = some v → v.kind.Carried := by
  intro c hc v hv
  rw [freshVals] at hc
  split at hc
  · rw [List.eq_of_mem_replicate hc] at hv
    exact absurd hv (by simp)
  · rw [List.eq_of_mem_replicate hc] at hv
    rw [← Option.some.inj hv]
    exact Or.inl rfl

theorem freshVals_length (n : ℕ) : (freshVals n).length = n := by
  rw [freshVals]
  split <;> exact List.length_replicate

theorem valvec2wasmtime_carried (vec : Cells) : ∀ (out : Cells),
    (∀ c ∈ out, ∀ v, c = some v → v.kind.Carried) →
      ∀ c ∈ valvec2wasmtime out vec, ∀ v, c = some v → v.kind.Carried := by
  induction vec with
  | nil =>
    intro out _ c hc
    simp [valvec2wasmtime] at hc
  | cons cell vec ih =>
    intro out hout c hc v hv
    cases out with
    | nil => simp [valvec2wasmtime] at hc
    | cons o out =>
      rcases List.mem_cons.mp hc with hc | hc
      · exact toWasmtime_carried (hout o (List.mem_cons_self ..)) (hc ▸ hv)
      · exact ih out (fun x hx => hout x (List.mem_cons_of_mem _ hx)) c hc v hv

theorem valvec2wasmtime_self (vals : List Val) : ∀ (out : Cells), out.length = vals.length →
    (∀ v ∈ vals, v.kind.Carried) → valvec2wasmtime out (vals.map some) = vals.map some := by
  induction vals with
  | nil =>
    intro out _ _
    simp [valvec2wasmtime]
  | cons v vals ih =>
    intro out hlen hvals
    cases out with
    | nil => simp at hlen
    | cons o out =>
      have hrest := ih out (by simpa using hlen) fun x hx => hvals x (List.mem_cons_of_mem _ hx)
      rw [valvec2wasmtime] at hrest ⊢
      rw [List.map_cons, List.zipWith_cons_cons, hrest,
        toWasmtime_self (hvals v (List.mem_cons_self ..))]

/-- What the guest gets is what it was to get exactly where only integers were. -/
theorem received_iff (n : ℕ) (cells : Cells) (vals : List Val) (hn : vals.length = n)
    (hcells : (∀ v ∈ vals, v.kind.Carried) → cells = vals.map some) :
    valvec2wasmtime (freshVals n) cells = vals.map some ↔ ∀ v ∈ vals, v.kind.Carried := by
  constructor
  · intro heq v hv
    have hmem : some v ∈ valvec2wasmtime (freshVals n) cells := by
      rw [heq]
      exact List.mem_map_of_mem hv
    exact valvec2wasmtime_carried cells _ (freshVals_carried n) _ hmem v rfl
  · intro hvals
    rw [hcells hvals]
    exact valvec2wasmtime_self vals _ (by rw [freshVals_length, hn]) hvals

/-- The arguments of a call by their types. -/
def supplied (kinds : List ValKind) (va : List ℕ) : List Val :=
  List.zipWith (fun k b => ⟨k, b % 2 ^ k.width⟩) kinds va

theorem valVecSet_length (kinds : List ValKind) : ∀ (cells : Cells) (va : List ℕ),
    cells.length = kinds.length → (valVecSet cells kinds va).length = kinds.length := by
  induction kinds with
  | nil =>
    intro cells va h
    simpa [valVecSet] using h
  | cons k kinds ih =>
    intro cells va h
    cases cells with
    | nil => simp at h
    | cons c cells =>
      have hrest : cells.length = kinds.length := by simpa using h
      cases k <;> simp only [valVecSet, List.length_cons, ih cells _ hrest]

theorem valVecSet_supplied (kinds : List ValKind) : ∀ (cells : Cells) (va : List ℕ),
    cells.length = kinds.length → va.length = kinds.length → .ref ∉ kinds →
      valVecSet cells kinds va = (supplied kinds va).map some := by
  induction kinds with
  | nil =>
    intro cells va h _ _
    have hnil : cells = [] := List.length_eq_zero_iff.mp (by simpa using h)
    rw [hnil]
    rfl
  | cons k kinds ih =>
    intro cells va h hva href
    cases cells with
    | nil => simp at h
    | cons c cells =>
      cases va with
      | nil => simp at hva
      | cons b va =>
        have hk : k ≠ .ref := fun heq => href (heq ▸ List.mem_cons_self ..)
        have hrest := ih cells va (by simpa using h) (by simpa using hva)
          fun hmem => href (List.mem_cons_of_mem _ hmem)
        have hset : valVecSet (c :: cells) (k :: kinds) (b :: va) =
            some ⟨k, b % 2 ^ k.width⟩ :: valVecSet cells kinds va := by
          cases k with
          | ref => exact absurd rfl hk
          | _ => rfl
        rw [hset, hrest]
        rfl

theorem supplied_length {kinds : List ValKind} {va : List ℕ} (h : va.length = kinds.length) :
    (supplied kinds va).length = kinds.length := by
  rw [supplied, List.length_zipWith, h, Nat.min_self]

theorem supplied_kinds (kinds : List ValKind) : ∀ {va : List ℕ}, va.length = kinds.length →
    (supplied kinds va).map (fun v => v.kind) = kinds := by
  induction kinds with
  | nil =>
    intro va _
    rfl
  | cons k kinds ih =>
    intro va h
    cases va with
    | nil => simp at h
    | cons b va =>
      have hrest : (supplied kinds va).map (fun v => v.kind) = kinds := ih (by simpa using h)
      rw [supplied, List.zipWith_cons_cons, List.map_cons]
      exact congrArg _ hrest

/-- Without references every cell is written. -/
theorem valVecSet_congr (kinds : List ValKind) : ∀ (cells cells' : Cells) (va : List ℕ),
    cells.length = kinds.length → cells'.length = kinds.length → .ref ∉ kinds →
      valVecSet cells kinds va = valVecSet cells' kinds va := by
  induction kinds with
  | nil =>
    intro cells cells' va h h' _
    have hnil : cells = [] := List.length_eq_zero_iff.mp (by simpa using h)
    have hnil' : cells' = [] := List.length_eq_zero_iff.mp (by simpa using h')
    rw [hnil, hnil']
  | cons k kinds ih =>
    intro cells cells' va h h' href
    cases cells with
    | nil => simp at h
    | cons c cells =>
      cases cells' with
      | nil => simp at h'
      | cons c' cells' =>
        have hk : k ≠ .ref := fun heq => href (heq ▸ List.mem_cons_self ..)
        have hrest := ih cells cells' va.tail (by simpa using h) (by simpa using h')
          fun hmem => href (List.mem_cons_of_mem _ hmem)
        cases k with
        | ref => exact absurd rfl hk
        | i32 | i64 | f32 | f64 => simp only [valVecSet, hrest]

theorem toWasm_kind {out : Option Val} (hout : ∀ v, out = some v → v.kind ≠ .ref) (v : Val) :
    ∀ x, toWasm out v = some x → x.kind ≠ .ref := by
  intro x hx
  rw [toWasm] at hx
  split at hx
  · exact hout x hx
  · rename_i hk
    rw [← Option.some.inj hx]
    exact hk

theorem wasmtimeValvec2wasm_kind (results : List Val) : ∀ (out : Cells),
    (∀ c ∈ out, ∀ v, c = some v → v.kind ≠ .ref) →
      ∀ c ∈ wasmtimeValvec2wasm out results, ∀ v, c = some v → v.kind ≠ .ref := by
  induction results with
  | nil =>
    intro out _ c hc
    simp [wasmtimeValvec2wasm] at hc
  | cons r results ih =>
    intro out hout c hc v hv
    cases out with
    | nil => simp [wasmtimeValvec2wasm] at hc
    | cons o out =>
      rcases List.mem_cons.mp hc with hc | hc
      · exact toWasm_kind (hout o (List.mem_cons_self ..)) r v (hc ▸ hv)
      · exact ih out (fun x hx => hout x (List.mem_cons_of_mem _ hx)) c hc v hv

theorem wasmtimeValvec2wasm_self (results : List Val) : ∀ (out : Cells),
    out.length = results.length → (∀ v ∈ results, v.kind ≠ .ref) →
      wasmtimeValvec2wasm out results = results.map some := by
  induction results with
  | nil =>
    intro out _ _
    simp [wasmtimeValvec2wasm]
  | cons r results ih =>
    intro out hlen hkinds
    cases out with
    | nil => simp at hlen
    | cons o out =>
      have hrest := ih out (by simpa using hlen) fun v hv => hkinds v (List.mem_cons_of_mem _ hv)
      have hr : toWasm o r = some r := by
        have hk := hkinds r (List.mem_cons_self ..)
        rw [toWasm]
        split
        · rename_i heq
          exact absurd heq hk
        · rfl
      rw [wasmtimeValvec2wasm] at hrest ⊢
      rw [List.zipWith_cons_cons, hr, hrest]
      rfl

/-! ### Runs -/

/-- The arguments that an event leaves in the vector of a function. -/
def given (types : ℕ → FuncType) (f : ℕ) : Event → Option Cells
  | .call g va =>
    if g = f then
      some (valVecSet (List.replicate (types f).params.length none) (types f).params va)
    else none
  | .callVec g args =>
    if g = f ∧ args ≠ [] ∧ args.length = (types f).params.length then some (args.map some)
    else none
  | _ => none

/-- Those of the last call with arguments. -/
def lastGiven (types : ℕ → FuncType) (f : ℕ) (events : List Event) : Cells :=
  (events.reverse.findSome? (given types f)).getD (List.replicate (types f).params.length none)

theorem lastGiven_snoc (types : ℕ → FuncType) (f : ℕ) (events : List Event) (e : Event) :
    lastGiven types f (events ++ [e]) = (given types f e).getD (lastGiven types f events) := by
  rw [lastGiven, List.reverse_append, List.reverse_singleton, List.singleton_append,
    List.findSome?_cons]
  cases given types f e with
  | none => rfl
  | some cells => rfl

/-- A guest of the instance has trapped. -/
def HasTrapped (types : ℕ → FuncType) (events : List Event) : Prop :=
  ∃ before after, events = before ++ .trap :: after ∧ (run types before).1.frames ≠ []

structure ValuesOk (types : ℕ → FuncType) (events : List Event) (s : Instance) : Prop where
  argsLength : ∀ f, (s.func f).args.length = (types f).params.length
  retsLength : ∀ f, (s.func f).rets.length = (types f).results.length
  args : ∀ f, .ref ∉ (types f).params → (s.func f).args = lastGiven types f events
  rets : ∀ f, ∀ c ∈ (s.func f).rets, ∀ v, c = some v → v.kind ≠ .ref

theorem initial_ok (types : ℕ → FuncType) : ValuesOk types [] (initial types) where
  argsLength := fun _ => List.length_replicate
  retsLength := fun _ => List.length_replicate
  args := fun _ _ => rfl
  rets := fun f c hc v hv => by
    rw [List.eq_of_mem_replicate hc] at hv
    exact absurd hv (by simp)

/-- A step that leaves the vectors alone, and gives no arguments. -/
theorem ValuesOk.same {types : ℕ → FuncType} {events : List Event} {s s' : Instance}
    (h : ValuesOk types events s) (hfunc : s'.func = s.func) (e : Event)
    (hgiven : ∀ f, given types f e = none) : ValuesOk types (events ++ [e]) s' := by
  refine ⟨?_, ?_, ?_, ?_⟩
  · rw [hfunc]
    exact h.argsLength
  · rw [hfunc]
    exact h.retsLength
  · intro f href
    rw [hfunc, lastGiven_snoc, hgiven f]
    exact h.args f href
  · rw [hfunc]
    exact h.rets

theorem funcCall_func (s : Instance) (f : ℕ) : (funcCall s f).1.func = s.func := by
  rw [funcCall]
  split <;> rfl

theorem ValuesOk.setArgs {types : ℕ → FuncType} {events : List Event} {s : Instance}
    (h : ValuesOk types events s) (g : ℕ) (args : Cells)
    (hlen : args.length = (types g).params.length) (e : Event)
    (hother : ∀ f, f ≠ g → given types f e = none)
    (hown : .ref ∉ (types g).params → given types g e = some args) :
    ValuesOk types (events ++ [e]) (funcCall (s.setArgs g args) g).1 := by
  have hfunc : (funcCall (s.setArgs g args) g).1.func = (s.setArgs g args).func :=
    funcCall_func ..
  refine ⟨?_, ?_, ?_, ?_⟩
  · intro f
    rw [hfunc]
    by_cases hf : f = g
    · subst hf
      simpa only [Instance.setArgs, Function.update_self] using hlen
    · simpa only [Instance.setArgs, Function.update_of_ne hf] using h.argsLength f
  · intro f
    rw [hfunc]
    by_cases hf : f = g
    · subst hf
      simpa only [Instance.setArgs, Function.update_self] using h.retsLength f
    · simpa only [Instance.setArgs, Function.update_of_ne hf] using h.retsLength f
  · intro f href
    rw [hfunc, lastGiven_snoc]
    by_cases hf : f = g
    · subst hf
      rw [hown href]
      simp only [Instance.setArgs, Function.update_self, Option.getD_some]
    · rw [hother f hf, Option.getD_none]
      simpa only [Instance.setArgs, Function.update_of_ne hf] using h.args f href
  · intro f
    rw [hfunc]
    by_cases hf : f = g
    · subst hf
      simpa only [Instance.setArgs, Function.update_self] using h.rets f
    · simpa only [Instance.setArgs, Function.update_of_ne hf] using h.rets f

theorem ValuesOk.setRets {types : ℕ → FuncType} {events : List Event} {s : Instance}
    (h : ValuesOk types events s) (g : ℕ) {results : List Val}
    (hkinds : results.map (fun v => v.kind) = (types g).results) (e : Event) (frames : List ℕ)
    (hgiven : ∀ f, given types f e = none) :
    ValuesOk types (events ++ [e])
      { s.setRets g (wasmtimeValvec2wasm (s.func g).rets results) with frames := frames } := by
  have hlen : results.length = (types g).results.length := by
    rw [← hkinds, List.length_map]
  refine ⟨?_, ?_, ?_, ?_⟩
  · intro f
    by_cases hf : f = g
    · subst hf
      simpa only [Instance.setRets, Function.update_self] using h.argsLength f
    · simpa only [Instance.setRets, Function.update_of_ne hf] using h.argsLength f
  · intro f
    by_cases hf : f = g
    · subst hf
      simp only [Instance.setRets, Function.update_self, wasmtimeValvec2wasm,
        List.length_zipWith, h.retsLength f, hlen, Nat.min_self]
    · simpa only [Instance.setRets, Function.update_of_ne hf] using h.retsLength f
  · intro f href
    rw [lastGiven_snoc, hgiven f, Option.getD_none]
    by_cases hf : f = g
    · subst hf
      simpa only [Instance.setRets, Function.update_self] using h.args f href
    · simpa only [Instance.setRets, Function.update_of_ne hf] using h.args f href
  · intro f
    by_cases hf : f = g
    · subst hf
      simp only [Instance.setRets, Function.update_self]
      exact wasmtimeValvec2wasm_kind results _ (h.rets f)
    · simpa only [Instance.setRets, Function.update_of_ne hf] using h.rets f

theorem values_step {types : ℕ → FuncType} {events : List Event} {s : Instance}
    (h : ValuesOk types events s) (e : Event) :
    ValuesOk types (events ++ [e]) (step types s e).1 := by
  cases e with
  | call g va =>
    have hlen := h.argsLength g
    refine h.setArgs g _ (valVecSet_length _ _ _ hlen) _ ?_ ?_
    · intro f hf
      exact if_neg (Ne.symm hf)
    · intro href
      rw [given, if_pos rfl, valVecSet_congr _ _ _ va List.length_replicate hlen href]
  | callVec g args =>
    simp only [step]
    split
    · rename_i hnil
      exact h.same (funcCall_func ..) (.callVec g args) fun f => if_neg fun hg => hg.2.1 hnil
    · rename_i hne
      split
      · rename_i hlen
        rw [h.argsLength g] at hlen
        refine h.setArgs g _ (by simpa using hlen) _ ?_ ?_
        · intro f hf
          exact if_neg fun hg => hf hg.1.symm
        · intro _
          exact if_pos ⟨rfl, hne, hlen⟩
      · rename_i hlen
        rw [h.argsLength g] at hlen
        refine h.same rfl (.callVec g args) fun f => if_neg fun hg => ?_
        obtain ⟨hgf, _, hfits⟩ := hg
        exact hlen (hgf ▸ hfits)
  | leave results =>
    simp only [step]
    split
    · exact h.same rfl (.leave results) fun _ => rfl
    · split
      · rename_i g rest hframes hkinds
        exact h.setRets g hkinds (.leave results) rest fun _ => rfl
      · exact h.same rfl (.leave results) fun _ => rfl
  | trap =>
    simp only [step]
    split
    · exact h.same rfl .trap fun _ => rfl
    · exact h.same (by rfl) .trap fun _ => rfl

theorem values_run (types : ℕ → FuncType) (events : List Event) :
    ValuesOk types events (run types events).1 := by
  induction events using List.reverseRecOn with
  | nil => exact initial_ok types
  | append_singleton events e ih =>
    rw [run_snoc]
    exact values_step ih e

theorem funcCall_trapped (s : Instance) (f : ℕ) : (funcCall s f).1.trapped = s.trapped := by
  rw [funcCall]
  split <;> rfl

/-- Only the trap of a guest that runs is kept. -/
theorem step_trapped (types : ℕ → FuncType) (s : Instance) (e : Event) :
    (step types s e).1.trapped = true ↔ s.trapped = true ∨ (e = .trap ∧ s.frames ≠ []) := by
  cases e with
  | call f va =>
    simp only [step, funcCall_trapped, reduceCtorEq, false_and, or_false]
    rfl
  | callVec f args =>
    simp only [step, reduceCtorEq, false_and, or_false]
    split
    · rw [funcCall_trapped]
    · split
      · rw [funcCall_trapped]
        rfl
      · rfl
  | leave results =>
    simp only [step, reduceCtorEq, false_and, or_false]
    split
    · rfl
    · split <;> rfl
  | trap =>
    simp only [step, true_and]
    split
    · rename_i hnil
      simp [hnil]
    · rename_i f rest hframes
      simp [hframes]

theorem trapped_run (types : ℕ → FuncType) (events : List Event) :
    (run types events).1.trapped = true ↔ HasTrapped types events := by
  induction events using List.reverseRecOn with
  | nil => simp [run, initial, HasTrapped]
  | append_singleton events e ih =>
    rw [run_snoc, step_trapped, ih]
    constructor
    · rintro (⟨before, after, rfl, hframes⟩ | ⟨rfl, hframes⟩)
      · exact ⟨before, after ++ [e], by simp, hframes⟩
      · exact ⟨events, [], rfl, hframes⟩
    · rintro ⟨before, after, heq, hframes⟩
      rcases List.eq_nil_or_concat after with rfl | ⟨after, x, rfl⟩
      · obtain ⟨rfl, hlast⟩ := List.append_inj' heq rfl
        exact .inr ⟨List.singleton_inj.mp hlast, hframes⟩
      · rw [List.concat_eq_append, ← List.cons_append, ← List.append_assoc] at heq
        obtain ⟨rfl, -⟩ := List.append_inj' heq rfl
        exact .inl ⟨before, after, rfl, hframes⟩

/-! ### One call after a run -/

section
variable {types : ℕ → FuncType} {events : List Event} {s : Instance} {f : ℕ}

theorem ValuesOk.call_entered_iff (h : ValuesOk types events s) {va : List ℕ}
    (hva : va.length = (types f).params.length) :
    (step types s (.call f va)).2 = .entered f ((supplied (types f).params va).map some) ↔
      ¬s.trapped = true ∧ ∀ k ∈ (types f).params, k.Carried := by
  have hlen := h.argsLength f
  have hset (args : Cells) : (s.setArgs f args).trapped = s.trapped := rfl
  rw [step, funcCall, hset]
  by_cases htrap : s.trapped = true
  · simp [htrap]
  rw [if_neg htrap]
  have hkinds := supplied_kinds (types f).params hva
  have hall : (∀ v ∈ supplied (types f).params va, v.kind.Carried) ↔
      ∀ k ∈ (types f).params, k.Carried := by
    conv_rhs => rw [← hkinds]
    rw [List.forall_mem_map]
  simp only [Instance.setArgs, Function.update_self, valVecSet_length _ _ va hlen,
    Answer.entered.injEq, true_and, htrap, Bool.false_eq_true, not_false_eq_true, ← hall]
  refine received_iff _ _ _ (supplied_length hva) fun hcarried => ?_
  refine valVecSet_supplied _ _ va hlen hva fun href => ?_
  rcases hall.mp hcarried .ref href with hk | hk <;> exact absurd hk (by decide)

theorem ValuesOk.callVec_entered_iff (h : ValuesOk types events s) {args : List Val}
    (hne : args ≠ []) (hlen : args.length = (types f).params.length) :
    (step types s (.callVec f args)).2 = .entered f (args.map some) ↔
      ¬s.trapped = true ∧ ∀ v ∈ args, v.kind.Carried := by
  have hfits : args.length = (s.func f).args.length := by rw [h.argsLength f, hlen]
  have hset (args : Cells) : (s.setArgs f args).trapped = s.trapped := rfl
  rw [step, if_neg hne, if_pos hfits, funcCall, hset]
  by_cases htrap : s.trapped = true
  · simp [htrap]
  rw [if_neg htrap]
  simp only [Instance.setArgs, Function.update_self, List.length_map, Answer.entered.injEq,
    true_and, htrap, Bool.false_eq_true, not_false_eq_true]
  exact received_iff _ _ _ rfl fun _ => rfl

theorem ValuesOk.callVec_last_iff (h : ValuesOk types events s) (href : .ref ∉ (types f).params) :
    (step types s (.callVec f [])).2 =
        .entered f (valvec2wasmtime (freshVals (types f).params.length)
          (lastGiven types f events)) ↔
      ¬s.trapped = true := by
  rw [step, if_pos rfl, funcCall, h.argsLength f, h.args f href]
  by_cases htrap : s.trapped = true
  · simp [htrap]
  · simp [htrap]

theorem ValuesOk.leave_returned_iff (h : ValuesOk types events s) {results : List Val}
    {rest : List ℕ} (hframes : s.frames = f :: rest)
    (hkinds : results.map (fun v => v.kind) = (types f).results) :
    (step types s (.leave results)).2 = .returned f (results.map some) ↔
      ∀ v ∈ results, v.kind ≠ .ref := by
  have hlen : (s.func f).rets.length = results.length := by
    rw [h.retsLength f, ← hkinds, List.length_map]
  have hanswer : (step types s (.leave results)).2 =
      .returned f (wasmtimeValvec2wasm (s.func f).rets results) := by
    simp only [step, hframes, if_pos hkinds]
  rw [hanswer, Answer.returned.injEq]
  simp only [true_and]
  constructor
  · intro heq v hv
    have hmem : some v ∈ wasmtimeValvec2wasm (s.func f).rets results := by
      rw [heq]
      exact List.mem_map_of_mem hv
    exact wasmtimeValvec2wasm_kind results _ (h.rets f) _ hmem v rfl
  · intro hok
    exact wasmtimeValvec2wasm_self results _ hlen hok

end

end NgxWasm.Wavm.CallValues
