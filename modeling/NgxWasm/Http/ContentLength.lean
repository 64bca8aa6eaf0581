import NgxWasm.Http.HeaderNames
import NgxWasm.Lib.Run

/-!
# Content-Length as a number (ngx_http_wasm_set_cl_header_handler)

The handlers of `ngx_http_wasm_headers_request.c` (368-415) and of
`ngx_http_wasm_headers_response.c` (204-236) with `content_length_n`, which is a copy of
what the list's entry says.
-/

namespace NgxWasm.Http.ContentLength

open NgxWasm NgxWasm.ProxyWasm.Pairs NgxWasm.Http.Headers NgxWasm.Http.HeaderSet
open NgxWasm.Http.HeaderNames NgxWasm.Lib.Run

/-! ### Handlers -/

/-- `r->headers_in` or `r->headers_out` with its `content_length_n`. -/
structure Numbered where
  headers : HeaderMap
  contentLengthN : ℤ

abbrev Result := Except Fault (Rc × Numbered)

/-- The call of the builtin handler, and the error tail behind it. -/
def reqBuiltin (pool : Pool) (offset : Field) (hv : HeaderSet) (len : ℤ) (s : Numbered) : Result :=
  match setBuiltinHeader pool offset hv s.headers with
  | .error fault => .error fault
  | .ok (.ok, headers) => .ok (.ok, ⟨headers, len⟩)
  | .ok (rc, headers) => .ok (rc, ⟨headers, -1⟩)

def reqContentLengthHandler (pool : Pool) (offset : Field) (hv : HeaderSet) (s : Numbered) :
    Result :=
  let value := hv.value.getD []
  if value ≠ [] then
    match atoof value with
    | none => .ok (.declined, { s with contentLengthN := -1 })
    | some len => reqBuiltin pool offset hv len s
  else if hv.mode = .append then .ok (.declined, { s with contentLengthN := -1 })
  else reqBuiltin pool offset hv (-1) s

def respContentLengthHandler (pool : Pool) (offset : Field) (hv : HeaderSet) (s : Numbered) :
    Result :=
  if hv.mode = .remove then .ok (.ok, ⟨clearBuiltin offset s.headers, -1⟩)
  else
    match atoof (hv.value.getD []) with
    | none => .ok (.declined, s)
    | some len =>
      match setBuiltinHeader pool offset hv s.headers with
      | .error fault => .error fault
      | .ok (.ok, headers) => .ok (.ok, ⟨headers, len⟩)
      | .ok (rc, headers) => .ok (rc, { s with headers := headers })

/-- `ngx_http_wasm_set_req_header` and `ngx_http_wasm_set_resp_header`. -/
def setNumbered (b : Build) (ht : HType) (pool : Pool) (select : Bool) (key : Bytes)
    (value : Option Bytes) (mode : Mode) (s : Numbered) : Result :=
  match prepare pool (handlers b ht) key value mode with
  | none => .ok (.error, s)
  | some (h, hv) =>
    match h.setter with
    | .reqContentLength => reqContentLengthHandler pool h.offset hv s
    | .respContentLength => respContentLengthHandler pool h.offset hv s
    | _ =>
      match handle pool select h hv s.headers with
      | .error fault => .error fault
      | .ok (rc, headers) => .ok (rc, { s with headers := headers })

/-! ### The number of an entry -/

def AllDigits (line : Bytes) : Prop := ∀ c ∈ line, 48 ≤ c ∧ c ≤ 57

instance allDigits_decidable (line : Bytes) : Decidable (AllDigits line) :=
  List.decidableBAll (fun c => 48 ≤ c ∧ c ≤ 57) line

/-- The number a text of decimal digits stands for. -/
def numberOf (line : Bytes) : Option ℕ :=
  if line ≠ [] ∧ AllDigits line then
    some (line.foldl (fun n c => n * 10 + (c.toNat - 48)) 0)
  else none

theorem atoofFrom_number {line : Bytes} {value n : ℕ} (h : atoofFrom value line = some n) :
    (∀ c ∈ line, 48 ≤ c ∧ c ≤ 57) ∧
      line.foldl (fun n c => n * 10 + (c.toNat - 48)) value = n := by
  induction line generalizing value with
  | nil =>
    have heq : value = n := Option.some.inj h
    exact ⟨fun c hc => absurd hc List.not_mem_nil, heq⟩
  | cons c line ih =>
    rw [atoofFrom] at h
    split at h
    · cases h
    · next hdigit =>
      split at h
      · cases h
      · obtain ⟨hall, hfold⟩ := ih h
        rw [not_or, UInt8.not_lt, UInt8.not_lt] at hdigit
        constructor
        · intro d hd
          rcases List.mem_cons.mp hd with rfl | hd
          · exact hdigit
          · exact hall d hd
        · exact hfold

theorem atoof_number {line : Bytes} {n : ℕ} (h : atoof line = some n) : numberOf line = some n := by
  rw [atoof] at h
  split at h
  · cases h
  · next hne =>
    obtain ⟨hall, hfold⟩ := atoofFrom_number h
    rw [numberOf, if_pos ⟨hne, hall⟩, hfold]

/-! ### The list and the pointer -/

def name : Bytes := ascii "Content-Length"

def lengthHandler : HType → Handler
  | .request => handler "Content-Length" .contentLength .reqContentLength
  | .response => handler "Content-Length" .contentLength .respContentLength

theorem lengthHandler_mem (b : Build) (ht : HType) : lengthHandler ht ∈ handlers b ht := by
  cases ht with
  | request => simp [handlers, reqHeadersHandlers, lengthHandler]
  | response => simp [handlers, respHeadersHandlers, lengthHandler]

theorem lengthHandler_name (ht : HType) : (lengthHandler ht).name = name := by
  cases ht <;> rfl

/-- The pointer is of an element of the name, and no other element of the name is live. -/
structure Shape (s : HeaderMap) : Prop where
  live : ∀ i e, s.list.elts[i]? = some e → named name e = true → s.builtin .contentLength = some i
  held : ∀ i, s.builtin .contentLength = some i →
    ∃ e, s.list.elts[i]? = some e ∧ SameKey name e.key

def entries (s : Numbered) : List Bytes := valuesOf name s.headers.list.elts

/-- The number is that of the live entry, or -1. -/
def Agrees (s : Numbered) : Prop :=
  (entries s = [] ∧ s.contentLengthN = -1) ∨
    ∃ value len, entries s = [value] ∧ numberOf value = some len ∧ s.contentLengthN = (len : ℤ)

theorem not_agrees {s : Numbered} (hlive : entries s ≠ []) (hn : s.contentLengthN = -1) :
    ¬ Agrees s := by
  intro h
  rcases h with ⟨hnil, _⟩ | ⟨value, len, _, _, hlen⟩
  · exact hlive hnil
  · rw [hn] at hlen
    omega

theorem entries_nil_iff {s : Numbered} (h : Agrees s) : entries s = [] ↔ s.contentLengthN = -1 := by
  rcases h with ⟨hnil, hn⟩ | ⟨value, len, hone, _, hlen⟩
  · simp [hnil, hn]
  · rw [hone, hlen]
    constructor
    · intro h
      cases h
    · intro h
      omega

theorem filter_single {α : Type} {p : α → Bool} {l : List α} {i : ℕ} {e : α} (he : l[i]? = some e)
    (hp : p e = true) (hone : ∀ j x, l[j]? = some x → p x = true → j = i) : l.filter p = [e] := by
  induction l generalizing i with
  | nil => simp at he
  | cons x l ih =>
    cases i with
    | zero =>
      obtain rfl : x = e := by simpa using he
      have hnone : l.filter p = [] := by
        rw [List.filter_eq_nil_iff]
        intro y hy hpy
        obtain ⟨j, hj⟩ := List.mem_iff_getElem?.mp hy
        have hzero := hone (j + 1) y (by simpa using hj) hpy
        omega
      rw [List.filter_cons_of_pos hp, hnone]
    | succ i =>
      have hx : ¬ p x = true := by
        intro hpx
        have hzero := hone 0 x (by simp) hpx
        omega
      rw [List.filter_cons_of_neg hx]
      apply ih (i := i) (by simpa using he)
      intro j y hj hpy
      have hsucc := hone (j + 1) y (by simpa using hj) hpy
      omega

theorem shape_none {s : HeaderMap} (h : Shape s) (hb : s.builtin .contentLength = none) :
    ∀ e ∈ s.list.elts, named name e = false := by
  intro e he
  obtain ⟨i, hi⟩ := List.mem_iff_getElem?.mp he
  cases hn : named name e with
  | false => rfl
  | true => exact absurd (h.live i e hi hn) (by rw [hb]; simp)

/-- An entry at the pointer, put there or written over. -/
theorem shape_assign {s : HeaderMap} {e : Elt} {i : ℕ} (h : Shape s)
    (hb : s.builtin .contentLength = some i) (he : SameKey name e.key) :
    Shape { s with list := s.list.assign i e } where
  live := by
    intro j x hj hx
    rw [HeaderList.assign_elts, List.getElem?_set] at hj
    split at hj
    · next heq => rw [hb, heq]
    · exact h.live j x hj hx
  held := by
    intro j hj
    have heq : i = j := by
      have := hb.symm.trans hj
      simpa using this
    subst heq
    obtain ⟨x, hx, _⟩ := h.held i hb
    have hlt : i < s.list.elts.length := (List.getElem?_eq_some_iff.mp hx).1
    exact ⟨e, by simp [HeaderList.assign_elts, hlt], he⟩

theorem entries_assign {s : HeaderMap} {e : Elt} {i : ℕ} (h : Shape s)
    (hb : s.builtin .contentLength = some i) (he : named name e = true) :
    valuesOf name (s.list.assign i e).elts = [e.value] := by
  obtain ⟨x, hx, _⟩ := h.held i hb
  have hlt : i < s.list.elts.length := (List.getElem?_eq_some_iff.mp hx).1
  have hat : (s.list.assign i e).elts[i]? = some e := by
    simp [HeaderList.assign_elts, hlt]
  have hone : ∀ j y, (s.list.assign i e).elts[j]? = some y → named name y = true → j = i := by
    intro j y hj hy
    have hlive := (shape_assign h hb (named_spec.mp he).2).live j y hj hy
    have := hb.symm.trans hlive
    simpa using this.symm
  rw [valuesOf, filter_single hat he hone]
  rfl

theorem entries_clear {s : HeaderMap} {i : ℕ} (h : Shape s)
    (hb : s.builtin .contentLength = some i) : valuesOf name (s.clear i).list.elts = [] := by
  obtain ⟨x, hx, _⟩ := h.held i hb
  apply valuesOf_miss
  intro e he
  obtain ⟨j, hj⟩ := List.mem_iff_getElem?.mp he
  simp only [HeaderMap.clear, hx, HeaderList.assign_elts, List.getElem?_set] at hj
  split at hj
  · split at hj
    · obtain rfl := Option.some.inj hj
      rfl
    · cases hj
  · next hne =>
    cases hn : named name e with
    | false => rfl
    | true =>
      have hlive := h.live j e hj hn
      rw [hb] at hlive
      exact absurd (Option.some.inj hlive) hne

theorem shape_clear {s : HeaderMap} {i : ℕ} (h : Shape s)
    (hb : s.builtin .contentLength = some i) : Shape (s.clear i) := by
  obtain ⟨x, hx, hkey⟩ := h.held i hb
  simp only [HeaderMap.clear, hx]
  exact shape_assign h hb hkey

theorem shape_clearBuiltin {s : HeaderMap} (h : Shape s) :
    Shape (clearBuiltin .contentLength s) ∧
      valuesOf name (clearBuiltin .contentLength s).list.elts = [] := by
  unfold clearBuiltin
  cases hb : s.builtin .contentLength with
  | none => exact ⟨h, valuesOf_miss (shape_none h hb)⟩
  | some i =>
    have hnil := entries_clear h hb
    refine ⟨⟨?_, ?_⟩, hnil⟩
    · intro j e hj hn
      have hmem : e.value ∈ valuesOf name (s.clear i).list.elts :=
        List.mem_map_of_mem (List.mem_filter.mpr ⟨List.mem_of_getElem? hj, hn⟩)
      rw [hnil] at hmem
      exact absurd hmem List.not_mem_nil
    · intro j hj
      simp at hj

/-- A new entry where there was none. -/
theorem shape_push {s : HeaderMap} {e : Elt} (nalloc : ℕ) (h : Shape s)
    (hb : s.builtin .contentLength = none) (he : SameKey name e.key) :
    Shape { s with
      list := s.list.push nalloc e
      builtin := Function.update s.builtin .contentLength (some s.list.elts.length) } where
  live := by
    intro j x hj hx
    rw [HeaderList.push_elts, List.getElem?_append] at hj
    split at hj
    · have hnone := shape_none h hb x (List.mem_of_getElem? hj)
      rw [hnone] at hx
      cases hx
    · next hlt =>
      rw [List.getElem?_singleton] at hj
      split at hj
      · next hzero =>
        show Function.update s.builtin .contentLength (some s.list.elts.length) .contentLength = _
        rw [Function.update_self]
        congr 1
        omega
      · cases hj
  held := by
    intro j hj
    have hlen : some s.list.elts.length = some j :=
      (Function.update_self Field.contentLength _ s.builtin).symm.trans hj
    obtain rfl := Option.some.inj hlen
    exact ⟨e, by simp [HeaderList.push_elts], he⟩

theorem entries_push {s : HeaderMap} {e : Elt} (nalloc : ℕ) (h : Shape s)
    (hb : s.builtin .contentLength = none) (he : named name e = true) :
    valuesOf name (s.list.push nalloc e).elts = [e.value] := by
  rw [HeaderList.push_elts, valuesOf_append, valuesOf_miss (shape_none h hb), valuesOf_cons,
    if_pos he]
  rfl

/-! ### The builtin handler -/

section
variable {pool : Pool} {hv : HeaderSet} {s : HeaderMap}

theorem setBuiltin_remove (hmode : hv.mode = .remove) :
    setBuiltinHeader pool .contentLength hv s =
      .ok (.ok, match s.builtin .contentLength with
        | some h => s.clear h
        | none => s) := by
  rw [setBuiltinHeader, hmode]
  cases s.builtin .contentLength <;> rfl

theorem setBuiltin_held {i : ℕ} (hb : s.builtin .contentLength = some i)
    (hmode : hv.mode ≠ .remove) :
    setBuiltinHeader pool .contentLength hv s =
      if hv.mode = .append then .ok (.declined, s)
      else .ok (.ok, { s with list := s.list.assign i hv.elt }) := by
  rw [setBuiltinHeader, hb]
  cases hm : hv.mode with
  | set => rfl
  | append => rfl
  | remove => exact absurd hm hmode

/-- Without a pointer the element is new; it keeps the pointer unset if the lower-cased
key is refused its memory. -/
theorem setBuiltin_new (hb : s.builtin .contentLength = none) (hmode : hv.mode ≠ .remove)
    (hmiss : ∀ e ∈ s.list.elts, hv.hits e = false) :
    setBuiltinHeader pool .contentLength hv s =
      if pool.push then
        if pool.lowcase then
          .ok (.ok, { s with
            list := s.list.push pool.nalloc hv.elt
            builtin := Function.update s.builtin .contentLength (some s.list.elts.length) })
        else .ok (.error, { s with list := s.list.push pool.nalloc hv.elt })
      else .ok (.error, s) := by
  have hhelper : setHeaderHelper pool hv s.list = .ok (newHeader pool hv s.list) := by
    cases hm : hv.mode with
    | set => exact helper_new pool hv s.list hm hmiss
    | append => exact helper_append pool hv s.list hm
    | remove => exact absurd hm hmode
  rw [setBuiltinHeader, hb]
  cases hm : hv.mode with
  | remove => exact absurd hm hmode
  | set =>
    rw [hhelper, newHeader]
    cases pool.push <;> cases pool.lowcase <;> rfl
  | append =>
    rw [hhelper, newHeader]
    cases pool.push <;> cases pool.lowcase <;> rfl

end

/-! ### Runs -/

/-- An operation on Content-Length, in whatever letters the guest writes it. -/
structure Op where
  pool : Pool
  key : Bytes
  change : Change
  same : SameKey name key

def step (b : Build) (ht : HType) (s : Numbered) (op : Op) : Numbered × Except Fault Rc :=
  match setNumbered b ht op.pool false op.key op.change.value op.change.mode s with
  | .error fault => (s, .error fault)
  | .ok (rc, s) => (s, .ok rc)

/-- What keeps the request's number the list's: the value is not given the memory it
is escaped into, or it is a number, is one where it is replaced and finds no pointer
where it is added; a refusal does no harm while the number is -1 anyway. -/
def ReqKeeps (s : Numbered) (op : Op) : Prop :=
  copyValue op.pool op.change.value = none ∨
    match op.change with
    | .remove => True
    | .add value =>
      if (atoof (escape .headerValue value)).isSome ∧ s.headers.builtin .contentLength = none then
        Whole op.pool
      else s.contentLengthN = -1
    | .replace value =>
      if value = [] then s.headers.builtin .contentLength = none ∧ op.pool.push = false
      else if (atoof (escape .headerValue value)).isSome then
        s.headers.builtin .contentLength ≠ none ∨ Whole op.pool
      else s.contentLengthN = -1

def RespKeeps (s : Numbered) (op : Op) : Prop :=
  copyValue op.pool op.change.value = none ∨
    match op.change with
    | .remove => True
    | .add value | .replace value =>
      atoof (escape .headerValue value) = none ∨ s.headers.builtin .contentLength ≠ none ∨
        Whole op.pool

/-- What a step leaves of the agreement, and whether it does by condition `c`. -/
structure Kept (s s' : Numbered) (rc : Rc) : Prop where
  agrees : Agrees s'
  shape : Shape s'.headers
  declined : rc = .declined → s' = s

def Verdict (c : Prop) (s s' : Numbered) (rc : Rc) : Prop :=
  (c ∧ Kept s s' rc) ∨ (¬ c ∧ ¬ Agrees s')

section
variable {b : Build} {hv : HeaderSet} {s : Numbered} {pool : Pool} {value : Option Bytes}
  {mode : Mode} {len : ℤ}

theorem named_name {ht : HType} (hn : Named (lengthHandler ht) mode value hv) :
    SameKey name hv.elt.key := by
  rw [← lengthHandler_name ht]
  exact hn.same

theorem named_elt {ht : HType} (hn : Named (lengthHandler ht) mode value hv) :
    named name hv.elt = true := by
  rw [← lengthHandler_name ht]
  exact hn.elt_named (lengthHandler_mem ⟨true, true, true, true⟩ ht)

theorem named_miss {ht : HType} (hn : Named (lengthHandler ht) mode value hv) {s : HeaderMap}
    (h : Shape s) (hb : s.builtin .contentLength = none) :
    ∀ e ∈ s.list.elts, hv.hits e = false := by
  intro e he
  cases hhit : hv.hits e with
  | false => rfl
  | true =>
    have hnamed := hn.hits_named (lengthHandler_mem ⟨true, true, true, true⟩ ht) hhit
    rw [lengthHandler_name, shape_none h hb e he] at hnamed
    cases hnamed

/-- A refusal that sets the number to -1. -/
theorem declined_verdict (ha : Agrees s) (hs : Shape s.headers) :
    Verdict (s.contentLengthN = -1) s { s with contentLengthN := -1 } .declined := by
  by_cases hn : s.contentLengthN = -1
  · have hsame : ({ s with contentLengthN := -1 } : Numbered) = s := by
      rw [← hn]
    rw [hsame]
    exact .inl ⟨hn, ha, hs, fun _ => rfl⟩
  · refine .inr ⟨hn, not_agrees ?_ rfl⟩
    intro hnil
    exact hn ((entries_nil_iff ha).mp hnil)

/-- The element that is written, as a new one or over the pointer's. -/
theorem written_verdict {ht : HType} (hn : Named (lengthHandler ht) mode value hv)
    (hs : Shape s.headers) (ha : Agrees s) (hmode : mode ≠ .remove)
    (hfree : mode = .append → s.headers.builtin .contentLength = none)
    (hlen : len = -1 ∨ ∃ n, numberOf hv.elt.value = some n ∧ len = (n : ℤ)) :
    ∃ rc s', reqBuiltin pool .contentLength hv len s = .ok (rc, s') ∧
      Verdict (if len = -1 then s.headers.builtin .contentLength = none ∧ pool.push = false
        else s.headers.builtin .contentLength ≠ none ∨ Whole pool) s s' rc := by
  have hvmode : hv.mode ≠ .remove := by rw [hn.mode]; exact hmode
  -- the number agrees with the entry exactly where it is one
  have hentry : ∀ s' : Numbered, entries s' = [hv.elt.value] → s'.contentLengthN = len →
      (len ≠ -1 → Agrees s') ∧ (len = -1 → ¬ Agrees s') := by
    intro s' hone hnum
    constructor
    · intro hne
      rcases hlen with h | ⟨n, hnumber, h⟩
      · exact absurd h hne
      · exact .inr ⟨_, n, hone, hnumber, hnum.trans h⟩
    · intro heq
      exact not_agrees (by rw [hone]; simp) (hnum.trans heq)
  cases hb : s.headers.builtin .contentLength with
  | some i =>
    have happend : ¬ hv.mode = .append := by
      intro h
      rw [hn.mode] at h
      rw [hfree h] at hb
      cases hb
    have hset := @setBuiltin_held pool _ _ _ hb hvmode
    rw [if_neg happend] at hset
    refine ⟨.ok, ⟨{ s.headers with list := s.headers.list.assign i hv.elt }, len⟩, ?_, ?_⟩
    · rw [reqBuiltin, hset]
    · obtain ⟨hgood, hbad⟩ := hentry
        ⟨{ s.headers with list := s.headers.list.assign i hv.elt }, len⟩
        (entries_assign hs hb (named_elt hn)) rfl
      have hshape := shape_assign hs hb (named_name hn)
      by_cases hneg : len = -1
      · rw [if_pos hneg]
        exact .inr ⟨by simp, hbad hneg⟩
      · rw [if_neg hneg]
        exact .inl ⟨.inl (by simp), hgood hneg, hshape, fun h => by cases h⟩
  | none =>
    have hset := @setBuiltin_new pool _ _ hb hvmode (named_miss hn hs hb)
    have hnil : entries s = [] := valuesOf_miss (shape_none hs hb)
    have hnum := (entries_nil_iff ha).mp hnil
    have hpush : entries ⟨{ s.headers with list := s.headers.list.push pool.nalloc hv.elt }, -1⟩ ≠
        [] := by
      rw [entries, entries_push pool.nalloc hs hb (named_elt hn)]
      simp
    by_cases hp : pool.push = true
    · rw [hp, if_pos rfl] at hset
      by_cases hl : pool.lowcase = true
      · rw [hl, if_pos rfl] at hset
        refine ⟨.ok, _, by rw [reqBuiltin, hset], ?_⟩
        obtain ⟨hgood, hbad⟩ := hentry
          ⟨{ s.headers with
            list := s.headers.list.push pool.nalloc hv.elt
            builtin := Function.update s.headers.builtin .contentLength
              (some s.headers.list.elts.length) }, len⟩
          (entries_push pool.nalloc hs hb (named_elt hn)) rfl
        have hshape := shape_push pool.nalloc hs hb (named_name hn)
        by_cases hneg : len = -1
        · rw [if_pos hneg]
          exact .inr ⟨by simp [hp], hbad hneg⟩
        · rw [if_neg hneg]
          exact .inl ⟨.inr (.inr hl), hgood hneg, hshape, fun h => by cases h⟩
      · rw [if_neg hl] at hset
        refine ⟨.error, _, by rw [reqBuiltin, hset], .inr ⟨?_, not_agrees hpush rfl⟩⟩
        split
        · simp [hp]
        · simp [Whole, hp, hl]
    · rw [if_neg hp] at hset
      refine ⟨.error, _, by rw [reqBuiltin, hset], .inl ⟨?_, ?_⟩⟩
      · have hfalse : pool.push = false := by simpa using hp
        split
        · exact ⟨rfl, hfalse⟩
        · exact .inr (.inl hfalse)
      · refine ⟨.inl ⟨hnil, rfl⟩, hs, fun h => by cases h⟩

end

theorem setNumbered_request (b : Build) (op : Op) (s : Numbered) :
    (copyValue op.pool op.change.value = none ∧
      setNumbered b .request op.pool false op.key op.change.value op.change.mode s =
        .ok (.error, s)) ∨
      copyValue op.pool op.change.value ≠ none ∧
        ∃ hv, Named (lengthHandler .request) op.change.mode op.change.value hv ∧
          setNumbered b .request op.pool false op.key op.change.value op.change.mode s =
            reqContentLengthHandler op.pool .contentLength hv s := by
  have hmem := lengthHandler_mem b .request
  have hsame : SameKey (lengthHandler .request).name op.key := op.same
  have hiff := @prepare_none_iff b _ _ op.pool op.key op.change.value
    op.change.mode hmem hsame
  cases hp : prepare op.pool (handlers b .request) op.key op.change.value op.change.mode with
  | none =>
    left
    refine ⟨hiff.mp hp, ?_⟩
    rw [setNumbered, hp]
  | some r =>
    obtain ⟨h, hv⟩ := r
    right
    obtain ⟨rfl, hn⟩ := prepare_hands hmem hsame hp
    refine ⟨fun hc => ?_, hv, hn, ?_⟩
    · rw [hiff.mpr hc] at hp
      cases hp
    · rw [setNumbered, hp]
      rfl

section
variable {hv : HeaderSet} {s : Numbered} {pool : Pool} {value : Bytes}

theorem req_remove (hn : Named (lengthHandler .request) .remove none hv) (hs : Shape s.headers) :
    ∃ s', reqContentLengthHandler pool .contentLength hv s = .ok (.ok, s') ∧ Kept s s' .ok := by
  have hmode : hv.mode = .remove := hn.mode
  have hvalue : hv.value = none := hn.value
  have hcall : reqContentLengthHandler pool .contentLength hv s =
      reqBuiltin pool .contentLength hv (-1) s := by
    simp [reqContentLengthHandler, hvalue, hmode]
  rw [hcall, reqBuiltin, setBuiltin_remove hmode]
  refine ⟨_, rfl, ?_, ?_, fun h => by cases h⟩
  · cases hb : s.headers.builtin .contentLength with
    | none => exact .inl ⟨valuesOf_miss (shape_none hs hb), rfl⟩
    | some i => exact .inl ⟨entries_clear hs hb, rfl⟩
  · cases hb : s.headers.builtin .contentLength with
    | none => exact hs
    | some i => exact shape_clear hs hb

theorem named_value {ht : HType} {mode : Mode}
    (hn : Named (lengthHandler ht) mode (some value) hv) (hmode : mode ≠ .remove) :
    hv.value = some (escape .headerValue value) := by
  rw [hn.value, if_neg hmode]
  rfl

theorem req_add (hn : Named (lengthHandler .request) .append (some value) hv)
    (hs : Shape s.headers) (ha : Agrees s) :
    ∃ rc s', reqContentLengthHandler pool .contentLength hv s = .ok (rc, s') ∧
      Verdict (if (atoof (escape .headerValue value)).isSome ∧
          s.headers.builtin .contentLength = none then Whole pool
        else s.contentLengthN = -1) s s' rc := by
  have hmode : hv.mode = .append := hn.mode
  have hvalue := named_value hn (by decide)
  cases hat : atoof (escape .headerValue value) with
  | none =>
    refine ⟨.declined, { s with contentLengthN := -1 }, ?_, ?_⟩
    · simp [reqContentLengthHandler, hvalue, hmode, hat]
    · simpa using declined_verdict ha hs
  | some len =>
    have hne : escape .headerValue value ≠ [] := by
      intro hnil
      rw [hnil] at hat
      cases hat
    have hcall : reqContentLengthHandler pool .contentLength hv s =
        reqBuiltin pool .contentLength hv len s := by
      simp [reqContentLengthHandler, hvalue, hne, hat]
    rw [hcall]
    cases hb : s.headers.builtin .contentLength with
    | none =>
      have helt : numberOf hv.elt.value = some len := by
        rw [HeaderSet.elt, hvalue]
        exact atoof_number hat
      obtain ⟨rc, s', hr, hv⟩ := written_verdict hn hs ha
        (by decide) (fun _ => hb) (.inr ⟨len, helt, rfl⟩)
      refine ⟨rc, s', hr, ?_⟩
      rw [if_neg (by omega)] at hv
      simpa [hb] using hv
    | some i =>
      have hbuiltin := @setBuiltin_held pool hv _ _ hb (by simp [hmode])
      rw [if_pos hmode] at hbuiltin
      refine ⟨.declined, { s with contentLengthN := -1 }, ?_, ?_⟩
      · rw [reqBuiltin, hbuiltin]
      · simpa using declined_verdict ha hs

theorem req_replace (hn : Named (lengthHandler .request) .set (some value) hv)
    (hs : Shape s.headers) (ha : Agrees s) :
    ∃ rc s', reqContentLengthHandler pool .contentLength hv s = .ok (rc, s') ∧
      Verdict (if value = [] then s.headers.builtin .contentLength = none ∧ pool.push = false
        else if (atoof (escape .headerValue value)).isSome then
          s.headers.builtin .contentLength ≠ none ∨ Whole pool
        else s.contentLengthN = -1) s s' rc := by
  have hmode : hv.mode = .set := hn.mode
  have hvalue := named_value hn (by decide)
  by_cases hempty : value = []
  · have hcall : reqContentLengthHandler pool .contentLength hv s =
        reqBuiltin pool .contentLength hv (-1) s := by
      simp [reqContentLengthHandler, hvalue, hempty, escape, hmode]
    obtain ⟨rc, s', hr, hv⟩ := written_verdict hn hs ha (by decide)
      (fun h => by cases h) (.inl rfl)
    refine ⟨rc, s', hcall.trans hr, ?_⟩
    rw [if_pos hempty]
    rwa [if_pos rfl] at hv
  · have hne : escape .headerValue value ≠ [] := fun h => hempty (escape_nil_iff.mp h)
    rw [if_neg hempty]
    cases hat : atoof (escape .headerValue value) with
    | none =>
      refine ⟨.declined, { s with contentLengthN := -1 }, ?_, ?_⟩
      · simp [reqContentLengthHandler, hvalue, hne, hat]
      · simpa using declined_verdict ha hs
    | some len =>
      have hcall : reqContentLengthHandler pool .contentLength hv s =
          reqBuiltin pool .contentLength hv len s := by
        simp [reqContentLengthHandler, hvalue, hne, hat]
      have helt : numberOf hv.elt.value = some len := by
        rw [HeaderSet.elt, hvalue]
        exact atoof_number hat
      obtain ⟨rc, s', hr, hv⟩ := written_verdict hn hs ha
        (by decide) (fun h => by cases h) (.inr ⟨len, helt, rfl⟩)
      refine ⟨rc, s', hcall.trans hr, ?_⟩
      rwa [if_neg (by omega)] at hv

end

theorem req_step (b : Build) {s : Numbered} (op : Op) (hs : Shape s.headers) (ha : Agrees s) :
    ∃ rc, (step b .request s op).2 = .ok rc ∧
      Verdict (ReqKeeps s op) s (step b .request s op).1 rc := by
  have hout : ∀ {rc s'}, setNumbered b .request op.pool false op.key op.change.value
      op.change.mode s = .ok (rc, s') → Verdict (ReqKeeps s op) s s' rc →
      ∃ rc, (step b .request s op).2 = .ok rc ∧
        Verdict (ReqKeeps s op) s (step b .request s op).1 rc := by
    intro rc s' hset hv
    refine ⟨rc, ?_, ?_⟩
    · rw [step, hset]
    · rw [step, hset]
      exact hv
  rcases setNumbered_request b op s with ⟨hnone, hset⟩ | ⟨hsome, hv, hn, hset⟩
  · exact hout hset (.inl ⟨.inl hnone, ha, hs, fun h => by cases h⟩)
  · have hkeeps : ReqKeeps s op ↔ _ := or_iff_right hsome
    cases hc : op.change with
    | remove =>
      rw [hc] at hn hkeeps
      obtain ⟨s', hr, hk⟩ := req_remove hn hs
      exact hout (hset.trans hr) (.inl ⟨hkeeps.mpr trivial, hk⟩)
    | add value =>
      rw [hc] at hn hkeeps
      dsimp only at hkeeps
      obtain ⟨rc, s', hr, hv⟩ := req_add hn hs ha
      rw [← hkeeps] at hv
      exact hout (hset.trans hr) hv
    | replace value =>
      rw [hc] at hn hkeeps
      dsimp only at hkeeps
      obtain ⟨rc, s', hr, hv⟩ := req_replace hn hs ha
      rw [← hkeeps] at hv
      exact hout (hset.trans hr) hv

/-! ### The response -/

theorem setNumbered_response (b : Build) (op : Op) (s : Numbered) :
    (copyValue op.pool op.change.value = none ∧
      setNumbered b .response op.pool false op.key op.change.value op.change.mode s =
        .ok (.error, s)) ∨
      copyValue op.pool op.change.value ≠ none ∧
        ∃ hv, Named (lengthHandler .response) op.change.mode op.change.value hv ∧
          setNumbered b .response op.pool false op.key op.change.value op.change.mode s =
            respContentLengthHandler op.pool .contentLength hv s := by
  have hmem := lengthHandler_mem b .response
  have hsame : SameKey (lengthHandler .response).name op.key := op.same
  have hiff := @prepare_none_iff b _ _ op.pool op.key op.change.value
    op.change.mode hmem hsame
  cases hp : prepare op.pool (handlers b .response) op.key op.change.value op.change.mode with
  | none =>
    left
    refine ⟨hiff.mp hp, ?_⟩
    rw [setNumbered, hp]
  | some r =>
    obtain ⟨h, hv⟩ := r
    right
    obtain ⟨rfl, hn⟩ := prepare_hands hmem hsame hp
    refine ⟨fun hc => ?_, hv, hn, ?_⟩
    · rw [hiff.mpr hc] at hp
      cases hp
    · rw [setNumbered, hp]
      rfl

/-- What a step of the response does: it changes nothing or brings the agreement about. -/
structure Settled (s s' : Numbered) (rc : Rc) : Prop where
  shape : Shape s'.headers
  done : rc = .ok → Agrees s'
  undone : rc ≠ .ok → s' = s

theorem resp_written {hv : HeaderSet} {s : Numbered} {pool : Pool} {value : Bytes} {mode : Mode}
    (hn : Named (lengthHandler .response) mode (some value) hv) (hs : Shape s.headers)
    (hmode : mode ≠ .remove)
    (hkeeps : atoof (escape .headerValue value) = none ∨
      s.headers.builtin .contentLength ≠ none ∨ Whole pool) :
    ∃ rc s', respContentLengthHandler pool .contentLength hv s = .ok (rc, s') ∧
      Settled s s' rc := by
  have hvmode : hv.mode ≠ .remove := by rw [hn.mode]; exact hmode
  have hvalue := named_value hn hmode
  rw [respContentLengthHandler, if_neg hvmode, hvalue, Option.getD_some]
  cases hat : atoof (escape .headerValue value) with
  | none => exact ⟨.declined, s, rfl, hs, fun h => (by cases h), fun _ => rfl⟩
  | some len =>
    have helt : numberOf hv.elt.value = some len := by
      rw [HeaderSet.elt, hvalue]
      exact atoof_number hat
    dsimp only
    cases hb : s.headers.builtin .contentLength with
    | some i =>
      rw [setBuiltin_held hb hvmode]
      by_cases happend : hv.mode = .append
      · rw [if_pos happend]
        exact ⟨.declined, s, rfl, hs, fun h => (by cases h), fun _ => rfl⟩
      · rw [if_neg happend]
        refine ⟨.ok, _, rfl, shape_assign hs hb (named_name hn), fun _ => ?_, fun h => absurd rfl h⟩
        exact .inr ⟨_, len, entries_assign hs hb (named_elt hn), helt, rfl⟩
    | none =>
      rw [setBuiltin_new hb hvmode (named_miss hn hs hb)]
      by_cases hp : pool.push = true
      · have hl : pool.lowcase = true := by
          rcases hkeeps with h | h | h | h
          · rw [hat] at h
            cases h
          · exact absurd hb h
          · rw [hp] at h
            cases h
          · exact h
        rw [if_pos hp, if_pos hl]
        refine ⟨.ok, _, rfl, shape_push pool.nalloc hs hb (named_name hn), fun _ => ?_,
          fun h => absurd rfl h⟩
        exact .inr ⟨_, len, entries_push pool.nalloc hs hb (named_elt hn), helt, rfl⟩
      · rw [if_neg hp]
        exact ⟨.error, s, rfl, hs, fun h => (by cases h), fun _ => rfl⟩

theorem resp_step (b : Build) {s : Numbered} (op : Op) (hs : Shape s.headers)
    (hkeeps : RespKeeps s op) :
    ∃ rc, (step b .response s op).2 = .ok rc ∧ Settled s (step b .response s op).1 rc := by
  have hout : ∀ {rc s'}, setNumbered b .response op.pool false op.key op.change.value
      op.change.mode s = .ok (rc, s') → Settled s s' rc →
      ∃ rc, (step b .response s op).2 = .ok rc ∧ Settled s (step b .response s op).1 rc := by
    intro rc s' hset hv
    refine ⟨rc, ?_, ?_⟩
    · rw [step, hset]
    · rw [step, hset]
      exact hv
  rcases setNumbered_response b op s with ⟨hnone, hset⟩ | ⟨hsome, hv, hn, hset⟩
  · exact hout hset ⟨hs, fun h => (by cases h), fun _ => rfl⟩
  · have hkeeps := hkeeps.resolve_left hsome
    cases hc : op.change with
    | remove =>
      rw [hc] at hn
      have hmode : hv.mode = .remove := hn.mode
      rw [respContentLengthHandler, if_pos hmode] at hset
      obtain ⟨hshape, hnil⟩ := shape_clearBuiltin hs
      exact hout hset ⟨hshape, fun _ => .inl ⟨hnil, rfl⟩, fun h => absurd rfl h⟩
    | add value =>
      rw [hc] at hn hkeeps
      obtain ⟨rc, s', hr, hv⟩ := resp_written hn hs (by simp [Change.mode]) hkeeps
      exact hout (hset.trans hr) hv
    | replace value =>
      rw [hc] at hn hkeeps
      obtain ⟨rc, s', hr, hv⟩ := resp_written hn hs (by simp [Change.mode]) hkeeps
      exact hout (hset.trans hr) hv

/-- Once an operation was done the number agrees, and before that nothing was changed. -/
theorem resp_run (b : Build) (ops : List Op) :
    ∀ s : Numbered, Shape s.headers → Meets (step b .response) RespKeeps s ops →
      Shape (exec (step b .response) s ops).1.headers ∧
        (Agrees s ∨ .ok .ok ∈ (exec (step b .response) s ops).2 →
          Agrees (exec (step b .response) s ops).1) := by
  induction ops with
  | nil =>
    intro s hs _
    refine ⟨hs, fun h => ?_⟩
    rcases h with h | h
    · exact h
    · exact absurd h List.not_mem_nil
  | cons op ops ih =>
    intro s hs hm
    obtain ⟨hop, hm⟩ := hm
    obtain ⟨rc, hrc, hset⟩ := resp_step b op hs hop
    obtain ⟨hshape, hagrees⟩ := ih _ hset.shape hm
    rw [exec_cons]
    refine ⟨hshape, fun h => hagrees ?_⟩
    by_cases hok : rc = .ok
    · exact .inl (hset.done hok)
    · rw [hset.undone hok]
      rcases h with h | h
      · exact .inl h
      · rw [hrc] at h
        rcases List.mem_cons.mp h with h | h
        · rw [← Except.ok.inj h] at hok
          exact absurd rfl hok
        · right
          rwa [hset.undone hok] at h

/-- A refused operation leaves everything as it is. -/
def RefusalKeeps (b : Build) (ht : HType) (s : Numbered) (op : Op) : Prop :=
  (step b ht s op).2 = .ok .declined → (step b ht s op).1 = s

/-- All along a run of the request's operations the number is that of the list exactly
when every operation meets the condition, and then no refusal changes anything; in the
response it is once an operation was done. -/
theorem content_length_agrees (b : Build) :
    (∀ (s : Numbered) (ops : List Op), Shape s.headers → Agrees s →
      ((∀ k, Agrees (exec (step b .request) s (ops.take k)).1) ↔
          Meets (step b .request) ReqKeeps s ops) ∧
        (Meets (step b .request) ReqKeeps s ops →
          Meets (step b .request) (RefusalKeeps b .request) s ops)) ∧
    ∀ (s : Numbered) (ops : List Op), Shape s.headers →
      Meets (step b .response) RespKeeps s ops →
        (Agrees s ∨ .ok .ok ∈ (exec (step b .response) s ops).2 →
          Agrees (exec (step b .response) s ops).1) ∧
        Meets (step b .response) (RefusalKeeps b .response) s ops := by
  constructor
  · intro s ops hs ha
    have hkeep : ∀ (s : Numbered) (op : Op), Shape s.headers → Agrees s → ReqKeeps s op →
        ∃ rc, (step b .request s op).2 = .ok rc ∧ Kept s (step b .request s op).1 rc := by
      intro s op hs ha hc
      obtain ⟨rc, hrc, h⟩ := req_step b op hs ha
      rcases h with ⟨_, hk⟩ | ⟨hnot, _⟩
      · exact ⟨rc, hrc, hk⟩
      · exact absurd hc hnot
    constructor
    · apply prefixes_iff (step b .request) (I := fun s => Shape s.headers)
      · intro s op hs ha hc
        obtain ⟨rc, _, hk⟩ := hkeep s op hs ha hc
        exact hk.shape
      · intro s op hs ha
        obtain ⟨rc, _, h⟩ := req_step b op hs ha
        rcases h with ⟨hc, hk⟩ | ⟨hc, hnot⟩
        · exact ⟨fun _ => hc, fun _ => hk.agrees⟩
        · exact ⟨fun h => absurd h hnot, fun h => absurd h hc⟩
      · exact hs
      · exact ha
    · apply meets_mono_inv (step b .request) (P := fun s => Shape s.headers ∧ Agrees s) ?_ ?_ ops s
        ⟨hs, ha⟩
      · intro s op hp hc hdeclined
        obtain ⟨rc, hrc, hk⟩ := hkeep s op hp.1 hp.2 hc
        rw [hrc] at hdeclined
        exact hk.declined (Except.ok.inj hdeclined)
      · intro s op hp hc
        obtain ⟨rc, _, hk⟩ := hkeep s op hp.1 hp.2 hc
        exact ⟨hk.shape, hk.agrees⟩
  · intro s ops hs hm
    refine ⟨(resp_run b ops s hs hm).2, ?_⟩
    apply meets_mono_inv (step b .response) (P := fun s => Shape s.headers) ?_ ?_ ops s hs hm
    · intro s op hp hc hdeclined
      obtain ⟨rc, hrc, hset⟩ := resp_step b op hp hc
      rw [hrc] at hdeclined
      exact hset.undone (by rw [Except.ok.inj hdeclined]; decide)
    · intro s op hp hc
      obtain ⟨rc, _, hset⟩ := resp_step b op hp hc
      exact hset.shape

/-! ### A request with a length -/

def lengthTen : Numbered where
  headers := ⟨⟨[⟨hashKeyLc name, name, ascii "10"⟩], [], pushed_nil⟩,
    fun f => if f = .contentLength then some 0 else none, []⟩
  contentLengthN := 10

def replaceWith (value : String) : Op := ⟨roomy, name, .replace (ascii value), rfl⟩

theorem lengthTen_shape : Shape lengthTen.headers where
  live := by
    intro i e hi _
    cases i with
    | zero => rfl
    | succ i => simp [lengthTen, HeaderList.elts, HeaderList.parts] at hi
  held := by
    intro i hi
    obtain rfl : 0 = i := Option.some.inj hi
    exact ⟨⟨hashKeyLc name, name, ascii "10"⟩, rfl, rfl⟩

theorem lengthTen_agrees : Agrees lengthTen :=
  .inr ⟨ascii "10", 10, by decide, by decide, rfl⟩

theorem content_length_agrees_seven :
    ((∀ k, Agrees (exec (step fullBuild .request) lengthTen ([replaceWith "7"].take k)).1) ↔
        Meets (step fullBuild .request) ReqKeeps lengthTen [replaceWith "7"]) ∧
      (Meets (step fullBuild .request) ReqKeeps lengthTen [replaceWith "7"] →
        Meets (step fullBuild .request) (RefusalKeeps fullBuild .request) lengthTen
          [replaceWith "7"]) :=
  (content_length_agrees fullBuild).1 lengthTen [replaceWith "7"] lengthTen_shape
    lengthTen_agrees

/-- A value that is refused takes the number away and leaves the entry. -/
theorem refused_length_loses_number :
    ¬ ∀ (s : Numbered) (ops : List Op), Shape s.headers → Agrees s →
      Agrees (exec (step fullBuild .request) s ops).1 := by
  intro h
  have hrun := h lengthTen [replaceWith "abc"] lengthTen_shape lengthTen_agrees
  have hlive : entries (exec (step fullBuild .request) lengthTen [replaceWith "abc"]).1 ≠ [] := by
    decide
  have hnum : (exec (step fullBuild .request) lengthTen [replaceWith "abc"]).1.contentLengthN =
      -1 := by
    decide
  exact not_agrees hlive hnum hrun

end NgxWasm.Http.ContentLength
