import NgxWasm.Http.HeaderHandlers
import NgxWasm.Http.HeaderSet

/-!
# What removing a header leaves

The generic handler removes by the list, the handlers of builtin headers by the
pointer. A pointer that stays makes the next addition fail.
-/

namespace NgxWasm.Http.HeaderRemoval

open NgxWasm NgxWasm.ProxyWasm.Pairs NgxWasm.Http.Headers NgxWasm.Http.HeaderSet

/-! ### Live elements -/

/-- No element of key `key` is in use. -/
def NoneLive (key : Bytes) (l : List Elt) : Prop := ∀ e ∈ l, named key e = false

/-- The elements of key `key` that are in use have its hash. -/
def LiveHashed (key : Bytes) (l : List Elt) : Prop :=
  ∀ e ∈ l, named key e = true → e.hash = hashKeyLc key

/-- Only the element the pointer is at may be in use with key `key`. -/
def AtPointer (key : Bytes) (p : Option ℕ) (l : List Elt) : Prop :=
  ∀ (i : ℕ) e, l[i]? = some e → named key e = true → p = some i

theorem noneLive_valuesOf {key : Bytes} {l : List Elt} (h : NoneLive key l) :
    valuesOf key l = [] := valuesOf_miss h

theorem noneLive_get {key : Bytes} {l : List Elt} :
    NoneLive key l ↔ ∀ (i : ℕ) e, l[i]? = some e → named key e = false := by
  constructor
  · intro h i e he
    exact h e (List.mem_of_getElem? he)
  · intro h e he
    obtain ⟨i, hi⟩ := List.getElem?_of_mem he
    exact h i e hi

theorem named_zero_hash (key : Bytes) (e : Elt) : named key { e with hash := 0 } = false := by
  simp [named]

theorem clear_builtin (s : HeaderMap) (h : ℕ) : (s.clear h).builtin = s.builtin := by
  simp only [HeaderMap.clear]
  split <;> rfl

theorem clear_get_self (s : HeaderMap) (h : ℕ) :
    (s.clear h).list.elts[h]? = s.list.elts[h]?.map fun e => { e with hash := 0 } := by
  simp only [HeaderMap.clear]
  split
  next e he =>
    have hlt : h < s.list.elts.length := (List.getElem?_eq_some_iff.mp he).1
    rw [HeaderList.assign_elts, List.getElem?_set_self hlt, he]
    rfl
  next he =>
    rw [he]
    rfl

theorem clear_get_ne (s : HeaderMap) {h i : ℕ} (hne : h ≠ i) :
    (s.clear h).list.elts[i]? = s.list.elts[i]? := by
  simp only [HeaderMap.clear]
  split
  · rw [HeaderList.assign_elts, List.getElem?_set_ne hne]
  · rfl

/-- Clearing one element removes a key that is in use nowhere else. -/
theorem noneLive_clear {key : Bytes} {s : HeaderMap} {h : ℕ} :
    NoneLive key (s.clear h).list.elts ↔ AtPointer key (some h) s.list.elts := by
  rw [noneLive_get]
  constructor
  · intro hnone i e he hnamed
    by_contra hne
    have hhi : h ≠ i := fun heq => hne (by rw [heq])
    have hfalse := hnone i e (by rw [clear_get_ne s hhi]; exact he)
    rw [hfalse] at hnamed
    cases hnamed
  · intro hat i e he
    by_cases hhi : h = i
    · subst hhi
      rw [clear_get_self] at he
      obtain ⟨x, hx, rfl⟩ := Option.map_eq_some_iff.mp he
      exact named_zero_hash key x
    · rw [clear_get_ne s hhi] at he
      cases hn : named key e with
      | false => rfl
      | true => exact absurd (Option.some.inj (hat i e he hn)) hhi

theorem noneLive_of_nothing {key : Bytes} {l : List Elt} :
    AtPointer key none l ↔ NoneLive key l := by
  rw [noneLive_get]
  constructor
  · intro h i e he
    cases hn : named key e with
    | false => rfl
    | true => cases h i e he hn
  · intro h i e he hn
    rw [h i e he] at hn
    cases hn

/-- After a search that clears, a key is in use where its hash is another. -/
theorem noneLive_cleared {key : Bytes} {value : Option Bytes} {hv : HeaderSet}
    (hp : Prepared key value .remove hv) (l : List Elt) :
    NoneLive (escape .headerName key) (l.map (cleared hv)) ↔
      LiveHashed (escape .headerName key) l := by
  have hhits : ∀ e, named (escape .headerName key) e = true →
      (hv.hits e = true ↔ e.hash = hashKeyLc (escape .headerName key)) := by
    intro e hn
    simp only [named, Bool.and_eq_true, decide_eq_true_eq] at hn
    rw [hp.hits_iff]
    constructor
    · intro h
      exact h.1
    · intro h
      exact ⟨h, hn.2⟩
  constructor
  · intro h e he hn
    apply (hhits e hn).mp
    by_contra hmiss
    have hfalse := h (cleared hv e) (List.mem_map_of_mem he)
    rw [cleared, if_neg hmiss, hn] at hfalse
    cases hfalse
  · intro h x hx
    obtain ⟨e, he, rfl⟩ := List.mem_map.mp hx
    cases hn : named (escape .headerName key) e with
    | true =>
      rw [cleared, if_pos ((hhits e hn).mpr (h e he hn))]
      exact named_zero_hash _ e
    | false =>
      simp only [cleared]
      split
      · exact named_zero_hash _ e
      · exact hn

/-! ### Additions -/

structure Roomy (pool : Pool) : Prop where
  push : pool.push = true
  lowcase : pool.lowcase = true
  key : pool.key = true
  value : pool.value = true

theorem newHeader_roomy {pool : Pool} (hroom : Roomy pool) (hv : HeaderSet)
    (list : HeaderList) :
    newHeader pool hv list = (.ok, list.push pool.nalloc hv.elt, some (some list.elts.length)) := by
  simp only [newHeader, hroom.push, hroom.lowcase, if_true]

theorem copyEscaped_roomy (kind : EscapeKind) (dst : Bytes) :
    copyEscaped kind true dst = some (escape kind dst) := by
  simp [copyEscaped]

def handlerOf (table : List Handler) (key : Bytes) : Handler :=
  (table.find? (·.serves (escape .headerName key))).getD
    ⟨escape .headerName key, .none, .header⟩

def headerSet (table : List Handler) (key : Bytes) (value : Option Bytes) (mode : Mode) : HeaderSet :=
  ⟨(handlerOf table key).name, if mode = .remove then none else value.map (escape .headerValue),
    hashKeyLc (escape .headerName key), mode⟩

theorem prepare_roomy {pool : Pool} (hroom : Roomy pool) (table : List Handler) (key : Bytes)
    (value : Option Bytes) (mode : Mode) :
    prepare pool table key value mode =
      some (handlerOf table key, headerSet table key value mode) := by
  have hvalue : copyValue pool value = some (value.map (escape .headerValue)) := by
    cases value with
    | none => rfl
    | some v => simp only [copyValue, hroom.value, copyEscaped_roomy, Option.map_some]
  simp only [prepare, hroom.key, copyEscaped_roomy, hvalue, handlerOf, headerSet]

theorem headerSet_prepared (table : List Handler) (key : Bytes) (value : Option Bytes) (mode : Mode) :
    Prepared key value mode (headerSet table key value mode) := by
  have hroom : Roomy ⟨0, true, true, true, true⟩ := ⟨rfl, rfl, rfl, rfl⟩
  exact prepare_spec (prepare_roomy hroom table key value mode)

/-- The values after an element is pushed whose key nothing in the list has. -/
theorem valuesOf_push {key value : Bytes} {mode : Mode} {hv : HeaderSet} {list : HeaderList}
    (hp : Prepared key (some value) mode hv) (hmode : mode ≠ .remove) (nalloc : ℕ)
    (hnone : NoneLive (escape .headerName key) list.elts) :
    valuesOf (escape .headerName key) (list.push nalloc hv.elt).elts =
      if hashKeyLc (escape .headerName key) = 0 then [] else [escape .headerValue value] := by
  have hvalue : hv.elt.value = escape .headerValue value := by
    simp [HeaderSet.elt, hp.value, hmode]
  rw [HeaderList.push_elts, valuesOf_append, noneLive_valuesOf hnone, valuesOf_cons, hvalue,
    List.nil_append]
  have hnamed : named (escape .headerName key) hv.elt = true ↔
      hashKeyLc (escape .headerName key) ≠ 0 := by
    simp only [named, HeaderSet.elt, hp.hash, Bool.and_eq_true, bne_iff_ne, decide_eq_true_eq]
    exact ⟨fun h => h.1, fun h => ⟨h, hp.same⟩⟩
  by_cases hhash : hashKeyLc (escape .headerName key) = 0
  · rw [if_pos hhash, if_neg (by rw [hnamed]; simp [hhash])]
    rfl
  · rw [if_neg hhash, if_pos (hnamed.mpr hhash)]
    rfl

/-! ### Removal and addition of one key -/

/-- What makes a value valid for a handler. -/
def ValidFor (h : Handler) (value : Bytes) : Prop :=
  match h.setter with
  | .reqContentLength => atoof value ≠ none
  | .respContentLength => atoof value ≠ none
  | .contentType => value ≠ []
  | _ => True

/-- The values of a key. The response's content type has a place of its own. -/
def visible (h : Handler) (key : Bytes) (s : HeaderMap) : List Bytes :=
  valuesOf key s.list.elts ++
    if h.setter = .contentType ∧ s.contentType ≠ [] then [s.contentType] else []

/-- An addition makes a valid value the only one of its key. -/
def AddsOnly (select : Bool) (table : List Handler) (key : Bytes) (s : HeaderMap) : Prop :=
  ∀ value pool, Roomy pool → ValidFor (handlerOf table key) (escape .headerValue value) →
    ∃ rc s', setHeader pool select table key (some value) .append s = .ok (rc, s') ∧
      visible (handlerOf table key) (escape .headerName key) s' = [escape .headerValue value]

/-- A removal returns, leaves no element of its key in use, and an addition can follow. -/
def RemovalSound (pool : Pool) (select : Bool) (table : List Handler) (key : Bytes)
    (s : HeaderMap) : Prop :=
  ∃ s', setHeader pool select table key none .remove s = .ok (.ok, s') ∧
    NoneLive (escape .headerName key) s'.list.elts ∧ AddsOnly select table key s'

/-- The pointer the handler keeps is at an element whose value is a path. -/
def PathAt (p : Option ℕ) (l : List Elt) : Prop :=
  ∀ i, p = some i → ∃ e, l[i]? = some e ∧ e.value.head? = some 47

def RemovalOk (select : Bool) (table : List Handler) (key : Bytes) (s : HeaderMap) : Prop :=
  let stored := escape .headerName key
  let p := s.builtin (handlerOf table key).offset
  let l := s.list.elts
  match (handlerOf table key).setter with
  | .header => hashKeyLc stored ≠ 0 ∧ LiveHashed stored l
  | .reqMulti | .respMulti =>
    hashKeyLc stored ≠ 0 ∧ LiveHashed stored l ∧ ∃ e ∈ l, named stored e = true
  | .builtin | .reqConnection | .userAgent | .reqContentLength =>
    hashKeyLc stored ≠ 0 ∧ p = none ∧ NoneLive stored l
  | .host => select = false ∧ hashKeyLc stored ≠ 0 ∧ p = none ∧ NoneLive stored l
  | .location => hashKeyLc stored ≠ 0 ∧ AtPointer stored p l ∧ PathAt p l
  | .lastModified | .respContentLength => hashKeyLc stored ≠ 0 ∧ AtPointer stored p l
  | .contentType => NoneLive stored l
  | .respConnection => False

section
variable {pool : Pool} {select : Bool} {table : List Handler} {key : Bytes} {s : HeaderMap}

theorem setHeader_roomy (hroom : Roomy pool) (value : Option Bytes) (mode : Mode) :
    setHeader pool select table key value mode s =
      handle pool select (handlerOf table key) (headerSet table key value mode) s := by
  rw [setHeader, prepare_roomy hroom]

/-- The map after a builtin header was removed by its pointer. -/
def removed (offset : Field) (s : HeaderMap) : HeaderMap :=
  match s.builtin offset with
  | none => s
  | some h => s.clear h

theorem setBuiltinHeader_remove (offset : Field) {hv : HeaderSet} (hmode : hv.mode = .remove) :
    setBuiltinHeader pool offset hv s = .ok (.ok, removed offset s) := by
  cases hp : s.builtin offset <;> simp only [setBuiltinHeader, removed, hp, hmode]

theorem removed_builtin (offset : Field) : (removed offset s).builtin = s.builtin := by
  cases hp : s.builtin offset <;> simp only [removed, hp, clear_builtin]

theorem noneLive_removed (offset : Field) :
    NoneLive key (removed offset s).list.elts ↔
      AtPointer key (s.builtin offset) s.list.elts := by
  cases hp : s.builtin offset with
  | none => simp only [removed, hp, noneLive_of_nothing]
  | some h => simp only [removed, hp, noneLive_clear]

theorem clearBuiltin_elts (offset : Field) :
    (clearBuiltin offset s).list.elts = (removed offset s).list.elts := by
  cases hp : s.builtin offset <;> simp only [clearBuiltin, removed, hp]

theorem clearBuiltin_builtin (offset : Field) : (clearBuiltin offset s).builtin offset = none := by
  cases hp : s.builtin offset <;> simp [clearBuiltin, hp]

/-- Setters whose addition is the one of a builtin header. -/
def pointed (select : Bool) : Setter → Bool
  | .builtin | .reqConnection | .userAgent | .reqContentLength | .location | .lastModified
  | .respContentLength => true
  | .host => !select
  | _ => false

theorem setBuiltinHeader_append (hroom : Roomy pool) (offset : Field) {hv : HeaderSet}
    (hmode : hv.mode = .append) :
    ∃ rc s', setBuiltinHeader pool offset hv s = .ok (rc, s') ∧
      s'.list = if s.builtin offset = none then s.list.push pool.nalloc hv.elt else s.list := by
  cases hp : s.builtin offset with
  | none =>
    refine ⟨.ok, { s with
      list := s.list.push pool.nalloc hv.elt
      builtin := Function.update s.builtin offset (some s.list.elts.length) }, ?_, ?_⟩
    · simp only [setBuiltinHeader, hp, hmode, helper_append pool hv s.list hmode,
        newHeader_roomy hroom]
    · simp
  | some h =>
    refine ⟨.declined, s, ?_, ?_⟩
    · simp only [setBuiltinHeader, hp, hmode]
    · simp

theorem handle_append_pointed (hroom : Roomy pool) (h : Handler) (hv : HeaderSet)
    (hmode : hv.mode = .append) (hpointed : pointed select h.setter = true)
    (hvalid : ValidFor h (hv.value.getD [])) :
    ∃ rc s', handle pool select h hv s = .ok (rc, s') ∧
      s'.list = if s.builtin h.offset = none then s.list.push pool.nalloc hv.elt else s.list := by
  obtain ⟨rc, s', hset, hlist⟩ := setBuiltinHeader_append (s := s) hroom h.offset hmode
  have hset' : ∃ rc s', setBuiltinHeader pool h.offset hv s = .ok (rc, s') ∧
      s'.list = if s.builtin h.offset = none then s.list.push pool.nalloc hv.elt else s.list :=
    ⟨rc, s', hset, hlist⟩
  cases hsetter : h.setter <;> simp only [pointed, hsetter, Bool.false_eq_true] at hpointed
  case builtin => simpa only [handle, hsetter] using hset'
  case host =>
    have hselect : select = false := by simpa using hpointed
    simpa only [handle, hsetter, setHostHeader, hselect, Bool.false_eq_true, if_false] using hset'
  case reqConnection => simpa only [handle, hsetter] using hset'
  case userAgent => simpa only [handle, hsetter] using hset'
  case reqContentLength =>
    simp only [ValidFor, hsetter] at hvalid
    have hne : hv.value.getD [] ≠ [] := by
      intro hnil
      rw [hnil] at hvalid
      exact hvalid rfl
    obtain ⟨n, hn⟩ := Option.ne_none_iff_exists'.mp hvalid
    simp only [handle, hsetter, setReqContentLength, if_pos hne, hn]
    exact hset'
  case location =>
    simp only [handle, hsetter, setLocationHeader, hset]
    cases rc with
    | ok =>
      simp only
      split
      · split
        · exact ⟨_, _, rfl, hlist⟩
        · exact ⟨_, _, rfl, hlist⟩
      · exact ⟨_, _, rfl, hlist⟩
    | _ => exact ⟨_, _, rfl, hlist⟩
  case lastModified =>
    simp only [handle, hsetter, setLastModified, hmode, reduceCtorEq, if_false]
    exact hset'
  case respContentLength =>
    simp only [ValidFor, hsetter] at hvalid
    obtain ⟨n, hn⟩ := Option.ne_none_iff_exists'.mp hvalid
    simp only [handle, hsetter, setRespContentLength, hmode, reduceCtorEq, if_false, hn]
    exact hset'

/-- `0` is a valid value for every handler. -/
theorem zero_valid (h : Handler) : ValidFor h (escape .headerValue [48]) := by
  have hescape : escape .headerValue [48] = [48] := rfl
  have hatoof : atoof [48] ≠ none := by decide
  rw [hescape]
  cases hsetter : h.setter <;> simp only [ValidFor, hsetter] <;> first | exact hatoof | simp

theorem visible_values {h : Handler} (hsetter : h.setter ≠ .contentType) (key : Bytes)
    (s : HeaderMap) : visible h key s = valuesOf key s.list.elts := by
  simp [visible, hsetter]

theorem addsOnly_pointed (hpointed : pointed select (handlerOf table key).setter = true)
    (hnone : NoneLive (escape .headerName key) s.list.elts) :
    AddsOnly select table key s ↔
      hashKeyLc (escape .headerName key) ≠ 0 ∧ s.builtin (handlerOf table key).offset = none := by
  have hsetter : (handlerOf table key).setter ≠ .contentType := by
    intro h
    rw [h] at hpointed
    cases hpointed
  have hadd : ∀ value pool, Roomy pool →
      ValidFor (handlerOf table key) (escape .headerValue value) →
      ∃ rc s', setHeader pool select table key (some value) .append s = .ok (rc, s') ∧
        valuesOf (escape .headerName key) s'.list.elts =
          if hashKeyLc (escape .headerName key) ≠ 0 ∧
              s.builtin (handlerOf table key).offset = none then [escape .headerValue value]
          else [] := by
    intro value pool hroom hvalid
    obtain ⟨rc, s', hset, hlist⟩ := handle_append_pointed (s := s) hroom
      (handlerOf table key) (headerSet table key (some value) .append) rfl hpointed hvalid
    refine ⟨rc, s', by rw [setHeader_roomy hroom]; exact hset, ?_⟩
    have hp := headerSet_prepared table key (some value) .append
    rw [hlist]
    by_cases hnull : s.builtin (handlerOf table key).offset = none
    · rw [if_pos hnull, valuesOf_push hp (by decide) _ hnone]
      by_cases hhash : hashKeyLc (escape .headerName key) = 0
      · rw [if_pos hhash, if_neg (by simp [hhash])]
      · rw [if_neg hhash, if_pos ⟨hhash, hnull⟩]
    · rw [if_neg hnull, if_neg (by simp [hnull]), noneLive_valuesOf hnone]
  constructor
  · intro h
    have hroom : Roomy ⟨0, true, true, true, true⟩ := ⟨rfl, rfl, rfl, rfl⟩
    obtain ⟨rc, s', hset, hvisible⟩ := h [48] _ hroom (zero_valid _)
    obtain ⟨rc', s'', hset', hvalues⟩ := hadd [48] _ hroom (zero_valid _)
    rw [hset'] at hset
    cases hset
    rw [visible_values hsetter, hvalues] at hvisible
    by_contra hcond
    rw [if_neg hcond] at hvisible
    cases hvisible
  · intro hcond value pool hroom hvalid
    obtain ⟨rc, s', hset, hvalues⟩ := hadd value pool hroom hvalid
    refine ⟨rc, s', hset, ?_⟩
    rw [visible_values hsetter, hvalues, if_pos hcond]

/-- The generic handler and the ones of headers with several values add by the list. -/
def listed : Setter → Bool
  | .header | .reqMulti | .respMulti => true
  | _ => false

theorem handle_append_listed (hroom : Roomy pool) (h : Handler) (hv : HeaderSet)
    (hmode : hv.mode = .append) (hlisted : listed h.setter = true) :
    handle pool select h hv s =
      .ok (.ok, { s with list := s.list.push pool.nalloc hv.elt }) := by
  have hhelper := helper_append pool hv s.list hmode
  rw [newHeader_roomy hroom] at hhelper
  cases hsetter : h.setter <;> simp only [listed, hsetter, Bool.false_eq_true] at hlisted
  case header => simp only [handle, hsetter, setHeaderHandler, hhelper]
  case reqMulti => simp only [handle, hsetter, setMultiHeader, hhelper]
  case respMulti => simp only [handle, hsetter, setMultiHeader, hhelper]

theorem addsOnly_listed (hlisted : listed (handlerOf table key).setter = true)
    (hnone : NoneLive (escape .headerName key) s.list.elts) :
    AddsOnly select table key s ↔ hashKeyLc (escape .headerName key) ≠ 0 := by
  have hsetter : (handlerOf table key).setter ≠ .contentType := by
    intro h
    rw [h] at hlisted
    cases hlisted
  have hadd : ∀ value pool, Roomy pool →
      ∃ s', setHeader pool select table key (some value) .append s = .ok (.ok, s') ∧
        valuesOf (escape .headerName key) s'.list.elts =
          if hashKeyLc (escape .headerName key) = 0 then [] else [escape .headerValue value] := by
    intro value pool hroom
    refine ⟨_, by rw [setHeader_roomy hroom, handle_append_listed hroom _ _ rfl hlisted], ?_⟩
    exact valuesOf_push (headerSet_prepared table key (some value) .append) (by decide) _ hnone
  constructor
  · intro h hhash
    have hroom : Roomy ⟨0, true, true, true, true⟩ := ⟨rfl, rfl, rfl, rfl⟩
    obtain ⟨rc, s', hset, hvisible⟩ := h [48] _ hroom (zero_valid _)
    obtain ⟨s'', hset', hvalues⟩ := hadd [48] _ hroom
    rw [hset'] at hset
    cases hset
    rw [visible_values hsetter, hvalues, if_pos hhash] at hvisible
    cases hvisible
  · intro hhash value pool hroom _
    obtain ⟨s', hset, hvalues⟩ := hadd value pool hroom
    refine ⟨.ok, s', hset, ?_⟩
    rw [visible_values hsetter, hvalues, if_neg hhash]

theorem addsOnly_contentType (hsetter : (handlerOf table key).setter = .contentType)
    (hnone : NoneLive (escape .headerName key) s.list.elts) : AddsOnly select table key s := by
  intro value pool hroom hvalid
  simp only [ValidFor, hsetter] at hvalid
  refine ⟨.ok, { s with contentType := escape .headerValue value }, ?_, ?_⟩
  · rw [setHeader_roomy hroom]
    simp only [handle, hsetter, setContentType, headerSet]
    rfl
  · simp only [visible, hsetter, noneLive_valuesOf hnone]
    rw [if_pos ⟨trivial, hvalid⟩]
    rfl

theorem not_addsOnly_select (hsetter : (handlerOf table key).setter = .host)
    (hnone : NoneLive (escape .headerName key) s.list.elts) : ¬ AddsOnly true table key s := by
  intro h
  have hroom : Roomy ⟨0, true, true, true, true⟩ := ⟨rfl, rfl, rfl, rfl⟩
  obtain ⟨rc, s', hset, hvisible⟩ := h [48] _ hroom (zero_valid _)
  rw [setHeader_roomy hroom] at hset
  simp only [handle, hsetter, setHostHeader, if_true] at hset
  cases hset
  rw [visible_values (by simp [hsetter]), noneLive_valuesOf hnone] at hvisible
  cases hvisible

/-! ### Removal, by the handler of the key -/

/-- The escaped key has its memory, where it needs one. -/
def Copied (pool : Pool) (key : Bytes) : Prop := copyEscaped .headerName pool.key key ≠ none

theorem setHeader_remove (hcopy : Copied pool key) :
    setHeader pool select table key none .remove s =
      handle pool select (handlerOf table key) (headerSet table key none .remove) s := by
  obtain ⟨key', hkey⟩ := Option.ne_none_iff_exists'.mp hcopy
  have heq := copyEscaped_eq hkey
  subst heq
  simp only [setHeader, prepare, hkey, copyValue, handlerOf, headerSet, if_true]

theorem sound_iff (hcopy : Copied pool key) {r : Handled}
    (hr : handle pool select (handlerOf table key) (headerSet table key none .remove) s = r) :
    RemovalSound pool select table key s ↔
      ∃ s', r = .ok (.ok, s') ∧ NoneLive (escape .headerName key) s'.list.elts ∧
        AddsOnly select table key s' := by
  rw [RemovalSound, setHeader_remove hcopy, hr]

theorem sound_iff_of_returns (hcopy : Copied pool key) {s' : HeaderMap}
    (hr : handle pool select (handlerOf table key) (headerSet table key none .remove) s =
      .ok (.ok, s')) :
    RemovalSound pool select table key s ↔
      NoneLive (escape .headerName key) s'.list.elts ∧ AddsOnly select table key s' := by
  rw [sound_iff hcopy hr]
  constructor
  · rintro ⟨s'', heq, h⟩
    cases heq
    exact h
  · intro h
    exact ⟨s', rfl, h⟩

theorem not_sound_of_fault (hcopy : Copied pool key) {fault : Fault}
    (hr : handle pool select (handlerOf table key) (headerSet table key none .remove) s =
      .error fault) : ¬ RemovalSound pool select table key s := by
  rw [sound_iff hcopy hr]
  rintro ⟨s', heq, -⟩
  cases heq

/-- The removal by the list, in the generic handler. -/
theorem removal_header (hcopy : Copied pool key) (hsetter : (handlerOf table key).setter = .header) :
    RemovalSound pool select table key s ↔
      hashKeyLc (escape .headerName key) ≠ 0 ∧
        LiveHashed (escape .headerName key) s.list.elts := by
  have hp := headerSet_prepared table key none .remove
  have hlisted : listed (handlerOf table key).setter = true := by rw [hsetter]; rfl
  by_cases hhash : hashKeyLc (escape .headerName key) = 0
  · have hzero : (headerSet table key none .remove).hash = 0 := hhash
    have hno : ¬ RemovalSound pool select table key s := by
      by_cases hhit : ∃ e ∈ s.list.elts, (headerSet table key none .remove).hits e = true
      · apply not_sound_of_fault hcopy
        simp only [handle, hsetter, setHeaderHandler,
          (helper_endless pool _ s.list hzero rfl hhit).1]
        rfl
      · have hmiss : ∀ e ∈ s.list.elts, (headerSet table key none .remove).hits e = false := by
          intro e he
          cases h : (headerSet table key none .remove).hits e with
          | false => rfl
          | true => exact absurd ⟨e, he, h⟩ hhit
        have hr : handle pool select (handlerOf table key) (headerSet table key none .remove) s =
            .ok (.ok, { s with list := s.list }) := by
          simp only [handle, hsetter, setHeaderHandler, helper_remove_miss pool _ s.list rfl hmiss]
        rw [sound_iff_of_returns hcopy hr]
        rintro ⟨hnone, hadds⟩
        exact (addsOnly_listed hlisted hnone).mp hadds hhash
    constructor
    · intro h
      exact absurd h hno
    · intro h
      exact absurd hhash h.1
  · obtain ⟨list', hhelper, hlist'⟩ :=
      helper_remove pool (headerSet table key none .remove) s.list rfl hhash
    have hr : handle pool select (handlerOf table key) (headerSet table key none .remove) s =
        .ok (.ok, { s with list := list' }) := by
      simp only [handle, hsetter, setHeaderHandler, hhelper]
    rw [sound_iff_of_returns hcopy hr]
    simp only [hlist', noneLive_cleared hp]
    constructor
    · intro h
      exact ⟨hhash, h.1⟩
    · intro h
      refine ⟨h.2, (addsOnly_listed hlisted ?_).mpr hhash⟩
      simp only [hlist']
      exact (noneLive_cleared hp _).mpr h.2

/-- The handlers of headers with several values use what the helper found. -/
theorem removal_multi (hcopy : Copied pool key)
    (hsetter : (handlerOf table key).setter = .reqMulti ∨
      (handlerOf table key).setter = .respMulti) :
    RemovalSound pool select table key s ↔
      hashKeyLc (escape .headerName key) ≠ 0 ∧
        LiveHashed (escape .headerName key) s.list.elts ∧
        ∃ e ∈ s.list.elts, named (escape .headerName key) e = true := by
  have hp := headerSet_prepared table key none .remove
  have hlisted : listed (handlerOf table key).setter = true := by
    rcases hsetter with h | h <;> rw [h] <;> rfl
  have hmulti : handle pool select (handlerOf table key) (headerSet table key none .remove) s =
      setMultiHeader pool (headerSet table key none .remove) s := by
    rcases hsetter with h | h <;> simp only [handle, h]
  by_cases hhit : ∃ e ∈ s.list.elts, (headerSet table key none .remove).hits e = true
  · by_cases hhash : hashKeyLc (escape .headerName key) = 0
    · have hzero : (headerSet table key none .remove).hash = 0 := hhash
      have hno : ¬ RemovalSound pool select table key s := by
        apply not_sound_of_fault hcopy
        rw [hmulti]
        simp only [setMultiHeader, (helper_endless pool _ s.list hzero rfl hhit).1]
        rfl
      constructor
      · intro h
        exact absurd h hno
      · intro h
        exact absurd hhash h.1
    · obtain ⟨list', hhelper, hlist'⟩ :=
        helper_remove pool (headerSet table key none .remove) s.list rfl hhash
      have hany : s.list.elts.any (headerSet table key none .remove).hits = true := by
        simpa using hhit
      rw [if_pos hany] at hhelper
      have hr : handle pool select (handlerOf table key) (headerSet table key none .remove) s =
          .ok (.ok, { s with list := list' }) := by
        rw [hmulti]
        simp only [setMultiHeader, hhelper]
      have hnamed : ∃ e ∈ s.list.elts, named (escape .headerName key) e = true := by
        obtain ⟨e, he, hh⟩ := hhit
        have heq := (hp.hits_iff e).mp hh
        refine ⟨e, he, ?_⟩
        simp only [named, Bool.and_eq_true, bne_iff_ne, decide_eq_true_eq]
        exact ⟨heq.1 ▸ hhash, heq.2⟩
      rw [sound_iff_of_returns hcopy hr]
      simp only [hlist', noneLive_cleared hp]
      constructor
      · intro h
        exact ⟨hhash, h.1, hnamed⟩
      · intro h
        refine ⟨h.2.1, (addsOnly_listed hlisted ?_).mpr hhash⟩
        simp only [hlist']
        exact (noneLive_cleared hp _).mpr h.2.1
  · have hmiss : ∀ e ∈ s.list.elts, (headerSet table key none .remove).hits e = false := by
      intro e he
      cases h : (headerSet table key none .remove).hits e with
      | false => rfl
      | true => exact absurd ⟨e, he, h⟩ hhit
    have hno : ¬ RemovalSound pool select table key s := by
      apply not_sound_of_fault hcopy
      rw [hmulti]
      simp only [setMultiHeader, helper_remove_miss pool _ s.list rfl hmiss]
      rfl
    constructor
    · intro h
      exact absurd h hno
    · rintro ⟨hhash, hlive, e, he, hn⟩
      have hsame : SameKey (escape .headerName key) e.key := by
        simp only [named, Bool.and_eq_true, decide_eq_true_eq] at hn
        exact hn.2
      have htrue := (hp.hits_iff e).mpr ⟨hlive e he hn, hsame⟩
      rw [hmiss e he] at htrue
      cases htrue

/-- The removal by the pointer, which stays. -/
theorem removal_pointed (hcopy : Copied pool key)
    (hpointed : pointed select (handlerOf table key).setter = true)
    (hr : handle pool select (handlerOf table key) (headerSet table key none .remove) s =
      .ok (.ok, removed (handlerOf table key).offset s)) :
    RemovalSound pool select table key s ↔
      hashKeyLc (escape .headerName key) ≠ 0 ∧
        s.builtin (handlerOf table key).offset = none ∧
        NoneLive (escape .headerName key) s.list.elts := by
  rw [sound_iff_of_returns hcopy hr]
  constructor
  · rintro ⟨hnone, hadds⟩
    obtain ⟨hhash, hnull⟩ := (addsOnly_pointed hpointed hnone).mp hadds
    rw [removed_builtin] at hnull
    rw [noneLive_removed, hnull, noneLive_of_nothing] at hnone
    exact ⟨hhash, hnull, hnone⟩
  · rintro ⟨hhash, hnull, hnone⟩
    have hnone' : NoneLive (escape .headerName key)
        (removed (handlerOf table key).offset s).list.elts := by
      rw [noneLive_removed, hnull, noneLive_of_nothing]
      exact hnone
    refine ⟨hnone', (addsOnly_pointed hpointed hnone').mpr ⟨hhash, ?_⟩⟩
    rw [removed_builtin, hnull]

/-- The removals that put the pointer to `NULL`. -/
theorem removal_cleared (hcopy : Copied pool key)
    (hpointed : pointed select (handlerOf table key).setter = true)
    (hr : handle pool select (handlerOf table key) (headerSet table key none .remove) s =
      .ok (.ok, clearBuiltin (handlerOf table key).offset s)) :
    RemovalSound pool select table key s ↔
      hashKeyLc (escape .headerName key) ≠ 0 ∧
        AtPointer (escape .headerName key) (s.builtin (handlerOf table key).offset)
          s.list.elts := by
  rw [sound_iff_of_returns hcopy hr]
  have hnull := clearBuiltin_builtin (s := s) (handlerOf table key).offset
  have hiff : NoneLive (escape .headerName key)
      (clearBuiltin (handlerOf table key).offset s).list.elts ↔
        AtPointer (escape .headerName key) (s.builtin (handlerOf table key).offset)
          s.list.elts := by
    rw [clearBuiltin_elts, noneLive_removed]
  constructor
  · rintro ⟨hnone, hadds⟩
    exact ⟨((addsOnly_pointed hpointed hnone).mp hadds).1, hiff.mp hnone⟩
  · rintro ⟨hhash, hat⟩
    exact ⟨hiff.mpr hat, (addsOnly_pointed hpointed (hiff.mpr hat)).mpr ⟨hhash, hnull⟩⟩

/-- The state that `ngx_http_set_location_header_handler` leaves after a removal. -/
def removedLocation (offset : Field) (s : HeaderMap) : HeaderMap :=
  match (s.builtin offset).bind fun h => (removed offset s).list.elts[h]? with
  | some e =>
    if e.value.head? = some 47 then
      { removed offset s with builtin := Function.update s.builtin offset none }
    else removed offset s
  | none => removed offset s

theorem setLocationHeader_remove (offset : Field) {hv : HeaderSet} (hmode : hv.mode = .remove) :
    setLocationHeader pool offset hv s = .ok (.ok, removedLocation offset s) := by
  simp only [setLocationHeader, setBuiltinHeader_remove offset hmode, removedLocation,
    removed_builtin]
  cases (s.builtin offset).bind fun h => (removed offset s).list.elts[h]? with
  | none => rfl
  | some e =>
    simp only
    split <;> rfl

theorem removedLocation_elts (offset : Field) :
    (removedLocation offset s).list.elts = (removed offset s).list.elts := by
  simp only [removedLocation]
  split
  · split <;> rfl
  · rfl

theorem removedLocation_builtin (offset : Field) :
    (removedLocation offset s).builtin offset = none ↔ PathAt (s.builtin offset) s.list.elts := by
  cases hp : s.builtin offset with
  | none =>
    simp only [removedLocation, hp, Option.bind_none, removed_builtin, PathAt, reduceCtorEq,
      false_imp_iff, implies_true]
  | some h =>
    have hget : (removed offset s).list.elts[h]? =
        s.list.elts[h]?.map fun e => { e with hash := 0 } := by
      simp only [removed, hp]
      exact clear_get_self s h
    simp only [removedLocation, hp, Option.bind_some, hget]
    cases he : s.list.elts[h]? with
    | none =>
      simp only [Option.map_none, removed_builtin, hp, reduceCtorEq, false_iff]
      intro hpath
      obtain ⟨e, hsome, -⟩ := hpath h rfl
      rw [he] at hsome
      cases hsome
    | some e =>
      simp only [Option.map_some]
      split
      next hslash =>
        simp only [Function.update_self, true_iff]
        intro i hi
        rw [← Option.some.inj hi]
        exact ⟨e, he, hslash⟩
      next hslash =>
        simp only [removed_builtin, hp, reduceCtorEq, false_iff]
        intro hpath
        obtain ⟨x, hx, hxslash⟩ := hpath h rfl
        rw [he] at hx
        rw [← Option.some.inj hx] at hxslash
        exact hslash hxslash

theorem removal_location (hcopy : Copied pool key)
    (hsetter : (handlerOf table key).setter = .location) :
    RemovalSound pool select table key s ↔
      hashKeyLc (escape .headerName key) ≠ 0 ∧
        AtPointer (escape .headerName key) (s.builtin (handlerOf table key).offset)
          s.list.elts ∧
        PathAt (s.builtin (handlerOf table key).offset) s.list.elts := by
  have hpointed : pointed select (handlerOf table key).setter = true := by rw [hsetter]; rfl
  have hr : handle pool select (handlerOf table key) (headerSet table key none .remove) s =
      .ok (.ok, removedLocation (handlerOf table key).offset s) := by
    simp only [handle, hsetter]
    exact setLocationHeader_remove _ rfl
  have hiff : NoneLive (escape .headerName key)
      (removedLocation (handlerOf table key).offset s).list.elts ↔
        AtPointer (escape .headerName key) (s.builtin (handlerOf table key).offset)
          s.list.elts := by
    rw [removedLocation_elts, noneLive_removed]
  rw [sound_iff_of_returns hcopy hr]
  constructor
  · rintro ⟨hnone, hadds⟩
    obtain ⟨hhash, hnull⟩ := (addsOnly_pointed hpointed hnone).mp hadds
    exact ⟨hhash, hiff.mp hnone, (removedLocation_builtin _).mp hnull⟩
  · rintro ⟨hhash, hat, hpath⟩
    exact ⟨hiff.mpr hat, (addsOnly_pointed hpointed (hiff.mpr hat)).mpr
      ⟨hhash, (removedLocation_builtin _).mpr hpath⟩⟩

theorem removal_iff (hcopy : Copied pool key) :
    RemovalSound pool select table key s ↔ RemovalOk select table key s := by
  have hremove : ∀ offset, setBuiltinHeader pool offset (headerSet table key none .remove) s =
      .ok (.ok, removed offset s) := fun offset => setBuiltinHeader_remove offset rfl
  cases hsetter : (handlerOf table key).setter <;> simp only [RemovalOk, hsetter]
  case header => exact removal_header hcopy hsetter
  case builtin =>
    apply removal_pointed hcopy (by rw [hsetter]; rfl)
    simp only [handle, hsetter, hremove]
  case host =>
    cases hselect : select with
    | true =>
      have hr : handle pool true (handlerOf table key) (headerSet table key none .remove) s =
          .ok (.ok, s) := by
        simp only [handle, hsetter, setHostHeader, if_true]
      rw [sound_iff_of_returns hcopy hr]
      simp only [Bool.true_eq_false, false_and, iff_false, not_and]
      intro hnone
      exact not_addsOnly_select hsetter hnone
    | false =>
      simp only [true_and]
      apply removal_pointed hcopy (by rw [hsetter]; rfl)
      simp only [handle, hsetter, setHostHeader, Bool.false_eq_true, if_false, hremove]
  case reqConnection =>
    apply removal_pointed hcopy (by rw [hsetter]; rfl)
    simp only [handle, hsetter, hremove]
  case userAgent =>
    apply removal_pointed hcopy (by rw [hsetter]; rfl)
    simp only [handle, hsetter, hremove]
  case reqContentLength =>
    apply removal_pointed hcopy (by rw [hsetter]; rfl)
    have hvalue : (headerSet table key none .remove).value.getD [] = [] := rfl
    have hmode : (headerSet table key none .remove).mode ≠ .append := by simp [headerSet]
    simp only [handle, hsetter, setReqContentLength, hvalue, ne_eq, not_true_eq_false, if_false,
      if_neg hmode, hremove]
  case reqMulti => exact removal_multi hcopy (.inl hsetter)
  case location => exact removal_location hcopy hsetter
  case lastModified =>
    apply removal_cleared hcopy (by rw [hsetter]; rfl)
    simp only [handle, hsetter, setLastModified, headerSet, if_true]
  case respContentLength =>
    apply removal_cleared hcopy (by rw [hsetter]; rfl)
    simp only [handle, hsetter, setRespContentLength, headerSet, if_true]
  case contentType =>
    have hr : handle pool select (handlerOf table key) (headerSet table key none .remove) s =
        .ok (.ok, { s with contentType := [] }) := by
      simp only [handle, hsetter, setContentType]
      rfl
    rw [sound_iff_of_returns hcopy hr]
    constructor
    · intro h
      exact h.1
    · intro h
      exact ⟨h, addsOnly_contentType hsetter h⟩
  case respMulti => exact removal_multi hcopy (.inr hsetter)
  case respConnection =>
    rw [iff_false]
    apply not_sound_of_fault hcopy
    simp only [handle, hsetter, setRespConnection]
    rfl

/-- By the handler of a key, when its removal is sound. -/
theorem removalSound_iff :
    RemovalSound pool select table key s ↔ Copied pool key ∧ RemovalOk select table key s := by
  by_cases hcopy : Copied pool key
  · rw [removal_iff hcopy]
    exact ⟨fun h => ⟨hcopy, h⟩, fun h => h.2⟩
  · have hnone : copyEscaped .headerName pool.key key = none := by
      by_contra h
      exact hcopy h
    constructor
    · rintro ⟨s', hset, -⟩
      simp only [setHeader, prepare, hnone] at hset
      cases hset
    · intro h
      exact absurd h.1 hcopy

/-! ### Clearing all headers -/

/-- The removal that the loop makes for the element at place `i` takes it away. -/
def Clears (pool : Pool) (select : Bool) (table : List Handler) (s : HeaderMap) (i : ℕ)
    (e : Elt) : Prop :=
  let p := s.builtin (handlerOf table e.key).offset
  Copied pool e.key ∧
    match (handlerOf table e.key).setter with
    | .header | .reqMulti | .respMulti => e.hash = hashKeyLc (escape .headerName e.key)
    | .builtin | .reqConnection | .userAgent | .reqContentLength | .location | .lastModified
    | .respContentLength => p = some i
    | .host => select = false ∧ p = some i
    | .contentType | .respConnection => False

def ClearOk (pool : Pool) (select : Bool) (table : List Handler) (s : HeaderMap) : Prop :=
  ∀ i e, s.list.elts[i]? = some e → e.hash ≠ 0 → Clears pool select table s i e

def ClearSound (pool : Pool) (select : Bool) (table : List Handler) (s : HeaderMap) : Prop :=
  ∃ s', clearHeaders pool select table s = .ok (.ok, s') ∧ s'.list.live = []

/-- What one round of the loop does to the other elements and their pointers. -/
structure Cleared (i : ℕ) (s s' : HeaderMap) : Prop where
  length : s'.list.elts.length = s.list.elts.length
  kept : ∀ (j : ℕ) x, s'.list.elts[j]? = some x → x.hash ≠ 0 →
    j ≠ i ∧ s.list.elts[j]? = some x
  pointer : ∀ f j, s.builtin f = some j → j ≠ i → s'.builtin f = some j

theorem clear_length (h : ℕ) : (s.clear h).list.elts.length = s.list.elts.length := by
  simp only [HeaderMap.clear]
  split
  · rw [HeaderList.assign_elts, List.length_set]
  · rfl

theorem cleared_clear (s : HeaderMap) (i : ℕ) : Cleared i s (s.clear i) := by
  constructor
  · exact clear_length i
  · intro j x hx hlive
    have hne : j ≠ i := by
      intro hji
      rw [hji, clear_get_self] at hx
      obtain ⟨e, -, rfl⟩ := Option.map_eq_some_iff.mp hx
      exact hlive rfl
    exact ⟨hne, by rw [← clear_get_ne s hne.symm]; exact hx⟩
  · intro f j hf _
    rw [clear_builtin]
    exact hf

theorem cleared_removed {offset : Field} {i : ℕ} (hp : s.builtin offset = some i) :
    Cleared i s (removed offset s) := by
  simp only [removed, hp]
  exact cleared_clear s i

/-- A pointer to the element may go with it. -/
theorem Cleared.unpoint {offset : Field} {i : ℕ} {s' : HeaderMap} (h : Cleared i s s')
    (hp : s.builtin offset = some i) :
    Cleared i s { s' with builtin := Function.update s.builtin offset none } := by
  refine ⟨h.length, h.kept, ?_⟩
  intro f j hf hji
  have hne : f ≠ offset := by
    intro heq
    rw [heq, hp] at hf
    exact hji (Option.some.inj hf).symm
  simp only [Function.update_of_ne hne, hf]

theorem cleared_clearBuiltin {offset : Field} {i : ℕ} (hp : s.builtin offset = some i) :
    Cleared i s (clearBuiltin offset s) := by
  simp only [clearBuiltin, hp]
  exact (cleared_clear s i).unpoint hp

theorem cleared_removedLocation {offset : Field} {i : ℕ} (hp : s.builtin offset = some i) :
    Cleared i s (removedLocation offset s) := by
  have hremoved := cleared_removed hp
  simp only [removedLocation]
  split
  · split
    · exact hremoved.unpoint hp
    · exact hremoved
  · exact hremoved

theorem cleared_listed {hv : HeaderSet} {i : ℕ} {x : Elt} {list' : HeaderList}
    (hx : s.list.elts[i]? = some x) (hhit : hv.hits x = true)
    (hlist' : list'.elts = s.list.elts.map (cleared hv)) :
    Cleared i s { s with list := list' } := by
  have hdead : ∀ e, hv.hits e = true → (cleared hv e).hash = 0 := by
    intro e he
    simp [cleared, he]
  refine ⟨by simp only [hlist', List.length_map], ?_, fun _ _ hf _ => hf⟩
  intro j y hy hlive
  simp only [hlist', List.getElem?_map] at hy
  obtain ⟨e, he, rfl⟩ := Option.map_eq_some_iff.mp hy
  cases hmiss : hv.hits e with
  | true => exact absurd (hdead e hmiss) hlive
  | false =>
    have hne : j ≠ i := by
      intro hji
      rw [hji, hx] at he
      rw [← Option.some.inj he, hhit] at hmiss
      cases hmiss
    refine ⟨hne, ?_⟩
    simp only [he, cleared, hmiss, Bool.false_eq_true, if_false]

theorem handle_cleared {i : ℕ} {e : Elt} (hclears : Clears pool select table s i e)
    (hlive : e.hash ≠ 0)
    (he : s.list.elts[i]? = some { e with key := escape .headerName e.key }) :
    ∃ s', setHeader pool select table e.key none .remove s = .ok (.ok, s') ∧ Cleared i s s' := by
  obtain ⟨hcopy, hclears⟩ := hclears
  have hp := headerSet_prepared table e.key none .remove
  have hremove : ∀ offset, setBuiltinHeader pool offset (headerSet table e.key none .remove) s =
      .ok (.ok, removed offset s) := fun offset => setBuiltinHeader_remove offset rfl
  rw [setHeader_remove hcopy]
  have hhelper : e.hash = hashKeyLc (escape .headerName e.key) →
      ∃ list', setHeaderHelper pool (headerSet table e.key none .remove) s.list =
          .ok (.ok, list', some none) ∧ Cleared i s { s with list := list' } := by
    intro hhash
    have hhit := (hp.hits_iff { e with key := escape .headerName e.key }).mpr
      ⟨hhash, SameKey.refl _⟩
    have hne : (headerSet table e.key none .remove).hash ≠ 0 := by
      rw [hp.hash, ← hhash]
      exact hlive
    obtain ⟨list', hset, hlist'⟩ := helper_remove pool _ s.list rfl hne
    have hany : s.list.elts.any (headerSet table e.key none .remove).hits = true := by
      rw [List.any_eq_true]
      exact ⟨_, List.mem_of_getElem? he, hhit⟩
    rw [if_pos hany] at hset
    exact ⟨list', hset, cleared_listed he hhit hlist'⟩
  cases hsetter : (handlerOf table e.key).setter <;> simp only [hsetter] at hclears
  case header =>
    obtain ⟨list', hset, hcleared⟩ := hhelper hclears
    refine ⟨_, ?_, hcleared⟩
    simp only [handle, hsetter, setHeaderHandler, hset]
  case builtin =>
    refine ⟨_, ?_, cleared_removed hclears⟩
    simp only [handle, hsetter, hremove]
  case host =>
    refine ⟨_, ?_, cleared_removed hclears.2⟩
    simp only [handle, hsetter, setHostHeader, hclears.1, Bool.false_eq_true, if_false, hremove]
  case reqConnection =>
    refine ⟨_, ?_, cleared_removed hclears⟩
    simp only [handle, hsetter, hremove]
  case userAgent =>
    refine ⟨_, ?_, cleared_removed hclears⟩
    simp only [handle, hsetter, hremove]
  case reqContentLength =>
    have hvalue : (headerSet table e.key none .remove).value.getD [] = [] := rfl
    have hmode : (headerSet table e.key none .remove).mode ≠ .append := by simp [headerSet]
    refine ⟨_, ?_, cleared_removed hclears⟩
    simp only [handle, hsetter, setReqContentLength, hvalue, ne_eq, not_true_eq_false, if_false,
      if_neg hmode, hremove]
  case reqMulti =>
    obtain ⟨list', hset, hcleared⟩ := hhelper hclears
    refine ⟨_, ?_, hcleared⟩
    simp only [handle, hsetter, setMultiHeader, hset]
  case location =>
    refine ⟨_, ?_, cleared_removedLocation hclears⟩
    simp only [handle, hsetter]
    exact setLocationHeader_remove _ rfl
  case lastModified =>
    refine ⟨_, ?_, cleared_clearBuiltin hclears⟩
    simp only [handle, hsetter, setLastModified, headerSet, if_true]
  case respContentLength =>
    refine ⟨_, ?_, cleared_clearBuiltin hclears⟩
    simp only [handle, hsetter, setRespContentLength, headerSet, if_true]
  case respMulti =>
    obtain ⟨list', hset, hcleared⟩ := hhelper hclears
    refine ⟨_, ?_, hcleared⟩
    simp only [handle, hsetter, setMultiHeader, hset]

/-- Elements and pointers a round leaves alone are cleared later as before. -/
theorem Clears.of_cleared {i j : ℕ} {x : Elt} {s' : HeaderMap}
    (h : Clears pool select table s j x) (hcleared : Cleared i s s') (hji : j ≠ i) :
    Clears pool select table s' j x := by
  obtain ⟨hcopy, h⟩ := h
  refine ⟨hcopy, ?_⟩
  have hpointer := hcleared.pointer (handlerOf table x.key).offset j
  cases hsetter : (handlerOf table x.key).setter <;> simp only [hsetter] at h ⊢
  case header => exact h
  case reqMulti => exact h
  case respMulti => exact h
  case host => exact ⟨h.1, hpointer h.2 hji⟩
  all_goals exact hpointer h hji

/-- One round of the loop, on the list with the escaped key. -/
theorem clearFrom_round {i : ℕ} {e : Elt} (n : ℕ) (he : s.list.elts[i]? = some e) (hlive : e.hash ≠ 0)
    (hclears : Clears pool select table s i e) :
    ∃ s₁ s₂ : HeaderMap,
      s₁ = { s with list := s.list.assign i { e with key := escape .headerName e.key } } ∧
      setHeader pool select table e.key none .remove s₁ = .ok (.ok, s₂) ∧ Cleared i s₁ s₂ ∧
      clearFrom pool select table (n + 1) i s = clearFrom pool select table n (i + 1) s₂ := by
  have hlt : i < s.list.elts.length := (List.getElem?_eq_some_iff.mp he).1
  obtain ⟨hcopy, hkeyed⟩ := hclears
  obtain ⟨key, hkey⟩ := Option.ne_none_iff_exists'.mp hcopy
  have hescape := copyEscaped_eq hkey
  subst hescape
  have he₁ : (s.list.assign i { e with key := escape .headerName e.key }).elts[i]? =
      some { e with key := escape .headerName e.key } := by
    rw [HeaderList.assign_elts, List.getElem?_set_self hlt]
  have hclears₁ : Clears pool select table
      { s with list := s.list.assign i { e with key := escape .headerName e.key } } i e :=
    ⟨hcopy, hkeyed⟩
  obtain ⟨s₂, hset, hcleared⟩ := handle_cleared hclears₁ hlive he₁
  refine ⟨_, s₂, rfl, hset, hcleared, ?_⟩
  simp only [clearFrom, he, hlive, if_false, hkey, hset]

theorem clearFrom_dead {i : ℕ} {e : Elt} (n : ℕ) (he : s.list.elts[i]? = some e) (hdead : e.hash = 0) :
    clearFrom pool select table (n + 1) i s = clearFrom pool select table n (i + 1) s := by
  simp only [clearFrom, he, hdead, if_true]

/-- An element behind the round was there before it, where it is cleared as before. -/
theorem Clears.after_round {i : ℕ} {e : Elt} {s₁ s₂ : HeaderMap}
    (hs₁ : s₁ = { s with list := s.list.assign i { e with key := escape .headerName e.key } })
    (hcleared : Cleared i s₁ s₂)
    (h : ∀ (j : ℕ) x, s.list.elts[j]? = some x → x.hash ≠ 0 →
      i ≤ j ∧ Clears pool select table s j x) :
    ∀ (j : ℕ) x, s₂.list.elts[j]? = some x → x.hash ≠ 0 →
      i + 1 ≤ j ∧ Clears pool select table s₂ j x := by
  intro j x hx hlive
  obtain ⟨hji, hx₁⟩ := hcleared.kept j x hx hlive
  subst hs₁
  rw [HeaderList.assign_elts, List.getElem?_set_ne (Ne.symm hji)] at hx₁
  obtain ⟨hij, hclearsj⟩ := h j x hx₁ hlive
  refine ⟨by omega, ?_⟩
  have hsame : Clears pool select table
      { s with list := s.list.assign i { e with key := escape .headerName e.key } } j x :=
    hclearsj
  exact hsame.of_cleared hcleared hji

theorem round_length {i : ℕ} {e : Elt} {s₁ s₂ : HeaderMap}
    (hs₁ : s₁ = { s with list := s.list.assign i { e with key := escape .headerName e.key } })
    (hcleared : Cleared i s₁ s₂) : s₂.list.elts.length = s.list.elts.length := by
  rw [hcleared.length, hs₁, HeaderList.assign_elts, List.length_set]

/-- What is ahead of a dead element is what was ahead of it before. -/
theorem Clears.after_dead {i : ℕ} {e : Elt} (he : s.list.elts[i]? = some e) (hdead : e.hash = 0)
    (h : ∀ (j : ℕ) x, s.list.elts[j]? = some x → x.hash ≠ 0 →
      i ≤ j ∧ Clears pool select table s j x) :
    ∀ (j : ℕ) x, s.list.elts[j]? = some x → x.hash ≠ 0 →
      i + 1 ≤ j ∧ Clears pool select table s j x := by
  intro j x hx hlive
  obtain ⟨hij, hclears⟩ := h j x hx hlive
  have hne : i ≠ j := by
    intro heq
    rw [heq, hx] at he
    exact hlive (by rw [Option.some.inj he]; exact hdead)
  exact ⟨by omega, hclears⟩

/-- The loop: what it has passed is not in use, what is ahead will be cleared. -/
theorem clearFrom_sound (n : ℕ) : ∀ (i : ℕ) (s : HeaderMap), i + n = s.list.elts.length →
    (∀ (j : ℕ) x, s.list.elts[j]? = some x → x.hash ≠ 0 →
      i ≤ j ∧ Clears pool select table s j x) →
    ∃ s', clearFrom pool select table n i s = .ok (.ok, s') ∧ s'.list.live = [] := by
  induction n with
  | zero =>
    intro i s hlen h
    refine ⟨s, rfl, ?_⟩
    rw [HeaderList.live, List.filter_eq_nil_iff]
    intro x hx
    obtain ⟨j, hj⟩ := List.getElem?_of_mem hx
    have hlt : j < s.list.elts.length := (List.getElem?_eq_some_iff.mp hj).1
    simp only [bne_iff_ne, ne_eq, not_not]
    by_contra hlive
    have hij := (h j x hj hlive).1
    omega
  | succ n ih =>
    intro i s hlen h
    have hlt : i < s.list.elts.length := by omega
    obtain ⟨e, he⟩ : ∃ e, s.list.elts[i]? = some e := ⟨_, List.getElem?_eq_getElem hlt⟩
    by_cases hdead : e.hash = 0
    · rw [clearFrom_dead n he hdead]
      exact ih (i + 1) s (by omega) (Clears.after_dead he hdead h)
    · obtain ⟨s₁, s₂, hs₁, -, hcleared, hround⟩ := clearFrom_round n he hdead (h i e he hdead).2
      have hlength := round_length hs₁ hcleared
      rw [hround]
      exact ih (i + 1) s₂ (by omega) (Clears.after_round hs₁ hcleared h)

theorem clearSound (h : ClearOk pool select table s) : ClearSound pool select table s := by
  apply clearFrom_sound s.list.elts.length 0 s (Nat.zero_add _)
  intro j x hx hlive
  exact ⟨Nat.zero_le j, h j x hx hlive⟩

end

end NgxWasm.Http.HeaderRemoval
