import NgxWasm.ProxyWasm.Pairs

/-!
# Setting a header in a list (ngx_http_wasm_headers.c)

`ngx_http_wasm_set_header` up to the call of its handler (48-121) and
`ngx_http_wasm_set_header_helper` (124-236), with the tables of `ngx_http_wasm_escape`
(`ngx_http_wasm_escape.c`). An element is named by its place in the list, which no operation
changes; `ngx_uint_t` is taken modulo 2^64.
-/

namespace NgxWasm.Http.Headers

open NgxWasm NgxWasm.ProxyWasm.Pairs

/-! ### Strings -/

def ascii (s : String) : Bytes := s.toList.map fun c => UInt8.ofNat c.toNat

/-- `ngx_tolower`. -/
def tolower (c : UInt8) : UInt8 := if 65 ≤ c ∧ c ≤ 90 then c ||| 0x20 else c

def hashKeyLc (key : Bytes) : ℕ :=
  key.foldl (fun hash c => (hash * 31 + (tolower c).toNat) % 2 ^ 64) 0

/-- `ngx_strncasecmp` is zero, the lengths being compared before. -/
def strncasecmp : Bytes → Bytes → Bool
  | a :: s, b :: t =>
    if tolower a = tolower b then
      -- a zero byte in both ends the comparison
      if tolower a = 0 then true else strncasecmp s t
    else false
  | _, _ => true

def keyIs (key : Bytes) (e : Elt) : Bool :=
  e.key.length == key.length && strncasecmp key e.key

/-- The `type` of `ngx_http_wasm_escape`. -/
inductive EscapeKind where
  | uri
  | uriComponent
  | args
  | headerName
  | headerValue
  deriving DecidableEq

def EscapeKind.words : EscapeKind → List ℕ
  | .uri => [0xffffffff, 0x80000029, 0x00000000, 0x80000000, 0xffffffff, 0xffffffff, 0xffffffff,
      0xffffffff]
  | .uriComponent => [0xffffffff, 0xfc00987d, 0x78000001, 0xb8000001, 0xffffffff, 0xffffffff,
      0xffffffff, 0xffffffff]
  | .args => [0xffffffff, 0x80000829, 0x00000000, 0x80000000, 0xffffffff, 0xffffffff, 0xffffffff,
      0xffffffff]
  | .headerName => [0xffffffff, 0xfc009305, 0x38000001, 0xa8000000, 0xffffffff, 0xffffffff,
      0xffffffff, 0xffffffff]
  | .headerValue => [0xfffffdff, 0x00000000, 0x00000000, 0x80000000, 0x00000000, 0x00000000,
      0x00000000, 0x00000000]

/-- `escape[*src >> 5] & (1 << (*src & 0x1f))`. -/
def EscapeKind.escapes (kind : EscapeKind) (c : UInt8) : Bool :=
  (kind.words.getD (c >>> 5).toNat 0).testBit (c &&& 0x1f).toNat

def hexDigit (n : ℕ) : UInt8 := (ascii "0123456789ABCDEF").getD n 0

/-- What the two loops of `ngx_http_wasm_escape` make of a string. -/
def escape (kind : EscapeKind) : Bytes → Bytes
  | [] => []
  | c :: src =>
    if kind.escapes c then
      37 :: hexDigit (c >>> 4).toNat :: hexDigit (c &&& 0xf).toNat :: escape kind src
    else c :: escape kind src

/-- `ngx_http_copy_escaped`: memory is only needed where a byte is escaped. -/
def copyEscaped (kind : EscapeKind) (room : Bool) (dst : Bytes) : Option Bytes :=
  if dst.any kind.escapes && !room then none else some (escape kind dst)

/-! ### Lists -/

def assignParts (e : Elt) : ℕ → List (List Elt) → List (List Elt)
  | _, [] => []
  | n, p :: parts =>
    if n < p.length then p.set n e :: parts else p :: assignParts e (n - p.length) parts

theorem assignParts_pushed (e : Elt) (parts : List (List Elt)) :
    ∀ n, (∀ p ∈ parts, p ≠ []) → ∀ p ∈ assignParts e n parts, p ≠ [] := by
  induction parts with
  | nil => intro n h; exact h
  | cons q parts ih =>
    intro n h p hp
    have hq := h q (List.mem_cons_self ..)
    have hparts : ∀ p ∈ parts, p ≠ [] := fun p hp => h p (List.mem_cons_of_mem _ hp)
    simp only [assignParts] at hp
    split at hp
    · rcases List.mem_cons.mp hp with rfl | hp
      · intro hnil
        apply hq
        simpa using congrArg List.length hnil
      · exact hparts p hp
    · rcases List.mem_cons.mp hp with rfl | hp
      · exact hq
      · exact ih _ hparts p hp

def pushParts (nalloc : ℕ) (e : Elt) : List Elt → List (List Elt) → List Elt × List (List Elt)
  | p, [] => if p.length = nalloc then (p, [[e]]) else (p ++ [e], [])
  | p, q :: parts => (p, (pushParts nalloc e q parts).1 :: (pushParts nalloc e q parts).2)

theorem pushParts_pushed (nalloc : ℕ) (e : Elt) (parts : List (List Elt)) :
    ∀ p, (∀ q ∈ parts, q ≠ []) →
      (p ≠ [] → (pushParts nalloc e p parts).1 ≠ []) ∧
        ∀ q ∈ (pushParts nalloc e p parts).2, q ≠ [] := by
  induction parts with
  | nil =>
    intro p _
    simp only [pushParts]
    split <;> simp
  | cons q parts ih =>
    intro p h
    obtain ⟨hone, hrest⟩ := ih q fun r hr => h r (List.mem_cons_of_mem _ hr)
    apply And.intro
    · intro hp
      exact hp
    · intro r hr
      rcases List.mem_cons.mp hr with rfl | hr
      · exact hone (h q (List.mem_cons_self ..))
      · exact hrest r hr

end NgxWasm.Http.Headers

namespace NgxWasm.ProxyWasm.Pairs.HeaderList

open NgxWasm.Http.Headers

def elts (list : HeaderList) : List Elt := list.parts.flatten

/-- `h[i] = e` for the element at place `n` of the list. -/
def assign (list : HeaderList) (n : ℕ) (e : Elt) : HeaderList :=
  if n < list.part.length then { list with part := list.part.set n e }
  else ⟨list.part, assignParts e (n - list.part.length) list.next,
    assignParts_pushed _ _ _ list.pushed⟩

/-- `ngx_list_push` and the assignments to the new element. -/
def push (list : HeaderList) (nalloc : ℕ) (e : Elt) : HeaderList :=
  ⟨(pushParts nalloc e list.part list.next).1, (pushParts nalloc e list.part list.next).2,
    (pushParts_pushed nalloc e list.next list.part list.pushed).2⟩

theorem assignParts_flatten (e : Elt) (parts : List (List Elt)) :
    ∀ n, (assignParts e n parts).flatten = parts.flatten.set n e := by
  induction parts with
  | nil => intro n; simp [assignParts]
  | cons p parts ih =>
    intro n
    simp only [assignParts]
    split
    next h => simp only [List.flatten_cons, List.set_append_left _ _ h]
    next h => simp only [List.flatten_cons, ih, List.set_append_right _ _ (Nat.le_of_not_lt h)]

theorem pushParts_flatten (nalloc : ℕ) (e : Elt) (parts : List (List Elt)) :
    ∀ p, (pushParts nalloc e p parts).1 ++ (pushParts nalloc e p parts).2.flatten =
      p ++ parts.flatten ++ [e] := by
  induction parts with
  | nil =>
    intro p
    simp only [pushParts]
    split <;> simp
  | cons q parts ih =>
    intro p
    simp only [pushParts, List.flatten_cons, ih, List.append_assoc]

@[simp] theorem assign_elts (list : HeaderList) (n : ℕ) (e : Elt) :
    (list.assign n e).elts = list.elts.set n e := by
  simp only [assign]
  split
  next h => simp only [elts, parts, List.flatten_cons, List.set_append_left _ _ h]
  next h =>
    simp only [elts, parts, List.flatten_cons, assignParts_flatten,
      List.set_append_right _ _ (Nat.le_of_not_lt h)]

@[simp] theorem push_elts (list : HeaderList) (nalloc : ℕ) (e : Elt) :
    (list.push nalloc e).elts = list.elts ++ [e] := by
  simp only [elts, parts, push, List.flatten_cons, pushParts_flatten, List.append_assoc]

end NgxWasm.ProxyWasm.Pairs.HeaderList

namespace NgxWasm.Http.Headers

open NgxWasm NgxWasm.ProxyWasm.Pairs

/-! ### ngx_http_wasm_set_header_helper -/

/-- `ngx_http_wasm_headers_set_mode_e`. -/
inductive Mode where
  | set
  | append
  | remove
  deriving Repr, DecidableEq

/-- `ngx_http_wasm_header_set_ctx_t`, with `none` for the data of `ngx_null_string`. -/
structure HeaderSet where
  key : Bytes
  value : Option Bytes
  hash : ℕ
  mode : Mode

/-- What the request's pool has for a call: `nalloc` of the list, and whether the
list, the lower-cased key and the escaped key and value get their memory. -/
structure Pool where
  nalloc : ℕ
  push : Bool
  lowcase : Bool
  key : Bool
  value : Bool

/-- Ways a call does not return. -/
inductive Fault where
  | nullRead
  | wildPointer
  | endless
  deriving Repr, DecidableEq

def HeaderSet.hits (hv : HeaderSet) (e : Elt) : Bool := e.hash == hv.hash && keyIs hv.key e

def HeaderSet.elt (hv : HeaderSet) : Elt := ⟨hv.hash, hv.key, hv.value.getD []⟩

/-- The locals of the search: `out` is what `*out` was assigned, `again` says that the
pass was left by the `goto`. -/
structure Pass where
  list : HeaderList
  out : Option (Option ℕ)
  found : Bool
  again : Bool

/-- The loop from the element at place `i` on. -/
def search (hv : HeaderSet) : List Elt → ℕ → Pass → Pass
  | [], _, s => s
  | e :: h, i, s =>
    if hv.hits e then
      if hv.mode = .remove ∨ s.found then
        -- h[i].hash = 0; *out = NULL; goto again;
        ⟨s.list.assign i { e with hash := 0 }, some none, true, true⟩
      else search hv h (i + 1) ⟨s.list.assign i hv.elt, some (some i), true, false⟩
    else search hv h (i + 1) s

def passes (hv : HeaderSet) : ℕ → Pass → Option Pass
  | 0, _ => none
  | n + 1, s =>
    let s := search hv s.list.elts 0 { s with again := false }
    if s.again then passes hv n s else some s

def newHeader (pool : Pool) (hv : HeaderSet) (list : HeaderList) :
    Rc × HeaderList × Option (Option ℕ) :=
  if pool.push then
    let h := list.elts.length
    let list := list.push pool.nalloc hv.elt
    if pool.lowcase then (.ok, list, some (some h)) else (.error, list, none)
  else (.error, list, none)

/-- A pass that starts again has cleared an element, so the search is over after one
pass more than there are elements, or never. -/
def setHeaderHelper (pool : Pool) (hv : HeaderSet) (list : HeaderList) :
    Except Fault (Rc × HeaderList × Option (Option ℕ)) :=
  if hv.mode = .append then .ok (newHeader pool hv list)
  else
    match passes hv (list.elts.length + 2) ⟨list, none, false, false⟩ with
    | none => .error .endless
    | some s =>
      if s.found ∨ hv.mode = .remove then .ok (.ok, s.list, s.out)
      else .ok (newHeader pool hv s.list)

/-! ### Handlers -/

/-- The functions of `ngx_http_wasm_headers.c` and of the request's and the response's
handlers that set a header. -/
inductive Setter where
  | header
  | builtin
  | host
  | reqConnection
  | userAgent
  | reqContentLength
  | reqMulti
  | location
  | lastModified
  | respContentLength
  | contentType
  | respMulti
  | respConnection
  deriving Repr, DecidableEq

/-- The members of `ngx_http_headers_in_t` and `ngx_http_headers_out_t` that a handler
names by their offset. -/
inductive Field where
  | host | connection | ifModifiedSince | ifUnmodifiedSince | ifMatch | ifNoneMatch
  | userAgent | referer | contentLength | contentType | range | ifRange | transferEncoding
  | expect | upgrade | acceptEncoding | via | authorization | keepAlive | xForwardedFor
  | xRealIp | depth | destination | overwrite | date | cookie
  | server | contentEncoding | location | refresh | lastModified | contentRange
  | acceptRanges | wwwAuthenticate | expires | etag | cacheControl | link
  | none
  deriving Repr, DecidableEq

/-- `ngx_http_wasm_header_handler_t`. -/
structure Handler where
  name : Bytes
  offset : Field
  setter : Setter

def Handler.serves (key : Bytes) (h : Handler) : Bool :=
  key.length == h.name.length && strncasecmp key h.name

/-- The request's value, which a REMOVE does not have. -/
def copyValue (pool : Pool) : Option Bytes → Option (Option Bytes)
  | some value => (copyEscaped .headerValue pool.value value).map some
  | none => some none

/-- `ngx_http_wasm_set_header` up to the call of the handler. The tables end with the
handler of every other name. -/
def prepare (pool : Pool) (handlers : List Handler) (key : Bytes) (value : Option Bytes)
    (mode : Mode) : Option (Handler × HeaderSet) :=
  match copyEscaped .headerName pool.key key, copyValue pool value with
  | some key, some value =>
    let handler := (handlers.find? (·.serves key)).getD ⟨key, .none, .header⟩
    -- hv.value = &null_str;
    let value := if mode = .remove then none else value
    some (handler, ⟨handler.name, value, hashKeyLc key, mode⟩)
  | _, _ => none

end NgxWasm.Http.Headers
