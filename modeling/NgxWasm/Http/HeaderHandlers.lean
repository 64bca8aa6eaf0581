import NgxWasm.Http.Headers
import Mathlib.Logic.Function.Basic

/-!
# Header handlers (ngx_http_wasm_headers_request.c, ngx_http_wasm_headers_response.c)

The handlers beside the two tables, `ngx_http_wasm_set_builtin_header_handler` and
`ngx_http_wasm_clear_headers_helper` of `ngx_http_wasm_headers.c`, for nginx from
1.23 on and without debug assertions. `builtin` is what the header structure's
pointers are; what the handlers write besides headers (user agent flags, keepalive,
`content_length_n`, `server`) is read by none of them.
-/

namespace NgxWasm.Http.Headers

open NgxWasm NgxWasm.ProxyWasm.Pairs

/-- `ngx_http_wasm_headers_type_e`. -/
inductive HType where
  | request
  | response
  deriving Repr, DecidableEq

/-- `r->headers_in` or `r->headers_out`. -/
structure HeaderMap where
  list : HeaderList
  builtin : Field → Option ℕ
  contentType : Bytes

abbrev Handled := Except Fault (Rc × HeaderMap)

/-- `h->hash = 0`. -/
def HeaderMap.clear (s : HeaderMap) (h : ℕ) : HeaderMap :=
  match s.list.elts[h]? with
  | some e => { s with list := s.list.assign h { e with hash := 0 } }
  | none => s

def setHeaderHandler (pool : Pool) (hv : HeaderSet) (s : HeaderMap) : Handled :=
  match setHeaderHelper pool hv s.list with
  | .error fault => .error fault
  | .ok (rc, list, _) => .ok (rc, { s with list := list })

def setBuiltinHeader (pool : Pool) (offset : Field) (hv : HeaderSet) (s : HeaderMap) : Handled :=
  match s.builtin offset, hv.mode with
  | none, .remove => .ok (.ok, s)
  | none, _ =>
    match setHeaderHelper pool hv s.list with
    | .error fault => .error fault
    | .ok (rc, list, out) =>
      .ok (rc, { s with
        list := list
        builtin := match out with
          | some h => Function.update s.builtin offset h
          | none => s.builtin })
  -- the pointer stays
  | some h, .remove => .ok (.ok, s.clear h)
  | some _, .append => .ok (.declined, s)
  | some h, .set => .ok (.ok, { s with list := s.list.assign h hv.elt })

/-! ### Request -/

/-- `select` says that the context is at `NGX_PROXY_WASM_STEP_UPSTREAM_SELECT`, where
the value is the host of the upstream. -/
def setHostHeader (pool : Pool) (select : Bool) (offset : Field) (hv : HeaderSet)
    (s : HeaderMap) : Handled :=
  if select then .ok (.ok, s) else setBuiltinHeader pool offset hv s

def atoofMax : ℕ := 2 ^ 63 - 1

/-- `ngx_atoof`. -/
def atoofFrom : ℕ → Bytes → Option ℕ
  | value, [] => some value
  | value, c :: line =>
    if c < 48 ∨ 57 < c then none
    else if value ≥ atoofMax / 10 ∧
        (value > atoofMax / 10 ∨ c.toNat - 48 > atoofMax % 10) then none
    else atoofFrom (value * 10 + (c.toNat - 48)) line

def atoof (line : Bytes) : Option ℕ := if line = [] then none else atoofFrom 0 line

def setReqContentLength (pool : Pool) (offset : Field) (hv : HeaderSet) (s : HeaderMap) : Handled :=
  let value := hv.value.getD []
  if value ≠ [] then
    match atoof value with
    | none => .ok (.declined, s)
    | some _ => setBuiltinHeader pool offset hv s
  else if hv.mode = .append then .ok (.declined, s)
  else setBuiltinHeader pool offset hv s

/-- `ngx_http_wasm_set_builtin_multi_header_handler` of both files; they differ in the
chain of elements they keep. `h` is used as the helper leaves it. -/
def setMultiHeader (pool : Pool) (hv : HeaderSet) (s : HeaderMap) : Handled :=
  match setHeaderHelper pool hv s.list with
  | .error fault => .error fault
  | .ok (.error, list, _) => .ok (.error, { s with list := list })
  | .ok (_, _, none) => .error .wildPointer
  | .ok (_, list, some _) => .ok (.ok, { s with list := list })

/-! ### Response -/

def setLocationHeader (pool : Pool) (offset : Field) (hv : HeaderSet) (s : HeaderMap) : Handled :=
  match setBuiltinHeader pool offset hv s with
  | .ok (.ok, s) =>
    match (s.builtin offset).bind fun h => s.list.elts[h]? with
    | some e =>
      -- avoid local redirects without host names
      if e.value.head? = some 47 then
        .ok (.ok, { s with builtin := Function.update s.builtin offset none })
      else .ok (.ok, s)
    | none => .ok (.ok, s)
  | r => r

/-- `ngx_http_clear_last_modified` and `ngx_http_clear_content_length`. -/
def clearBuiltin (offset : Field) (s : HeaderMap) : HeaderMap :=
  match s.builtin offset with
  | some h => { s.clear h with builtin := Function.update s.builtin offset none }
  | none => s

def setLastModified (pool : Pool) (offset : Field) (hv : HeaderSet) (s : HeaderMap) : Handled :=
  if hv.mode = .remove then .ok (.ok, clearBuiltin offset s)
  else setBuiltinHeader pool offset hv s

def setRespContentLength (pool : Pool) (offset : Field) (hv : HeaderSet) (s : HeaderMap) :
    Handled :=
  if hv.mode = .remove then .ok (.ok, clearBuiltin offset s)
  else
    match atoof (hv.value.getD []) with
    | none => .ok (.declined, s)
    | some _ => setBuiltinHeader pool offset hv s

def setContentType (hv : HeaderSet) (s : HeaderMap) : Handled :=
  .ok (.ok, { s with contentType := hv.value.getD [] })

/-- `ngx_strncasecmp(s1, s2, n)` is zero; what follows a string is its zero byte. -/
def caseEq : ℕ → Bytes → Bytes → Bool
  | 0, _, _ => true
  | n + 1, s1, s2 =>
    let c1 := tolower (s1.headD 0)
    if c1 = tolower (s2.headD 0) then c1 == 0 || caseEq n s1.tail s2.tail else false

/-- `ngx_strcasestrn(s1, s2, n)` finds something. -/
def strcasestrn (s2 : Bytes) (n : ℕ) : Bytes → Bool
  | [] => false
  | c :: s1 =>
    if c = 0 then false
    else (tolower c == tolower (s2.headD 0) && caseEq n s1 s2.tail) || strcasestrn s2 n s1

def setRespConnection (hv : HeaderSet) (s : HeaderMap) : Handled :=
  match hv.value with
  | none => .error .nullRead
  | some value =>
    -- value->len - 1 of a size_t
    let n := (value.length + (2 ^ 64 - 1)) % 2 ^ 64
    if strcasestrn (ascii "keep-alive") n value || strcasestrn (ascii "close") n value ||
        strcasestrn (ascii "upgrade") n value then .ok (.ok, s)
    else .ok (.declined, s)

/-! ### Tables -/

/-- `NGX_HTTP_GZIP`, `NGX_HTTP_X_FORWARDED_FOR`, `NGX_HTTP_REALIP` and `NGX_HTTP_DAV`. -/
structure Build where
  gzip : Bool
  xForwardedFor : Bool
  realip : Bool
  dav : Bool

def handler (name : String) (offset : Field) (setter : Setter) : Handler :=
  ⟨ascii name, offset, setter⟩

def reqHeadersHandlers (b : Build) : List Handler :=
  [handler "Host" .host .host,
    handler "Connection" .connection .reqConnection,
    handler "If-Modified-Since" .ifModifiedSince .builtin,
    handler "If-Unmodified-Since" .ifUnmodifiedSince .builtin,
    handler "If-Match" .ifMatch .builtin,
    handler "If-None-Match" .ifNoneMatch .builtin,
    handler "User-Agent" .userAgent .userAgent,
    handler "Referer" .referer .builtin,
    handler "Content-Length" .contentLength .reqContentLength,
    handler "Content-Type" .contentType .builtin,
    handler "Range" .range .builtin,
    handler "If-Range" .ifRange .builtin,
    handler "Transfer-Encoding" .transferEncoding .builtin,
    handler "Expect" .expect .builtin,
    handler "Upgrade" .upgrade .builtin] ++
  (if b.gzip then [handler "Accept-Encoding" .acceptEncoding .builtin,
    handler "Via" .via .builtin] else []) ++
  [handler "Authorization" .authorization .builtin,
    handler "Keep-Alive" .keepAlive .builtin] ++
  (if b.xForwardedFor then [handler "X-Forwarded-For" .xForwardedFor .reqMulti] else []) ++
  (if b.realip then [handler "X-Real-IP" .xRealIp .builtin] else []) ++
  (if b.dav then [handler "Depth" .depth .builtin,
    handler "Destination" .destination .builtin,
    handler "Overwrite" .overwrite .builtin,
    handler "Date" .date .builtin] else []) ++
  [handler "Cookie" .cookie .reqMulti]

def respHeadersHandlers : List Handler :=
  [handler "Server" .server .builtin,
    handler "Date" .date .builtin,
    handler "Content-Length" .contentLength .respContentLength,
    handler "Content-Encoding" .contentEncoding .builtin,
    handler "Location" .location .location,
    handler "Refresh" .refresh .builtin,
    handler "Last-Modified" .lastModified .lastModified,
    handler "Content-Range" .contentRange .builtin,
    handler "Accept-Ranges" .acceptRanges .builtin,
    handler "WWW-Authenticate" .wwwAuthenticate .builtin,
    handler "Expires" .expires .builtin,
    handler "E-Tag" .etag .builtin,
    handler "ETag" .etag .builtin,
    handler "Content-Type" .contentType .contentType,
    handler "Cache-Control" .cacheControl .respMulti,
    handler "Link" .link .respMulti,
    handler "Connection" .none .respConnection]

def handlers (b : Build) : HType → List Handler
  | .request => reqHeadersHandlers b
  | .response => respHeadersHandlers

/-- A build with all options has every handler. -/
theorem reqHeadersHandlers_full (b : Build) {h : Handler} (hh : h ∈ reqHeadersHandlers b) :
    h ∈ reqHeadersHandlers ⟨true, true, true, true⟩ := by
  have hopt {c : Bool} {l : List Handler} (hl : h ∈ if c then l else []) : h ∈ l := by
    cases c with
    | false => cases hl
    | true => exact hl
  simp only [reqHeadersHandlers, List.mem_append, if_true] at hh ⊢
  obtain (((((h | h) | h) | h) | h) | h) | h := hh
  · exact .inl (.inl (.inl (.inl (.inl (.inl h)))))
  · exact .inl (.inl (.inl (.inl (.inl (.inr (hopt h))))))
  · exact .inl (.inl (.inl (.inl (.inr h))))
  · exact .inl (.inl (.inl (.inr (hopt h))))
  · exact .inl (.inl (.inr (hopt h)))
  · exact .inl (.inr (hopt h))
  · exact .inr h

/-- `hv.handler->handler_(&hv)`. -/
def handle (pool : Pool) (select : Bool) (h : Handler) (hv : HeaderSet) (s : HeaderMap) : Handled :=
  match h.setter with
  | .header => setHeaderHandler pool hv s
  | .builtin => setBuiltinHeader pool h.offset hv s
  | .host => setHostHeader pool select h.offset hv s
  | .reqConnection => setBuiltinHeader pool h.offset hv s
  | .userAgent => setBuiltinHeader pool h.offset hv s
  | .reqContentLength => setReqContentLength pool h.offset hv s
  | .reqMulti => setMultiHeader pool hv s
  | .location => setLocationHeader pool h.offset hv s
  | .lastModified => setLastModified pool h.offset hv s
  | .respContentLength => setRespContentLength pool h.offset hv s
  | .contentType => setContentType hv s
  | .respMulti => setMultiHeader pool hv s
  | .respConnection => setRespConnection hv s

def setHeader (pool : Pool) (select : Bool) (table : List Handler) (key : Bytes)
    (value : Option Bytes) (mode : Mode) (s : HeaderMap) : Handled :=
  match prepare pool table key value mode with
  | none => .ok (.error, s)
  | some (h, hv) => handle pool select h hv s

/-- `ngx_http_wasm_clear_headers_helper` from the element at place `i` on, with `n`
elements left; a removal adds none. The key is escaped in the element. -/
def clearFrom (pool : Pool) (select : Bool) (table : List Handler) : ℕ → ℕ → HeaderMap → Handled
  | 0, _, s => .ok (.ok, s)
  | n + 1, i, s =>
    match s.list.elts[i]? with
    | none => .ok (.ok, s)
    | some e =>
      if e.hash = 0 then clearFrom pool select table n (i + 1) s
      else
        let s := match copyEscaped .headerName pool.key e.key with
          | some key => { s with list := s.list.assign i { e with key := key } }
          | none => s
        match setHeader pool select table e.key none .remove s with
        | .error fault => .error fault
        | .ok (.ok, s) => clearFrom pool select table n (i + 1) s
        | .ok (_, s) => .ok (.error, s)

def clearHeaders (pool : Pool) (select : Bool) (table : List Handler) (s : HeaderMap) : Handled :=
  clearFrom pool select table s.list.elts.length 0 s

end NgxWasm.Http.Headers
