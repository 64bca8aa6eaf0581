import NgxWasm.Http.ConnectionHeader
import NgxWasm.Http.DispatchRequest
import NgxWasm.Lib.Run
import NgxWasm.ProxyWasm.HeaderMaps

/-!
# Shim headers (ngx_http_wasm_headers_shims.c)

The headers that `ngx_http_header_filter` will produce, listed by
`ngx_proxy_wasm_maps_get_all` from an array of the request's context and looked up one by
one by `ngx_proxy_wasm_maps_get` (ngx_proxy_wasm_maps.c, 164-324). The array is made anew
when `on_response_headers` of a filter starts (ngx_http_proxy_wasm.c, 167-213).
-/

namespace NgxWasm.ProxyWasm.ShimHeaders

open NgxWasm NgxWasm.ProxyWasm.Pairs NgxWasm.Http.Headers NgxWasm.ProxyWasm.HeaderMaps
open NgxWasm.Lib.Run
open NgxWasm.Http.DispatchRequest (offT)

/-! ### The shims -/

/-- The response and what else the shims look at; `keepaliveHeader` is the location's. -/
structure Out where
  request : Http.ConnectionHeader.Request
  contentLengthN : ℤ
  chunked : Bool
  gzipVary : Bool
  keepaliveHeader : ℕ
  status : Option Bytes

/-- `r->headers_out.headers`. -/
def Out.list (o : Out) : HeaderList := o.request.headers.list

inductive Shim where
  | contentType
  | contentLen
  | transferEncoding
  | connection
  | keepAlive
  | vary
  deriving DecidableEq

/-- `ngx_http_wasm_shim_headers`. -/
def shimHeaders : List (Bytes × Shim) :=
  [(ascii "Content-Type", .contentType), (ascii "Content-Length", .contentLen),
    (ascii "Transfer-Encoding", .transferEncoding), (ascii "Connection", .connection),
    (ascii "Keep-Alive", .keepAlive), (ascii "Vary", .vary)]

/-- What the pools grant a call: the strings of two of the shims, the array, its `i`-th
element and the lower-cased key of that. -/
structure Grant where
  contentLen : Bool
  keepAlive : Bool
  array : Bool
  push : ℕ → Bool
  lowcase : ℕ → Bool

section
variable (gzip : Bool)

/-- The `handler` of a shim; `gzip` is `NGX_HTTP_GZIP`. -/
def shimValue (g : Grant) (o : Out) : Shim → Option Bytes
  | .contentType =>
    if o.request.headers.contentType = [] then none else some o.request.headers.contentType
  | .contentLen =>
    if o.request.headers.builtin .contentLength = none ∧ 0 ≤ o.contentLengthN then
      if g.contentLen then some (offT o.contentLengthN.toNat) else none
    else none
  | .transferEncoding =>
    if o.chunked ∨ o.request.headers.builtin .contentLength = none ∧ o.contentLengthN < 0 then
      some (ascii "chunked")
    else none
  | .connection =>
    if o.request.status = 101 then some (ascii "upgrade")
    else if o.request.reqKeepalive = some true ∨ o.request.keepalive then
      some (ascii "keep-alive")
    else some (ascii "close")
  | .keepAlive =>
    if o.request.reqKeepalive = some true ∧ o.keepaliveHeader ≠ 0 then
      if g.keepAlive then some (ascii "timeout=" ++ offT o.keepaliveHeader) else none
    else none
  | .vary => if gzip ∧ o.gzipVary then some (ascii "Accept-Encoding") else none

def getShimHeader (g : Grant) (o : Out) (key : Bytes) : Option Bytes :=
  match shimHeaders.find? fun sh => sh.1.length == key.length && strncasecmp sh.1 key with
  | some sh => shimValue gzip g o sh.2
  | none => none

/-- The loop, with the array so far and whether it came to its end. -/
def pushShims (g : Grant) (o : Out) : List (Bytes × Shim) → List (Bytes × Bytes) →
    List (Bytes × Bytes) × Bool
  | [], l => (l, true)
  | (key, sh) :: shims, l =>
    match shimValue gzip g o sh with
    | none => pushShims g o shims l
    | some value =>
      if g.push l.length then
        if g.lowcase l.length then pushShims g o shims (l ++ [(key, value)])
        else (l ++ [(key, value)], false)
      else (l, false)

/-- The response, `resp_shim_headers` (nothing where its elements are `NULL`) and
`reset_resp_shims`. `built` is the response from which the array was last made. -/
structure State where
  out : Out
  shims : Option (List (Bytes × Bytes))
  reset : Bool
  built : Out

/-- The array is not used as it is. -/
def State.stale (s : State) : Prop := s.shims = none ∨ s.reset = true

instance (s : State) : Decidable s.stale := inferInstanceAs (Decidable (_ ∨ _))

def getShimHeaders (g : Grant) (s : State) : Option (List (Bytes × Bytes)) × State :=
  if s.stale then
    if g.array then
      match pushShims gzip g s.out shimHeaders [] with
      | (l, true) => (some l, { s with shims := some l, reset := false, built := s.out })
      | (l, false) => (none, { s with shims := some l, built := s.out })
    else (none, { s with shims := none })
  else (s.shims, s)

/-! ### Runs -/

/-- `on_response_headers` of a filter starts, a filter sets a header, the response is
changed otherwise (by a filter's header operation beside the list, or by nginx), and a
filter lists the response's headers. -/
inductive Op where
  | enter (g : Grant)
  | header (pool : Pool) (key : Bytes) (value : Option Bytes) (mode : Mode)
  | change (out : Out)
  | getPairs (g : Grant)

def Out.withHeaders (o : Out) (headers : HeaderMap) : Out :=
  { o with request := { o.request with headers := headers } }

/-- An array that is `NULL` is read by the listing. -/
def step (s : State) : Op → State × Except Fault Rc
  | .enter g => ((getShimHeaders gzip g { s with reset := true }).2, .ok .ok)
  | .header pool key value mode =>
    match setHeader pool false respHeadersHandlers key value mode s.out.request.headers with
    | .error fault => (s, .error fault)
    | .ok (rc, headers) => ({ s with out := s.out.withHeaders headers }, .ok rc)
  | .change out => ({ s with out := out }, .ok .ok)
  | .getPairs g =>
    match getShimHeaders gzip g s with
    | (some _, s) => (s, .ok .ok)
    | (none, s) => (s, .error .nullRead)

/-! ### Coherence -/

/-- All memory is granted. -/
def full : Grant := ⟨true, true, true, fun _ => true, fun _ => true⟩

/-- `proxy_get_header_map_value` on the response's headers. -/
def lookup (s : State) (key : Bytes) : Option Bytes :=
  mapsGet (fun key => if (specialKey .response key).isSome then s.out.status else none)
    (getShimHeader gzip full s.out) .response s.out.list key

/-- The comparison of `ngx_wasm_get_list_elem`. -/
def keyed (key : Bytes) (e : Elt) : Bool :=
  key.length == e.key.length && strncasecmp e.key key

/-- The header is listed as one of the list. -/
def InList (s : State) (key value : Bytes) : Prop :=
  ∃ e ∈ s.out.list.elts, e.hash ≠ 0 ∧ keyed key e = true ∧ e.value = value

/-- Every shim that is listed is looked up with its value, and what is looked up under the
name of a shim is listed, as a shim or as a header of the list. -/
def Coherent (s : State) : Prop :=
  ∃ l, (getShimHeaders gzip full s).1 = some l ∧
    ∀ sh ∈ shimHeaders, ∀ value,
      ((sh.1, value) ∈ l → lookup gzip s sh.1 = some value) ∧
        (lookup gzip s sh.1 = some value → (sh.1, value) ∈ l ∨ InList s sh.1 value)

/-- What the array has of a shim, or will have: its value of the last time it was made. -/
def lastValue (s : State) (sh : Shim) : Option Bytes :=
  shimValue gzip full (if s.stale then s.out else s.built) sh

/-- The shims did not change since the array was made; where the list has an element of
a shim's name, used or not, it says what the shim says, or it is listed in its place. -/
def Settled (s : State) : Prop :=
  ∀ sh ∈ shimHeaders,
    match s.out.list.elts.find? (keyed sh.1) with
    | none => lastValue gzip s sh.2 = shimValue gzip full s.out sh.2
    | some e => lastValue gzip s sh.2 = some e.value ∨
        lastValue gzip s sh.2 = none ∧ InList s sh.1 e.value

/-- The memory for making the array: the shims that are found have their strings, and an
array that was not asked to be made anew has its elements. -/
def StepOk (s : State) : Op → Prop
  | .enter g => g.contentLen = true ∧ g.keepAlive = true
  | .getPairs g => s.stale → g.contentLen = true ∧ g.keepAlive = true ∧
      (s.reset = true ∨ ∀ i, g.push i = true ∧ g.lowcase i = true)
  | _ => True

/-! ### The array -/

/-- The shims of a response. -/
def produced (o : Out) : List (Bytes × Bytes) :=
  shimHeaders.filterMap fun sh => (shimValue gzip full o sh.2).map fun value => (sh.1, value)

variable {gzip}

theorem shimValue_granted {g : Grant} (hlen : g.contentLen = true) (hkeep : g.keepAlive = true)
    (o : Out) (sh : Shim) : shimValue gzip g o sh = shimValue gzip full o sh := by
  cases sh with
  | contentLen => simp only [shimValue, hlen, full]
  | keepAlive => simp only [shimValue, hkeep, full]
  | _ => rfl

theorem pushShims_complete {g : Grant} (hlen : g.contentLen = true) (hkeep : g.keepAlive = true)
    (o : Out) (shims : List (Bytes × Shim)) :
    ∀ l l', pushShims gzip g o shims l = (l', true) →
      l' = l ++ shims.filterMap fun sh =>
        (shimValue gzip full o sh.2).map fun value => (sh.1, value) := by
  induction shims with
  | nil =>
    intro l l' h
    rw [pushShims] at h
    rw [List.filterMap_nil, List.append_nil]
    exact (Prod.mk.inj h).1.symm
  | cons sh shims ih =>
    intro l l' h
    obtain ⟨key, sh⟩ := sh
    rw [pushShims, shimValue_granted hlen hkeep] at h
    rw [List.filterMap_cons]
    dsimp only
    cases hv : shimValue gzip full o sh with
    | none =>
      rw [hv] at h
      exact ih l l' h
    | some value =>
      rw [hv] at h
      dsimp only at h
      split at h
      · split at h
        · rw [ih _ l' h, List.append_assoc]
          rfl
        · cases h
      · cases h

theorem pushShims_granted {g : Grant} (hpush : ∀ i, g.push i = true ∧ g.lowcase i = true) (o : Out)
    (shims : List (Bytes × Shim)) : ∀ l, (pushShims gzip g o shims l).2 = true := by
  induction shims with
  | nil => intro l; rfl
  | cons sh shims ih =>
    intro l
    obtain ⟨key, sh⟩ := sh
    rw [pushShims]
    cases shimValue gzip g o sh with
    | none => exact ih l
    | some value =>
      dsimp only
      rw [if_pos (hpush l.length).1, if_pos (hpush l.length).2]
      exact ih _

theorem mem_produced {o : Out} {sh : Bytes × Shim} (hsh : sh ∈ shimHeaders) (value : Bytes) :
    (sh.1, value) ∈ produced gzip o ↔ shimValue gzip full o sh.2 = some value := by
  have hunique : ∀ a ∈ shimHeaders, ∀ b ∈ shimHeaders, a.1 = b.1 → a.2 = b.2 := by decide
  rw [produced, List.mem_filterMap]
  constructor
  · intro ⟨x, hx, heq⟩
    obtain ⟨v, hv, hpair⟩ := Option.map_eq_some_iff.mp heq
    obtain ⟨hkey, rfl⟩ := Prod.mk.inj hpair
    rw [← hunique x hx sh hsh hkey]
    exact hv
  · intro hv
    exact ⟨sh, hsh, by rw [hv]; rfl⟩

/-- Where the array is used as it is, it has the shims of the response it was made from. -/
def Fresh (gzip : Bool) (s : State) : Prop :=
  s.reset = false → ∀ l, s.shims = some l → l = produced gzip s.built

theorem getShimHeaders_fresh {g : Grant} {s : State} (hs : Fresh gzip s)
    (hg : s.stale → g.contentLen = true ∧ g.keepAlive = true ∧
      (s.reset = true ∨ ∀ i, g.push i = true ∧ g.lowcase i = true)) :
    Fresh gzip (getShimHeaders gzip g s).2 := by
  rw [getShimHeaders]
  by_cases hstale : s.stale
  · obtain ⟨hlen, hkeep, hpush⟩ := hg hstale
    rw [if_pos hstale]
    cases g.array with
    | false =>
      intro _ l hl
      cases hl
    | true =>
      rw [if_pos rfl]
      cases hp : pushShims gzip g s.out shimHeaders [] with
      | mk l done =>
        cases done with
        | true =>
          intro _ l' hl'
          obtain rfl : l = l' := Option.some.inj hl'
          exact pushShims_complete hlen hkeep s.out shimHeaders [] l hp
        | false =>
          intro hreset
          rcases hpush with h | h
          · exact absurd (h.symm.trans hreset) (by decide)
          · have hdone := @pushShims_granted gzip g h s.out shimHeaders []
            rw [hp] at hdone
            cases hdone
  · rw [if_neg hstale]
    exact hs

theorem step_fresh {s : State} (op : Op) (hs : Fresh gzip s) (hc : StepOk s op) :
    Fresh gzip (step gzip s op).1 := by
  cases op with
  | enter g =>
    apply getShimHeaders_fresh
    · intro h
      cases h
    · intro _
      exact ⟨hc.1, hc.2, .inl rfl⟩
  | header pool key value mode =>
    rw [step]
    split
    · exact hs
    · exact hs
  | change out => exact hs
  | getPairs g =>
    have hfresh := getShimHeaders_fresh hs hc
    rw [step]
    split
    · next heq =>
      rw [heq] at hfresh
      exact hfresh
    · next heq =>
      rw [heq] at hfresh
      exact hfresh

/-! ### The listing and the lookup -/

/-- What is listed is what the shims gave when the array was made. -/
theorem getShimHeaders_full {s : State} (hs : Fresh gzip s) :
    (getShimHeaders gzip full s).1 = some (produced gzip (if s.stale then s.out else s.built)) := by
  rw [getShimHeaders]
  by_cases hstale : s.stale
  · rw [if_pos hstale, if_pos hstale, if_pos (show full.array = true from rfl)]
    cases hp : pushShims gzip full s.out shimHeaders [] with
    | mk l done =>
      have hdone := @pushShims_granted gzip full (fun _ => ⟨rfl, rfl⟩) s.out
        shimHeaders []
      rw [hp] at hdone
      obtain rfl : done = true := hdone
      exact congrArg some (pushShims_complete rfl rfl s.out shimHeaders [] l hp)
  · rw [if_neg hstale, if_neg hstale]
    rw [State.stale, not_or] at hstale
    obtain ⟨l, hl⟩ := Option.ne_none_iff_exists'.mp hstale.1
    rw [hl, hs (by simpa using hstale.2) l hl]

theorem getShimHeader_of_mem {sh : Bytes × Shim} (hsh : sh ∈ shimHeaders) (o : Out) :
    getShimHeader gzip full o sh.1 = shimValue gzip full o sh.2 := by
  have hfind : ∀ sh ∈ shimHeaders,
      (shimHeaders.find? fun x => x.1.length == sh.1.length && strncasecmp x.1 sh.1) = some sh := by
    decide
  rw [getShimHeader, hfind sh hsh]

theorem lookup_shim {s : State} {sh : Bytes × Shim} (hsh : sh ∈ shimHeaders) :
    lookup gzip s sh.1 =
      match s.out.list.elts.find? (keyed sh.1) with
      | none => shimValue gzip full s.out sh.2
      | some e => some e.value := by
  have hspecial : ∀ sh ∈ shimHeaders, (specialKey .response sh.1).isSome = false := by
    decide
  have helem : getListElem s.out.list sh.1 =
      (s.out.list.elts.find? (keyed sh.1)).map Elt.value := rfl
  rw [lookup, mapsGet, hspecial sh hsh, helem, getShimHeader_of_mem hsh]
  cases s.out.list.elts.find? (keyed sh.1) with
  | none => rfl
  | some e => rfl

theorem coherent_iff {s : State} (hs : Fresh gzip s) : Coherent gzip s ↔ Settled gzip s := by
  have hlisted : ∀ sh ∈ shimHeaders, ∀ value,
      (sh.1, value) ∈ produced gzip (if s.stale then s.out else s.built) ↔
        lastValue gzip s sh.2 = some value := fun sh hsh value => mem_produced hsh value
  rw [Coherent, getShimHeaders_full hs, Settled]
  constructor
  · intro ⟨l, hl, h⟩ sh hsh
    obtain rfl := Option.some.inj hl
    have hvalue := h sh hsh
    simp only [hlisted sh hsh, lookup_shim hsh] at hvalue
    cases hfind : s.out.list.elts.find? (keyed sh.1) with
    | none =>
      rw [hfind] at hvalue
      dsimp only at hvalue ⊢
      apply Option.ext
      intro value
      constructor
      · exact (hvalue value).1
      · intro hnow
        rcases (hvalue value).2 hnow with hlast | ⟨e, he, _, hkey, _⟩
        · exact hlast
        · exact absurd hkey (List.find?_eq_none.mp hfind e he)
    | some e =>
      rw [hfind] at hvalue
      dsimp only at hvalue ⊢
      rcases (hvalue e.value).2 rfl with hlast | hin
      · exact .inl hlast
      · cases hlast : lastValue gzip s sh.2 with
        | none => exact .inr ⟨rfl, hin⟩
        | some value => exact .inl ((hvalue value).1 hlast).symm
  · intro h
    refine ⟨_, rfl, ?_⟩
    intro sh hsh value
    have hsettled := h sh hsh
    rw [hlisted sh hsh, lookup_shim hsh]
    cases hfind : s.out.list.elts.find? (keyed sh.1) with
    | none =>
      rw [hfind] at hsettled
      dsimp only at hsettled ⊢
      rw [hsettled]
      exact ⟨id, .inl⟩
    | some e =>
      rw [hfind] at hsettled
      dsimp only at hsettled ⊢
      rcases hsettled with hlast | ⟨hlast, hin⟩
      · rw [hlast]
        exact ⟨id, .inl⟩
      · rw [hlast]
        refine ⟨fun h => (by cases h), fun h => ?_⟩
        rw [← Option.some.inj h]
        exact .inr hin

/-- In a run in which the array gets its memory, the listing and the lookups agree in
exactly the states that meet the condition. -/
theorem shims_coherent_iff (gzip : Bool) (s : State) (ops : List Op) (hnew : s.shims = none)
    (hm : Meets (step gzip) StepOk s ops) :
    ∀ k, Coherent gzip (exec (step gzip) s (ops.take k)).1 ↔
      Settled gzip (exec (step gzip) s (ops.take k)).1 := by
  intro k
  have hfresh : Fresh gzip s := by
    intro _ l hl
    rw [hnew] at hl
    cases hl
  apply coherent_iff
  exact exec_invariant (step gzip) StepOk (Fresh gzip) (fun s op hs hc => step_fresh op hs hc)
    (ops.take k) s hfresh (meets_take (step gzip) k hm)

end

/-! ### A filter that sets the type -/

def plainText : Out where
  request :=
    { headers := ⟨⟨[], [], pushed_nil⟩, fun _ => none, ascii "text/plain"⟩
      keepalive := true
      reqKeepalive := some true
      connectionType := .none
      keepAliveN := -1
      status := 200 }
  contentLengthN := 0
  chunked := false
  gzipVary := false
  keepaliveHeader := 0
  status := some (ascii "200")

def unlisted : State := ⟨plainText, none, false, plainText⟩

def setHtml : Op :=
  .header ⟨20, true, true, true, true⟩ (ascii "Content-Type") (some (ascii "text/html")) .set

theorem shims_coherent_html :
    Coherent true (exec (step true) unlisted ([.enter full, setHtml, .enter full].take 3)).1 ↔
      Settled true (exec (step true) unlisted ([.enter full, setHtml, .enter full].take 3)).1 :=
  shims_coherent_iff true unlisted [.enter full, setHtml, .enter full] rfl
    ⟨⟨rfl, rfl⟩, trivial, ⟨rfl, rfl⟩, trivial⟩ 3

/-- The type a filter sets is looked up, and the one from before is listed. -/
theorem listed_type_is_old :
    ¬ ∀ (gzip : Bool) (s : State) (ops : List Op), s.shims = none →
      Meets (step gzip) StepOk s ops → ∀ k, Coherent gzip (exec (step gzip) s (ops.take k)).1 := by
  intro h
  obtain ⟨l, hl, hcoherent⟩ := h true unlisted [.enter full, setHtml] rfl
    ⟨⟨rfl, rfl⟩, trivial, trivial⟩ 2
  have hlisted : (getShimHeaders true full (exec (step true) unlisted
      ([.enter full, setHtml].take 2)).1).1.any
        (fun l => l.contains (ascii "Content-Type", ascii "text/plain")) = true := by
    decide
  have hlookup : lookup true (exec (step true) unlisted ([.enter full, setHtml].take 2)).1
      (ascii "Content-Type") = some (ascii "text/html") := by
    decide
  rw [hl] at hlisted
  have hmem : (ascii "Content-Type", ascii "text/plain") ∈ l := by
    simpa using hlisted
  have hold := (hcoherent (ascii "Content-Type", .contentType) (by simp [shimHeaders])
    (ascii "text/plain")).1 hmem
  rw [hlookup] at hold
  exact absurd hold (by decide)

end NgxWasm.ProxyWasm.ShimHeaders
