import NgxWasm.Http.DispatchRequest
import NgxWasm.Http.HeaderSet
import NgxWasm.Lib.HttpRequest

/-!
# The request of an HTTP dispatch, parsed (ngx_http_proxy_wasm_dispatch.c)

Header names and values go through the setters and are escaped there; method,
path and authority are written as the guest gave them.
-/

namespace NgxWasm.Http.RequestFraming

set_option maxRecDepth 8192

open NgxWasm NgxWasm.ProxyWasm.Pairs NgxWasm.Http.Headers NgxWasm.Http.HeaderSet
open NgxWasm.Http.DispatchRequest NgxWasm.Lib.HttpRequest

/-! ### Escaped names and values -/

def lower (s : Bytes) : Bytes := s.map tolower

theorem tchar_of_unescaped : ∀ c : UInt8, EscapeKind.escapes .headerName c = false →
    isTchar c = true :=
  byte_forall (by decide)

theorem text_of_unescaped : ∀ c : UInt8, EscapeKind.escapes .headerValue c = false →
    isText c = true :=
  byte_forall (by decide)

theorem tchar_tolower : ∀ c : UInt8, isTchar (tolower c) = isTchar c :=
  byte_forall (by decide)

theorem escape_tchar (s : Bytes) : ∀ c ∈ escape .headerName s, isTchar c = true :=
  escape_forall (p := (isTchar · = true)) rfl (by decide) tchar_of_unescaped s

theorem escape_text (s : Bytes) : IsValue (escape .headerValue s) :=
  escape_forall (p := (isText · = true)) rfl (by decide) text_of_unescaped s

/-! ### The setters -/

def contentLength : Bytes := ascii "Content-Length"

theorem contentLength_clean : ∀ c ∈ contentLength, c ≠ 37 ∧ EscapeKind.escapes .headerName c = false := by
  decide

/-- The tables have one entry that keeps the length, and it is `Content-Length`. -/
def keepsLength (h : Handler) : Bool :=
  match h.setter with
  | .builtin | .host | .reqConnection | .userAgent =>
    decide (h.offset ≠ .contentLength) && !decide (SameKey h.name contentLength)
  | .reqContentLength => decide (h.offset = .contentLength) && decide (h.name = contentLength)
  | .reqMulti => !decide (SameKey h.name contentLength)
  | _ => false

theorem reqHeadersHandlers_length (b : Build) : ∀ h ∈ reqHeadersHandlers b, keepsLength h = true := by
  intro h hh
  have hfull : ∀ g ∈ reqHeadersHandlers ⟨true, true, true, true⟩, keepsLength g = true := by
    decide
  exact hfull h (reqHeadersHandlers_full b hh)

theorem contentLength_mem (b : Build) :
    handler "Content-Length" .contentLength .reqContentLength ∈ reqHeadersHandlers b := by
  simp [reqHeadersHandlers]

variable {pool : Pool} {hv : HeaderSet} {s s' : HeaderMap} {offset : Headers.Field}

theorem newHeader_append {list : HeaderList} {out : Option (Option ℕ)} (hmode : hv.mode = .append)
    (h : setHeaderHelper pool hv s.list = .ok (.ok, list, out)) :
    list.elts = s.list.elts ++ [hv.elt] ∧ out = some (some s.list.elts.length) := by
  rw [helper_append pool hv s.list hmode] at h
  exact newHeader_elts (Except.ok.inj h)

theorem setBuiltin_append (hmode : hv.mode = .append)
    (h : setBuiltinHeader pool offset hv s = .ok (.ok, s')) :
    s.builtin offset = none ∧ s'.list.elts = s.list.elts ++ [hv.elt] ∧
      ∃ n, s'.builtin = Function.update s.builtin offset (some n) := by
  rw [setBuiltinHeader, hmode] at h
  cases hb : s.builtin offset with
  | some n =>
    rw [hb] at h
    simp at h
  | none =>
    rw [hb] at h
    dsimp only at h
    cases hr : setHeaderHelper pool hv s.list with
    | error fault =>
      rw [hr] at h
      cases h
    | ok r =>
      obtain ⟨rc, list, out⟩ := r
      rw [hr] at h
      simp only [Except.ok.injEq, Prod.mk.injEq] at h
      obtain ⟨rfl, rfl⟩ := h
      obtain ⟨helts, rfl⟩ := newHeader_append hmode hr
      exact ⟨rfl, helts, s.list.elts.length, rfl⟩

theorem setHeaderHandler_append (hmode : hv.mode = .append)
    (h : setHeaderHandler pool hv s = .ok (.ok, s')) :
    s'.list.elts = s.list.elts ++ [hv.elt] ∧ s'.builtin = s.builtin := by
  rw [setHeaderHandler] at h
  cases hr : setHeaderHelper pool hv s.list with
  | error fault =>
    rw [hr] at h
    cases h
  | ok r =>
    obtain ⟨rc, list, out⟩ := r
    rw [hr] at h
    simp only [Except.ok.injEq, Prod.mk.injEq] at h
    obtain ⟨rfl, rfl⟩ := h
    exact ⟨(newHeader_append hmode hr).1, rfl⟩

theorem setMulti_append (hmode : hv.mode = .append)
    (h : setMultiHeader pool hv s = .ok (.ok, s')) :
    s'.list.elts = s.list.elts ++ [hv.elt] ∧ s'.builtin = s.builtin := by
  rw [setMultiHeader] at h
  cases hr : setHeaderHelper pool hv s.list with
  | error fault =>
    rw [hr] at h
    cases h
  | ok r =>
    obtain ⟨rc, list, out⟩ := r
    rw [helper_append pool hv s.list hmode] at hr
    have hnew := Except.ok.inj hr
    rw [helper_append pool hv s.list hmode] at h
    rw [newHeader] at hnew
    by_cases hpush : pool.push
    · by_cases hlow : pool.lowcase
      · simp only [newHeader, hpush, hlow, if_true, Except.ok.injEq, Prod.mk.injEq, true_and] at h
        rw [← h]
        exact ⟨HeaderList.push_elts .., rfl⟩
      · simp [newHeader, hpush, hlow] at h
    · simp [newHeader, hpush] at h

theorem setLength_append {value : Bytes} (hmode : hv.mode = .append) (hvalue : hv.value = some value)
    (h : setReqContentLength pool offset hv s = .ok (.ok, s')) :
    (atoof value).isSome = true ∧ setBuiltinHeader pool offset hv s = .ok (.ok, s') := by
  rw [setReqContentLength, hvalue] at h
  dsimp only [Option.getD_some] at h
  split at h
  · cases ha : atoof value with
    | none =>
      rw [ha] at h
      simp at h
    | some n =>
      rw [ha] at h
      exact ⟨rfl, h⟩
  · simp at h

/-- What a setter adds, and when it keeps a length. -/
structure Added (s s' : HeaderMap) (key value : Bytes) : Prop where
  elts : ∃ e, s'.list.elts = s.list.elts ++ [e] ∧ lower e.key = lower (escape .headerName key) ∧
    e.value = escape .headerValue value
  length : SameKey contentLength key → s.builtin .contentLength = none ∧
    s'.builtin .contentLength ≠ none ∧ (atoof (escape .headerValue value)).isSome = true
  other : ¬ SameKey contentLength key → s'.builtin .contentLength = s.builtin .contentLength

theorem setHeader_added {b : Build} {key value : Bytes}
    (h : setHeader pool false (reqHeadersHandlers b) key (some value) .append s = .ok (.ok, s')) :
    Added s s' key value := by
  rw [setHeader] at h
  cases hp : prepare pool (reqHeadersHandlers b) key (some value) .append with
  | none =>
    rw [hp] at h
    simp at h
  | some r =>
    obtain ⟨hd, hv⟩ := r
    rw [hp] at h
    dsimp only at h
    have hprep := prepare_spec hp
    have hvalue : hv.value = some (escape .headerValue value) := by
      rw [hprep.value, if_neg (by decide)]
      rfl
    have helt : ∀ list : List Elt, s'.list.elts = list ++ [hv.elt] →
        ∃ e, s'.list.elts = list ++ [e] ∧ lower e.key = lower (escape .headerName key) ∧
          e.value = escape .headerValue value := by
      intro list he
      refine ⟨hv.elt, he, hprep.same.symm, ?_⟩
      rw [HeaderSet.elt, hvalue]
      rfl
    have hkey : SameKey contentLength key ↔ SameKey (escape .headerName key) contentLength := by
      rw [← sameKey_escape contentLength_clean]
      exact ⟨SameKey.symm, SameKey.symm⟩
    rw [handle] at h
    rcases prepare_handler hp with ⟨hmem, hsame⟩ | ⟨hset, hnone⟩
    · have hkeeps := reqHeadersHandlers_length b hd hmem
      have hother : ¬ SameKey hd.name contentLength → ¬ SameKey contentLength key := fun hn hc =>
        hn (hsame.symm.trans (hkey.mp hc))
      have hbuiltin : (decide (hd.offset ≠ .contentLength) &&
          !decide (SameKey hd.name contentLength)) = true →
          setBuiltinHeader pool hd.offset hv s = .ok (.ok, s') → Added s s' key value := by
        intro hk h
        simp only [Bool.and_eq_true, Bool.not_eq_true', decide_eq_true_eq,
          decide_eq_false_iff_not] at hk
        obtain ⟨-, helts, n, hb⟩ := setBuiltin_append hprep.mode h
        refine ⟨helt _ helts, fun hc => absurd hc (hother hk.2), fun _ => ?_⟩
        rw [hb, Function.update_of_ne hk.1.symm]
      rw [keepsLength] at hkeeps
      cases hst : hd.setter with
      | builtin =>
        rw [hst] at h hkeeps
        exact hbuiltin hkeeps h
      | host =>
        rw [hst] at h hkeeps
        exact hbuiltin hkeeps h
      | reqConnection =>
        rw [hst] at h hkeeps
        exact hbuiltin hkeeps h
      | userAgent =>
        rw [hst] at h hkeeps
        exact hbuiltin hkeeps h
      | reqMulti =>
        simp only [hst, Bool.not_eq_true', decide_eq_false_iff_not] at h hkeeps
        obtain ⟨helts, hb⟩ := setMulti_append hprep.mode h
        exact ⟨helt _ helts, fun hc => absurd hc (hother hkeeps), fun _ => by rw [hb]⟩
      | reqContentLength =>
        simp only [hst, Bool.and_eq_true, decide_eq_true_eq] at h hkeeps
        obtain ⟨hsome, h⟩ := setLength_append hprep.mode hvalue h
        obtain ⟨hnone, helts, n, hb⟩ := setBuiltin_append hprep.mode h
        rw [hkeeps.1] at hnone hb
        have hc : SameKey contentLength key := hkey.mpr (hkeeps.2 ▸ hsame)
        refine ⟨helt _ helts, fun _ => ⟨hnone, ?_, hsome⟩, fun hn => absurd hc hn⟩
        rw [hb, Function.update_self]
        exact Option.some_ne_none n
      | header => simp [hst] at hkeeps
      | location => simp [hst] at hkeeps
      | lastModified => simp [hst] at hkeeps
      | respContentLength => simp [hst] at hkeeps
      | contentType => simp [hst] at hkeeps
      | respMulti => simp [hst] at hkeeps
      | respConnection => simp [hst] at hkeeps
    · rw [hset] at h
      obtain ⟨helts, hb⟩ := setHeaderHandler_append hprep.mode h
      refine ⟨helt _ helts, fun hc => ?_, fun _ => by rw [hb]⟩
      exact absurd (hkey.mp hc) (hnone _ (contentLength_mem b))

/-! ### All headers -/

def escaped (elt : Elt) : Bytes × Bytes :=
  (lower (escape .headerName elt.key), escape .headerValue elt.value)

def lowered (elt : Elt) : Bytes × Bytes := (lower elt.key, elt.value)

def isLength (elt : Elt) : Bool := decide (SameKey contentLength elt.key)

/-- The headers that are sent. -/
def sent (elts : List Elt) : List Elt := elts.filter fun elt => elt.hash != 0

/-- Elements that the setters added for `elts`, at most one of them a length. -/
structure AddedAll (s s' : HeaderMap) (elts : List Elt) : Prop where
  added : ∃ es, s'.list.elts = s.list.elts ++ es ∧ es.map lowered = elts.map escaped
  length : s'.builtin .contentLength = s.builtin .contentLength ∧ elts.filter isLength = [] ∨
    s.builtin .contentLength = none ∧ s'.builtin .contentLength ≠ none ∧
      ∃ elt, elts.filter isLength = [elt] ∧ (atoof (escape .headerValue elt.value)).isSome = true

theorem setHeaders_added {pool : ℕ → Pool} {b : Build} {i : ℕ} {elts : List Elt}
    (h : setHeaders pool b i elts s = .ok (some s')) : AddedAll s s' (sent elts) := by
  induction elts generalizing i s with
  | nil =>
    simp only [setHeaders, Except.ok.injEq, Option.some.injEq] at h
    rw [h]
    exact ⟨⟨[], by simp, rfl⟩, .inl ⟨rfl, rfl⟩⟩
  | cons elt elts ih =>
    rw [setHeaders] at h
    split at h
    · next hz =>
      have hsent : sent (elt :: elts) = sent elts := by simp [sent, hz]
      rw [hsent]
      exact ih h
    · next hz =>
      have hsent : sent (elt :: elts) = elt :: sent elts := by simp [sent, hz]
      split at h
      · cases h
      · next s₁ hset =>
        obtain ⟨⟨e, he, hkey, hvalue⟩, hlength, hother⟩ := setHeader_added hset
        obtain ⟨⟨es, hes, hmap⟩, hrest⟩ := ih h
        rw [hsent]
        refine ⟨⟨e :: es, ?_, ?_⟩, ?_⟩
        · rw [hes, he, List.append_assoc, List.singleton_append]
        · rw [List.map_cons, List.map_cons, hmap, lowered, hkey, hvalue, escaped]
        · by_cases hc : SameKey contentLength elt.key
          · obtain ⟨hnone, hsome, hatoof⟩ := hlength hc
            have hf : (elt :: sent elts).filter isLength = elt :: (sent elts).filter isLength := by
              simp [isLength, hc]
            rw [hf]
            rcases hrest with ⟨hkeep, hnil⟩ | ⟨hn, -⟩
            · refine .inr ⟨hnone, by rwa [hkeep], elt, by rw [hnil], hatoof⟩
            · exact absurd hn hsome
          · have hf : (elt :: sent elts).filter isLength = (sent elts).filter isLength := by
              simp [isLength, hc]
            rw [hf, ← hother hc]
            exact hrest
      · simp at h

/-! ### The call -/

def pseudo (name : String) (headers : List Elt) : Option Bytes :=
  (headers.filter fun elt => elt.key = ascii name).getLast?.map Elt.value

/-- What of the guest's headers is not in the request already. -/
def remaining (headers : List Elt) : List Elt :=
  headers.filter fun elt => !isPseudo elt && !isHardCoded elt

theorem pseudo_cons (name : String) (elt : Elt) (headers : List Elt) :
    pseudo name (elt :: headers) =
      if elt.key = ascii name then (pseudo name headers).or (some elt.value)
      else pseudo name headers := by
  rw [pseudo, pseudo]
  split
  · next h =>
    have hf : (elt :: headers).filter (fun elt => elt.key = ascii name) =
        elt :: headers.filter (fun elt => elt.key = ascii name) := by simp [h]
    rw [hf, List.getLast?_cons]
    cases (headers.filter fun elt => elt.key = ascii name).getLast? <;> rfl
  · next h =>
    have hf : (elt :: headers).filter (fun elt => elt.key = ascii name) =
        headers.filter (fun elt => elt.key = ascii name) := by simp [h]
    rw [hf]

/-- What the loop reads of the headers, on top of the call it has. -/
structure ReadAll (call call' : Call) (headers : List Elt) : Prop where
  method : call'.method = (pseudo ":method" headers).getD call.method
  path : call'.path = (pseudo ":path" headers).getD call.path
  authority : call'.authority = (pseudo ":authority" headers).getD call.authority
  body : call'.reqBody = call.reqBody
  sent : sent call'.headers =
    sent call.headers ++ (remaining headers).map fun elt => { elt with hash := 1 }

theorem readPseudo_read (call : Call) (elt : Elt) :
    (readPseudo call elt).method = (if elt.key = ascii ":method" then elt.value else call.method) ∧
      (readPseudo call elt).path = (if elt.key = ascii ":path" then elt.value else call.path) ∧
      (readPseudo call elt).authority =
        (if elt.key = ascii ":authority" then elt.value else call.authority) ∧
      (readPseudo call elt).reqBody = call.reqBody ∧ (readPseudo call elt).headers = call.headers := by
  have hmp : ascii ":method" ≠ ascii ":path" := by decide
  have hma : ascii ":method" ≠ ascii ":authority" := by decide
  have hpa : ascii ":path" ≠ ascii ":authority" := by decide
  rw [readPseudo]
  by_cases hm : elt.key = ascii ":method"
  · simp [hm, hmp, hma]
  · by_cases hp : elt.key = ascii ":path"
    · simp [hp, hmp.symm, hpa]
    · by_cases ha : elt.key = ascii ":authority"
      · simp [ha, hma.symm, hpa.symm]
      · simp [hm, hp, ha]

theorem not_pseudo {elt : Elt} (h : isPseudo elt = false) :
    elt.key ≠ ascii ":method" ∧ elt.key ≠ ascii ":path" ∧ elt.key ≠ ascii ":authority" := by
  refine ⟨?_, ?_, ?_⟩
  · intro he
    rw [isPseudo, he] at h
    exact absurd h (by decide)
  · intro he
    rw [isPseudo, he] at h
    exact absurd h (by decide)
  · intro he
    rw [isPseudo, he] at h
    exact absurd h (by decide)

theorem readHeaders_read (call : Call) (headers : List Elt) :
    ReadAll call (headers.foldl readHeader call) headers := by
  induction headers generalizing call with
  | nil => exact ⟨rfl, rfl, rfl, rfl, by simp [remaining]⟩
  | cons elt headers ih =>
    obtain ⟨hm, hp, ha, hb, hs⟩ := ih (readHeader call elt)
    have hor : ∀ (o : Option Bytes) (v c : Bytes), o.getD v = (o.or (some v)).getD c := by
      intro o v c
      cases o <;> rfl
    rw [List.foldl_cons]
    by_cases hps : isPseudo elt = true
    · obtain ⟨hm', hp', ha', hb', hh'⟩ := readPseudo_read call elt
      have hr : readHeader call elt = { readPseudo call elt with
          headers := (readPseudo call elt).headers ++ [{ elt with hash := 0 }] } := by
        simp [readHeader, hps]
      have hrem : remaining (elt :: headers) = remaining headers := by simp [remaining, hps]
      rw [hr] at hm hp ha hb hs ⊢
      refine ⟨?_, ?_, ?_, ?_, ?_⟩
      · rw [hm, pseudo_cons, hm']
        split
        · exact hor _ _ _
        · rfl
      · rw [hp, pseudo_cons, hp']
        split
        · exact hor _ _ _
        · rfl
      · rw [ha, pseudo_cons, ha']
        split
        · exact hor _ _ _
        · rfl
      · exact hb.trans hb'
      · rw [hs, hrem, hh']
        simp [sent]
    · have hps : isPseudo elt = false := by simpa using hps
      obtain ⟨h1, h2, h3⟩ := not_pseudo hps
      have hr : ∃ n, readHeader call elt =
          { call with headers := call.headers ++ [{ elt with hash := n }] } ∧
          n = if isHardCoded elt then 0 else 1 := by
        by_cases hc : isHardCoded elt
        · exact ⟨0, by simp [readHeader, hps, hc], by simp [hc]⟩
        · exact ⟨1, by simp [readHeader, hps, hc], by simp [hc]⟩
      obtain ⟨n, hr, hn⟩ := hr
      rw [hr] at hm hp ha hb hs ⊢
      refine ⟨?_, ?_, ?_, hb, ?_⟩
      · rw [hm, pseudo_cons, if_neg h1]
      · rw [hp, pseudo_cons, if_neg h2]
      · rw [ha, pseudo_cons, if_neg h3]
      · rw [hs, hn]
        by_cases hc : isHardCoded elt
        · simp [sent, remaining, hps, hc]
        · simp [sent, remaining, hps, hc, List.filter_cons]

/-! ### The length and the bytes -/

theorem sprintNum_length (k n : ℕ) (p : Bytes) : (sprintNum k n p).length ≤ k + p.length := by
  induction k generalizing n p with
  | zero => simp [sprintNum]
  | succ k ih =>
    rw [sprintNum]
    split
    · simp only [List.length_cons]
      omega
    · have hih := ih (n / 10) (UInt8.ofNat (48 + n % 10) :: p)
      simp only [List.length_cons] at hih
      omega

theorem digit_byte {n : ℕ} (h : n < 10) :
    isDigit (UInt8.ofNat (48 + n)) = true ∧ (UInt8.ofNat (48 + n)).toNat - 48 = n := by
  have hall : ∀ n < 10, isDigit (UInt8.ofNat (48 + n)) = true ∧
      (UInt8.ofNat (48 + n)).toNat - 48 = n := by decide
  exact hall n h

/-- Digits in front of others are read back first. -/
theorem digitsFrom_sprintNum {k n : ℕ} (h : n < 10 ^ k) (p : Bytes) :
    digitsFrom 0 (sprintNum k n p) = digitsFrom n p := by
  induction k generalizing n p with
  | zero =>
    have hn : n = 0 := by simpa using h
    rw [hn, sprintNum]
  | succ k ih =>
    obtain ⟨hdigit, hval⟩ := digit_byte (Nat.mod_lt n (by decide : 0 < 10))
    have hstep : ∀ m, digitsFrom m (UInt8.ofNat (48 + n % 10) :: p) = digitsFrom (m * 10 + n % 10) p := by
      intro m
      rw [digitsFrom, if_pos hdigit, hval]
    rw [sprintNum]
    split
    · next hz =>
      rw [hstep]
      congr 1
      omega
    · have hlt : n / 10 < 10 ^ k := by
        rw [Nat.pow_succ] at h
        omega
      rw [ih hlt, hstep]
      congr 1
      omega

theorem sprintNum_ne_nil (k n : ℕ) (p : Bytes) : sprintNum (k + 1) n p ≠ [] := by
  induction k generalizing n p with
  | zero =>
    rw [sprintNum]
    split
    · simp
    · simp [sprintNum]
  | succ k ih =>
    rw [sprintNum]
    split
    · simp
    · exact ih _ _

theorem number_offT {n : ℕ} (h : n < 10 ^ 20) : number (offT n) = some n := by
  rw [number, offT, if_neg (sprintNum_ne_nil 19 n []), digitsFrom_sprintNum h]
  rfl

theorem foldl_append (b : Bytes) (elts : List Elt) :
    elts.foldl (fun b elt => b ++ writeHeader elt) b = b ++ elts.flatMap writeHeader := by
  induction elts generalizing b with
  | nil => simp
  | cons e elts ih => rw [List.foldl_cons, ih, List.flatMap_cons, List.append_assoc]

theorem foldl_len (n : ℕ) (elts : List Elt) :
    elts.foldl (fun len elt => len + headerLen elt) n = n + (elts.flatMap writeHeader).length := by
  induction elts generalizing n with
  | nil => simp
  | cons e elts ih =>
    have he : (writeHeader e).length = headerLen e := by
      simp [writeHeader, headerLen, crlf, ascii]
      omega
    rw [List.foldl_cons, ih, List.flatMap_cons, List.length_append, he]
    omega

/-- What is written fits the length that was computed. -/
theorem requestBytes_fits (call : DispatchRequest.Call) (auth : Bytes) (s : HeaderMap) :
    (requestBytes call auth s).length ≤ requestLen call auth s := by
  have hnum : (offT call.reqBody.length).length ≤ 20 := sprintNum_length 20 _ []
  rw [requestBytes, requestLen]
  rw [foldl_append, foldl_len]
  split
  · simp only [List.length_append, crlf, List.length_cons, List.length_nil, offTLen]
    have h1 : (ascii " ").length = 1 := rfl
    have h2 : (ascii ": ").length = 2 := rfl
    omega
  · simp only [List.length_append, crlf, List.length_cons, List.length_nil]
    have h1 : (ascii " ").length = 1 := rfl
    have h2 : (ascii ": ").length = 2 := rfl
    omega

/-! ### The lines -/

/-- The header fields: those of the dispatch, then those of the setters. -/
def fieldsOf (call : DispatchRequest.Call) (auth : Bytes) (s : HeaderMap) : List Lib.HttpRequest.Field :=
  [⟨ascii "Host", auth⟩, ⟨ascii "Connection", ascii "close"⟩] ++
    ((if s.builtin .contentLength = none then [⟨contentLength, offT call.reqBody.length⟩] else []) ++
      s.list.elts.map fun e => ⟨e.key, e.value⟩)

theorem requestBytes_render (call : DispatchRequest.Call) (auth : Bytes) (s : HeaderMap) :
    requestBytes call auth s ++ call.reqBody =
      render ⟨call.method, call.path, fieldsOf call auth s, call.reqBody⟩ := by
  have hsp : ascii " " = [32] := rfl
  have hcolon : ascii ": " = [58, 32] := rfl
  have hclose : ascii ": close" = 58 :: 32 :: ascii "close" := rfl
  have hversion : ascii "HTTP/1.1" = version := rfl
  have helts : s.list.elts.flatMap writeHeader =
      (s.list.elts.map fun e => fieldLine ⟨e.key, e.value⟩).flatMap (· ++ [13, 10]) := by
    rw [List.flatMap_map]
    refine List.flatMap_congr fun e _ => ?_
    simp [writeHeader, fieldLine, hcolon, crlf]
  rw [requestBytes]
  rw [foldl_append, helts, hsp, hcolon, hclose, hversion, fieldsOf]
  split
  · simp [render, requestLine, fieldLine, crlf, contentLength, List.flatMap_map, Function.comp_def]
  · simp [render, requestLine, fieldLine, crlf, List.flatMap_map, Function.comp_def]

theorem tchar_of_lower {s t : Bytes} (h : lower s = lower t) (ht : ∀ c ∈ t, isTchar c = true) :
    ∀ c ∈ s, isTchar c = true := by
  intro c hc
  have hm : tolower c ∈ t.map tolower := by
    rw [← show s.map tolower = t.map tolower from h]
    exact List.mem_map_of_mem hc
  obtain ⟨d, hd, he⟩ := List.mem_map.mp hm
  rw [← tchar_tolower, ← he, tchar_tolower]
  exact ht d hd

theorem digit_not_ows : ∀ c : UInt8, isDigit c = true → isOws c = false :=
  byte_forall (by decide)

theorem atoofFrom_digits {n : ℕ} {s : Bytes} (h : (atoofFrom n s).isSome = true) :
    ∀ c ∈ s, isDigit c = true := by
  induction s generalizing n with
  | nil => simp
  | cons c s ih =>
    rw [atoofFrom] at h
    split at h
    · cases h
    · next hc =>
      split at h
      · cases h
      · intro d hd
        rcases List.mem_cons.mp hd with rfl | hd
        · simp only [not_or, UInt8.not_lt] at hc
          simp [isDigit, hc]
        · exact ih h d hd

theorem atoof_digits {s : Bytes} (h : (atoof s).isSome = true) : ∀ c ∈ s, isDigit c = true := by
  rw [atoof] at h
  split at h
  · cases h
  · exact atoofFrom_digits h

theorem number_trim {s : Bytes} {n : ℕ} (h : number s = some n) : trim s = s :=
  trim_eq fun c hc => digit_not_ows c (number_digits h c hc)

/-! ### The parsed request -/

/-- Names in lower case, with their values. -/
def fieldsLower (r : Request) : List (Bytes × Bytes) := r.fields.map fun f => (lower f.name, f.value)

def valuesNamed (name : Bytes) (fs : List (Bytes × Bytes)) : List Bytes :=
  (fs.filter fun f => f.1 = lower name).map Prod.snd

def isFraming (f : Bytes × Bytes) : Bool :=
  f.1 = lower (ascii "Host") || f.1 = lower (ascii "Connection") || f.1 = lower contentLength

/-- A header as it is sent and parsed. -/
def parsed (elt : Elt) : Bytes × Bytes := ((escaped elt).1, trim (escaped elt).2)

/-- The authority of the guest, else that of the peer. -/
def authorityOf (headers : List Elt) (peer : Peer) : Bytes :=
  let given := (pseudo ":authority" headers).getD []
  if given ≠ [] then given else if peer.unix then ascii "localhost" else peer.host

def methodOf (headers : List Elt) : Bytes := (pseudo ":method" headers).getD []

def pathOf (headers : List Elt) : Bytes := (pseudo ":path" headers).getD []

/-- The request line, one of each framing header, the others in their order, the body. -/
structure Framed (headers : List Elt) (body auth : Bytes) (out : Out) : Prop where
  fits : out.head.length ≤ out.len
  parses : ∃ r, parseRequest (out.head ++ out.body) = some r ∧
    r.method = methodOf headers ∧ r.target = pathOf headers ∧ r.body = body ∧
    valuesNamed (ascii "Host") (fieldsLower r) = [trim auth] ∧
    valuesNamed (ascii "Connection") (fieldsLower r) = [ascii "close"] ∧
    (∃ v, valuesNamed contentLength (fieldsLower r) = [v] ∧ number v = some body.length) ∧
    ((fieldsLower r).filter fun f => !isFraming f) =
      ((remaining headers).filter fun elt => !isLength elt).map parsed

theorem remaining_host {headers : List Elt} {elt : Elt} (h : elt ∈ remaining headers) :
    (parsed elt).1 ≠ lower (ascii "Host") ∧ (parsed elt).1 ≠ lower (ascii "Connection") := by
  have hc := (List.mem_filter.mp h).2
  simp only [Bool.and_eq_true, Bool.not_eq_true', isHardCoded, Bool.or_eq_false_iff, isNamed] at hc
  obtain ⟨-, hhost, hconn⟩ := hc
  have hclean : ∀ name ∈ [ascii "Host", ascii "Connection"],
      (∀ c ∈ name, c ≠ 37 ∧ EscapeKind.escapes .headerName c = false) ∧ (0 : UInt8) ∉ name := by
    decide
  have hne : ∀ name ∈ [ascii "Host", ascii "Connection"], keyIs name elt = false →
      (parsed elt).1 ≠ lower name := by
    intro name hn hk he
    obtain ⟨hcl, hz⟩ := hclean name hn
    have hsame := (keyIs_iff hz elt).mpr ((sameKey_escape hcl).mp he.symm)
    rw [hsame] at hk
    cases hk
  exact ⟨hne _ (by simp) hhost, hne _ (by simp) hconn⟩

theorem parsed_length (elt : Elt) : (parsed elt).1 = lower contentLength ↔ isLength elt = true := by
  rw [isLength, decide_eq_true_eq, ← sameKey_escape contentLength_clean]
  exact ⟨Eq.symm, Eq.symm⟩

/-- The fields that a parser finds in what was written. -/
def sentFields (headers : List Elt) (auth : Bytes) (length : List Bytes) : List (Bytes × Bytes) :=
  [(lower (ascii "Host"), trim auth), (lower (ascii "Connection"), ascii "close")] ++
    (length.map (fun v => (lower contentLength, v)) ++ (remaining headers).map parsed)

theorem names_differ : lower (ascii "Host") ≠ lower (ascii "Connection") ∧
    lower (ascii "Host") ≠ lower contentLength ∧
    lower (ascii "Connection") ≠ lower contentLength := by
  decide

theorem sentFields_framing (headers : List Elt) (auth : Bytes) (length : List Bytes) :
    valuesNamed (ascii "Host") (sentFields headers auth length) = [trim auth] ∧
      valuesNamed (ascii "Connection") (sentFields headers auth length) = [ascii "close"] ∧
      valuesNamed contentLength (sentFields headers auth length) =
        length ++ ((remaining headers).filter isLength).map (fun elt => (parsed elt).2) ∧
      ((sentFields headers auth length).filter fun f => !isFraming f) =
        ((remaining headers).filter fun elt => !isLength elt).map parsed := by
  obtain ⟨hhc, hhl, hcl⟩ := names_differ
  have hnone : ∀ name, name = ascii "Host" ∨ name = ascii "Connection" →
      ((remaining headers).map parsed).filter (fun f => f.1 = lower name) = [] := by
    intro name hname
    refine List.filter_eq_nil_iff.mpr fun f hf => ?_
    obtain ⟨elt, helt, rfl⟩ := List.mem_map.mp hf
    obtain ⟨hh, hc⟩ := remaining_host helt
    rcases hname with rfl | rfl
    · simpa using hh
    · simpa using hc
  have hlen : ((remaining headers).map parsed).filter (fun f => f.1 = lower contentLength) =
      ((remaining headers).filter isLength).map parsed := by
    rw [List.filter_map]
    congr 1
    refine List.filter_congr fun elt _ => ?_
    simp only [Function.comp_apply]
    rw [Bool.eq_iff_iff, decide_eq_true_eq]
    exact parsed_length elt
  have hrest : ((remaining headers).map parsed).filter (fun f => !isFraming f) =
      ((remaining headers).filter fun elt => !isLength elt).map parsed := by
    rw [List.filter_map]
    congr 1
    refine List.filter_congr fun elt helt => ?_
    obtain ⟨hh, hc⟩ := remaining_host helt
    simp only [Function.comp_apply, isFraming]
    congr 1
    rw [Bool.eq_iff_iff, ← parsed_length]
    simp [hh, hc]
  refine ⟨?_, ?_, ?_, ?_⟩
  · simp [valuesNamed, sentFields, List.filter_append, hnone _ (.inl rfl), hhc.symm, hhl.symm,
      List.filter_map, Function.comp_def]
  · simp [valuesNamed, sentFields, List.filter_append, hnone _ (.inr rfl), hhc, hcl.symm,
      List.filter_map, Function.comp_def]
  · simp only [valuesNamed, sentFields, List.filter_append, hlen]
    simp [hhl, hcl, List.filter_map, Function.comp_def]
  · simp only [sentFields, List.filter_append, hrest]
    simp [isFraming, List.filter_map, Function.comp_def]

variable {pool : ℕ → Pool} {b : Build} {room room' : Bool} {headers : List Elt} {body : Bytes}
  {call : DispatchRequest.Call} {peer : Peer} {out : Out}

theorem dispatch_call (h : dispatch headers body room = .ok call) (peer : Peer) :
    call.method = methodOf headers ∧ call.path = pathOf headers ∧
      authority call peer = authorityOf headers peer ∧ call.reqBody = body ∧
      sent call.headers = (remaining headers).map fun elt => { elt with hash := 1 } := by
  obtain ⟨hm, hp, ha, hb, hs⟩ := readHeaders_read newCall headers
  rw [dispatch] at h
  have hauth : authority (headers.foldl readHeader newCall) peer = authorityOf headers peer := by
    rw [authority, authorityOf, ha]
    rfl
  split at h
  · cases h
  · split at h
    · cases h
    · split at h
      · next hbody =>
        obtain rfl := Except.ok.inj h
        exact ⟨hm, hp, hauth, hb.trans hbody.symm, hs⟩
      · split at h
        · obtain rfl := Except.ok.inj h
          exact ⟨hm, hp, hauth, rfl, hs⟩
        · cases h

/-- What is sent, with the length that the guest gave or that of the body. -/
structure Sent (headers : List Elt) (call : DispatchRequest.Call) (auth : Bytes) (out : Out)
    (fs : List Lib.HttpRequest.Field) (length : List Bytes) : Prop where
  fits : out.head.length ≤ out.len
  bytes : out.head ++ out.body = render ⟨call.method, call.path, fs, call.reqBody⟩
  fields : fs.map (fun f => (lower f.name, trim f.value)) = sentFields headers auth length
  clean : IsValue auth → ∀ f ∈ fs, f.Clean
  length : length = [offT call.reqBody.length] ∧ (remaining headers).filter isLength = [] ∨
    length = [] ∧ ∃ elt, (remaining headers).filter isLength = [elt] ∧
      (atoof (escape .headerValue elt.value)).isSome = true

theorem request_sent (hbody : body.length < 10 ^ 20) (hd : dispatch headers body room = .ok call)
    (hr : dispatchRequest pool b room' call peer = .ok (some out)) :
    ∃ fs length, Sent headers call (authority call peer) out fs length := by
  obtain ⟨-, -, -, hreq, hsent⟩ := dispatch_call hd peer
  rw [dispatchRequest] at hr
  split at hr
  · cases hr
  · cases hr
  · next s hset =>
    split at hr
    · obtain ⟨⟨es, hes, hmap⟩, hlen⟩ := setHeaders_added hset
      obtain rfl := Option.some.inj (Except.ok.inj hr)
      have helts : s.list.elts = es := hes
      have hmark : ((remaining headers).map fun elt => { elt with hash := 1 }).map escaped =
          (remaining headers).map escaped := by
        rw [List.map_map]
        rfl
      rw [hsent, hmark] at hmap
      have hfilter : ((remaining headers).map fun elt => { elt with hash := 1 }).filter isLength =
          ((remaining headers).filter isLength).map fun elt => { elt with hash := 1 } := by
        rw [List.filter_map]
        rfl
      rw [hsent, hfilter] at hlen
      have hnum : trim (offT call.reqBody.length) = offT call.reqBody.length := by
        rw [hreq]
        exact number_trim (number_offT hbody)
      refine ⟨fieldsOf call (authority call peer) s,
        if s.builtin .contentLength = none then [offT call.reqBody.length] else [],
        requestBytes_fits _ _ _, requestBytes_render _ _ _, ?_, ?_, ?_⟩
      · have htail : (es.map fun e => (⟨e.key, e.value⟩ : Lib.HttpRequest.Field)).map
            (fun f => (lower f.name, trim f.value)) = (remaining headers).map parsed := by
          have hpair := congrArg (List.map fun p : Bytes × Bytes => (p.1, trim p.2)) hmap
          rw [List.map_map, List.map_map] at hpair
          rw [List.map_map]
          exact hpair
        rw [fieldsOf, helts, sentFields, List.map_append, List.map_append, htail]
        split
        · simp only [List.map_cons, List.map_nil, hnum]
          rfl
        · rfl
      · intro hauth f hf
        rw [fieldsOf, helts] at hf
        have hfix : ∀ f ∈ [(⟨ascii "Connection", ascii "close"⟩ : Lib.HttpRequest.Field)],
            f.Clean := by
          intro f hf
          obtain rfl := List.mem_singleton.mp hf
          exact ⟨List.all_eq_true.mp (by decide), by decide⟩
        have hhost : ∀ c ∈ ascii "Host", isTchar c = true := List.all_eq_true.mp (by decide)
        have hcl : ∀ c ∈ contentLength, isTchar c = true := List.all_eq_true.mp (by decide)
        rcases List.mem_append.mp hf with hf | hf
        · rcases List.mem_cons.mp hf with rfl | hf
          · exact ⟨hhost, hauth⟩
          · exact hfix f hf
        · rcases List.mem_append.mp hf with hf | hf
          · split at hf
            · obtain rfl := List.mem_singleton.mp hf
              refine ⟨hcl, fun c hc => ?_⟩
              rw [hreq] at hc
              have hdigit := number_digits (number_offT hbody) c hc
              have hall : ∀ c : UInt8, isDigit c = true → isText c = true :=
                byte_forall (by decide)
              exact hall c hdigit
            · cases hf
          · obtain ⟨e, he, rfl⟩ := List.mem_map.mp hf
            have hm : lowered e ∈ (remaining headers).map escaped := by
              rw [← hmap]
              exact List.mem_map_of_mem he
            obtain ⟨elt, -, helt⟩ := List.mem_map.mp hm
            have hkey : lower e.key = lower (escape .headerName elt.key) :=
              (congrArg Prod.fst helt).symm
            have hvalue : e.value = escape .headerValue elt.value := (congrArg Prod.snd helt).symm
            refine ⟨tchar_of_lower hkey (escape_tchar elt.key), ?_⟩
            rw [hvalue]
            exact escape_text elt.value
      · rcases hlen with ⟨hnone, hnil⟩ | ⟨-, hsome, elt, hf, hatoof⟩
        · exact .inl ⟨if_pos hnone, List.map_eq_nil_iff.mp hnil⟩
        · refine .inr ⟨if_neg hsome, ?_⟩
          obtain ⟨e, rest, hfe, rfl, hrest⟩ := List.map_eq_cons_iff.mp hf
          rw [List.map_eq_nil_iff.mp hrest] at hfe
          exact ⟨e, hfe, hatoof⟩
    · cases hr

theorem Sent.names {auth : Bytes} {fs : List Lib.HttpRequest.Field} {length : List Bytes}
    (h : Sent headers call auth out fs length) :
    (∀ f ∈ fs, f.name ≠ []) ↔ ∀ elt ∈ remaining headers, elt.key ≠ [] := by
  have hlower : ∀ s : Bytes, lower s = [] ↔ s = [] := fun s => List.map_eq_nil_iff
  constructor
  · intro hfs elt helt hk
    have hm : parsed elt ∈ fs.map fun f => (lower f.name, trim f.value) := by
      rw [h.fields]
      exact List.mem_append_right _ (List.mem_append_right _ (List.mem_map_of_mem helt))
    obtain ⟨f, hf, he⟩ := List.mem_map.mp hm
    refine hfs f hf ((hlower _).mp ?_)
    rw [(Prod.mk.inj he).1]
    show lower (escape .headerName elt.key) = []
    rw [hlower, escape_nil_iff]
    exact hk
  · intro hkeys f hf hn
    have hm : (lower f.name, trim f.value) ∈ sentFields headers auth length := by
      rw [← h.fields]
      exact List.mem_map_of_mem hf
    rw [hn] at hm
    rcases List.mem_append.mp hm with hm | hm
    · simp [lower, ascii] at hm
    · rcases List.mem_append.mp hm with hm | hm
      · obtain ⟨v, -, he⟩ := List.mem_map.mp hm
        exact absurd (Prod.mk.inj he).1 (by decide)
      · obtain ⟨elt, helt, he⟩ := List.mem_map.mp hm
        refine hkeys elt helt ?_
        rw [← escape_nil_iff, ← hlower]
        exact (Prod.mk.inj he).1

/-- The length that is sent is the body's length, unless the guest gave another. -/
theorem Sent.length_iff {auth : Bytes} {fs : List Lib.HttpRequest.Field} {length : List Bytes}
    (h : Sent headers call auth out fs length) (hreq : call.reqBody = body)
    (hbody : body.length < 10 ^ 20) :
    (∃ v, length ++ ((remaining headers).filter isLength).map (fun elt => (parsed elt).2) = [v] ∧
        number v = some body.length) ↔
      ∀ elt ∈ remaining headers, isLength elt = true → number elt.value = some body.length := by
  rcases h.length with ⟨hlen, hnil⟩ | ⟨hlen, elt, hf, hatoof⟩
  · rw [hlen, hnil]
    refine ⟨fun _ elt helt hl => ?_, fun _ => ⟨_, rfl, by rw [hreq, number_offT hbody]⟩⟩
    have hm : elt ∈ (remaining headers).filter isLength := List.mem_filter.mpr ⟨helt, hl⟩
    rw [hnil] at hm
    cases hm
  · have hdigits : ∀ c ∈ escape .headerValue elt.value, isDigit c = true := atoof_digits hatoof
    have hplain : escape .headerValue elt.value = elt.value := by
      refine escape_of_no_percent fun hm => ?_
      exact absurd (hdigits 37 hm) (by decide)
    have htrim : trim (escape .headerValue elt.value) = elt.value := by
      rw [trim_eq fun c hc => digit_not_ows c (hdigits c hc), hplain]
    rw [hlen, hf]
    have hvalue : (parsed elt).2 = elt.value := htrim
    constructor
    · rintro ⟨v, hv, hn⟩ e he hl
      have hm : e ∈ (remaining headers).filter isLength := List.mem_filter.mpr ⟨he, hl⟩
      rw [hf] at hm
      obtain rfl := List.mem_singleton.mp hm
      rw [← hn]
      have hv' : (parsed e).2 = v := by simpa using hv
      rw [← hv', hvalue]
    · intro hall
      have hm : elt ∈ (remaining headers).filter isLength := by
        rw [hf]
        exact List.mem_singleton_self elt
      obtain ⟨helt, hl⟩ := List.mem_filter.mp hm
      exact ⟨elt.value, by simp [hvalue], hall elt helt hl⟩

/-- The request is framed exactly when what bypasses the setters is well formed,
no header is without a name, and a length that the guest gives is that of the body. -/
theorem request_framed_iff (hbody : body.length < 2 ^ 32)
    (hd : dispatch headers body room = .ok call)
    (hr : dispatchRequest pool b room' call peer = .ok (some out)) :
    Framed headers body (authorityOf headers peer) out ↔
      IsToken (methodOf headers) ∧ IsTarget (pathOf headers) ∧
        IsValue (authorityOf headers peer) ∧ (∀ elt ∈ remaining headers, elt.key ≠ []) ∧
        ∀ elt ∈ remaining headers, isLength elt = true → number elt.value = some body.length := by
  have hbody : body.length < 10 ^ 20 := by omega
  obtain ⟨hm, hp, hauth, hreq, -⟩ := dispatch_call hd peer
  obtain ⟨fs, length, hs⟩ := request_sent hbody hd hr
  rw [hauth] at hs
  have hbytes := hs.bytes
  rw [hm, hp, hreq] at hbytes
  obtain ⟨hhost, hconn, hlength, hothers⟩ :=
    sentFields_framing headers (authorityOf headers peer) length
  constructor
  · rintro ⟨-, r, hr, hrm, hrp, hrb, hrh, -, hrl, -⟩
    obtain ⟨hmethod, htarget, hvalues⟩ := parseRequest_sound hr
    rw [hrm] at hmethod
    rw [hrp] at htarget
    have hvalue : IsValue (authorityOf headers peer) := by
      have hmem : trim (authorityOf headers peer) ∈
          valuesNamed (ascii "Host") (fieldsLower r) := by
        rw [hrh]
        exact List.mem_singleton_self _
      obtain ⟨p, hp, he⟩ := List.mem_map.mp hmem
      obtain ⟨f, hf, rfl⟩ := List.mem_map.mp (List.mem_filter.mp hp).1
      have hfv := hvalues f hf
      rw [show f.value = trim (authorityOf headers peer) from he] at hfv
      exact hfv.of_trim
    have hnames : ∀ f ∈ fs, f.name ≠ [] := by
      intro f hf hn
      rw [hbytes, parseRequest_nil hmethod htarget (hs.clean hvalue) hf hn] at hr
      cases hr
    rw [hbytes, parseRequest_render hmethod htarget fun f hf => ⟨hs.clean hvalue f hf, hnames f hf⟩]
      at hr
    obtain rfl := Option.some.inj hr
    have hfields : fieldsLower ⟨methodOf headers, pathOf headers, fs.map Field.trimmed, body⟩ =
        sentFields headers (authorityOf headers peer) length := by
      rw [← hs.fields, fieldsLower, List.map_map]
      rfl
    rw [hfields, hlength, hs.length_iff hreq hbody] at hrl
    exact ⟨hmethod, htarget, hvalue, hs.names.mp hnames, hrl⟩
  · rintro ⟨hmethod, htarget, hvalue, hkeys, hlen⟩
    have hnames := hs.names.mpr hkeys
    refine ⟨hs.fits, ⟨methodOf headers, pathOf headers, fs.map Field.trimmed, body⟩, ?_, rfl, rfl,
      rfl, ?_⟩
    · rw [hbytes]
      exact parseRequest_render hmethod htarget
        (fun f hf => ⟨hs.clean hvalue f hf, hnames f hf⟩) body
    · have hfields : fieldsLower ⟨methodOf headers, pathOf headers, fs.map Field.trimmed, body⟩ =
          sentFields headers (authorityOf headers peer) length := by
        rw [← hs.fields, fieldsLower, List.map_map]
        rfl
      rw [hfields, hlength, hs.length_iff hreq hbody]
      exact ⟨hhost, hconn, hlen, hothers⟩

/-! ### Concrete requests -/

def plenty : ℕ → Pool := fun _ => ⟨10, true, true, true, true⟩

def allBuild : Build := ⟨true, true, true, true⟩

def upstream : Peer := ⟨false, ascii "a"⟩

def guestHeaders (authority : Bytes) : List Elt :=
  [⟨0, ascii ":method", ascii "POST"⟩, ⟨0, ascii ":path", ascii "/x"⟩,
    ⟨0, ascii ":authority", authority⟩, ⟨0, ascii "host", ascii "b"⟩,
    ⟨0, ascii "X-A", ascii "1"⟩, ⟨0, ascii "cookie", ascii "c"⟩]

def sentCall (authority : Bytes) : DispatchRequest.Call :=
  ((dispatch (guestHeaders authority) (ascii "hi") true).toOption).getD newCall

def sentOut (authority : Bytes) : Out :=
  ((dispatchRequest plenty allBuild true (sentCall authority) upstream).toOption.join).getD
    ⟨0, [], []⟩

theorem post_framed : Framed (guestHeaders (ascii "a")) (ascii "hi") (ascii "a")
    (sentOut (ascii "a")) := by
  have hd : dispatch (guestHeaders (ascii "a")) (ascii "hi") true = .ok (sentCall (ascii "a")) := rfl
  have hr : dispatchRequest plenty allBuild true (sentCall (ascii "a")) upstream =
      .ok (some (sentOut (ascii "a"))) := rfl
  have hkeys : ∀ elt ∈ remaining (guestHeaders (ascii "a")), elt.key ≠ [] ∧
      isLength elt = false := by decide
  refine (request_framed_iff (by decide) hd hr).mpr
    ⟨by decide, by decide, by decide, fun elt h => (hkeys elt h).1, ?_⟩
  intro elt h hl
  rw [(hkeys elt h).2] at hl
  cases hl

def twoLines : Bytes := ascii "a\r\nX-B: 2"

/-- The request that is sent with `twoLines` as the authority. -/
def splitRequest : Request :=
  ⟨ascii "POST", ascii "/x",
    [⟨ascii "Host", ascii "a"⟩, ⟨ascii "X-B", ascii "2"⟩, ⟨ascii "Connection", ascii "close"⟩,
      ⟨ascii "Content-Length", ascii "2"⟩, ⟨ascii "X-A", ascii "1"⟩, ⟨ascii "Cookie", ascii "c"⟩],
    ascii "hi"⟩

theorem splitRequest_sent :
    parseRequest ((sentOut twoLines).head ++ (sentOut twoLines).body) = some splitRequest := by
  decide

/-- An authority with a line break adds a header line. -/
theorem authority_adds_line :
    ∃ (authority : Bytes) (call : DispatchRequest.Call) (out : Out) (r : Request),
      dispatch (guestHeaders authority) (ascii "hi") true = .ok call ∧
      dispatchRequest plenty allBuild true call upstream = .ok (some out) ∧
      parseRequest (out.head ++ out.body) = some r ∧
      ⟨ascii "X-B", ascii "2"⟩ ∈ r.fields ∧
      ¬ Framed (guestHeaders authority) (ascii "hi") (authorityOf (guestHeaders authority) upstream)
        out := by
  refine ⟨twoLines, sentCall _, sentOut _, splitRequest, rfl, rfl, splitRequest_sent,
    by decide, fun h => ?_⟩
  obtain ⟨r, hr, -, -, -, hhost, -⟩ := h.parses
  obtain rfl := Option.some.inj (splitRequest_sent.symm.trans hr)
  exact absurd hhost (by decide)

end NgxWasm.Http.RequestFraming
