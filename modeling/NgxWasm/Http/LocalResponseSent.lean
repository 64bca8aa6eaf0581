import NgxWasm.Http.LocalResponse

/-!
# The local response that is sent (ngx_http_wasm_flush_local_response)

A flush sets the stashed headers one by one, each in the place of its key, and then the
length of the body.
-/

namespace NgxWasm.Http.LocalResponseSent

set_option maxRecDepth 8192

open NgxWasm NgxWasm.ProxyWasm.Pairs NgxWasm.Http.Headers NgxWasm.Http.HeaderSet
open NgxWasm.Http.HeaderRemoval NgxWasm.Http.HeaderPlaces NgxWasm.Http.LocalResponse
open NgxWasm.Lib.Run
open NgxWasm.Http.HeaderNames (fullBuild handlers_plain)
open NgxWasm.Http.ConnectionHeader (respConnectionHandler)
open NgxWasm.Http.ContentLength (respContentLengthHandler numberOf atoof_number name)
open NgxWasm.Http.DispatchRequest (offT)

/-! ### Handlers of the response -/

abbrev handlerFor (key : Bytes) : Handler := handlerOf respHeadersHandlers key

theorem handlerFor_named {h : Handler} {key : Bytes} (hh : h ∈ respHeadersHandlers)
    (hsame : SameKey h.name (stored key)) : handlerFor key = h :=
  @handlerOf_named fullBuild .response h key hh hsame

theorem handlerFor_mem {key : Bytes} (hset : (handlerFor key).setter ≠ .header) :
    handlerFor key ∈ respHeadersHandlers ∧ SameKey (stored key) (handlerFor key).name :=
  @handlerOf_mem fullBuild .response key hset

/-- The setters that serve one name only. -/
theorem setter_name : ∀ g ∈ respHeadersHandlers, ∀ h ∈ respHeadersHandlers,
    g.setter = h.setter → g.setter = .contentType ∨ g.setter = .respConnection ∨
      g.setter = .respContentLength → g.name = h.name := by
  decide

theorem same_of_setter {key key' : Bytes} {setter : Setter}
    (hset : (handlerFor key).setter = setter) (hset' : (handlerFor key').setter = setter)
    (hone : setter = .contentType ∨ setter = .respConnection ∨ setter = .respContentLength) :
    SameKey (stored key) (stored key') := by
  have hne : setter ≠ .header := by
    intro h
    rw [h] at hone
    simp at hone
  obtain ⟨hg, hgsame⟩ := handlerFor_mem (by rw [hset]; exact hne)
  obtain ⟨hh, hhsame⟩ := handlerFor_mem (by rw [hset']; exact hne)
  have hname := setter_name _ hg _ hh (hset.trans hset'.symm) (by rw [hset]; exact hone)
  rw [hname] at hgsame
  exact hgsame.trans hhsame.symm

theorem length_setter {key : Bytes} :
    (handlerFor key).setter = .respContentLength ↔ SameKey name (stored key) := by
  constructor
  · intro hset
    obtain ⟨hg, hsame⟩ := handlerFor_mem (by rw [hset]; decide)
    have hname := setter_name _ hg (handler "Content-Length" .contentLength .respContentLength)
      (by simp [respHeadersHandlers]) hset (.inr (.inr hset))
    rw [hname] at hsame
    exact hsame.symm
  · intro hsame
    rw [handlerFor_named (h := handler "Content-Length" .contentLength .respContentLength)
      (by simp [respHeadersHandlers]) hsame]
    rfl

/-- Escaping leaves the name of the length alone. -/
theorem stored_name : stored name = name :=
  escape_eq ((@handlers_plain fullBuild .response
    (handler "Content-Length" .contentLength .respContentLength) (by simp [handlers, respHeadersHandlers])).unescaped
    (SameKey.refl _))

theorem setter_cases (setter : Setter) :
    setter = .contentType ∨ setter = .respConnection ∨ enters false setter = true := by
  cases setter <;> decide

/-! ### One header -/

/-- The length of the search in a value of the Connection header. -/
def searchLen (value : Bytes) : ℕ := (value.length + (2 ^ 64 - 1)) % 2 ^ 64

/-- What a value of the Connection header says of the connection. -/
def keepsAlive (value : Bytes) : Option Bool :=
  if strcasestrn (ascii "keep-alive") (searchLen value) value then some true
  else if strcasestrn (ascii "close") (searchLen value) value then some false
  else none

/-- A value that puts the status to that of an upgrade. -/
def Upgrades (value : Bytes) : Prop :=
  keepsAlive value = none ∧ strcasestrn (ascii "upgrade") (searchLen value) value = true

/-- The header is in force in the response. -/
def IsSet (key value : Bytes) (a : Answer) : Prop :=
  match (handlerFor key).setter with
  | .contentType => a.request.headers.contentType = escape .headerValue value
  | .respConnection => ∀ b, keepsAlive (escape .headerValue value) = some b →
      a.request.keepalive = b ∧ a.request.reqKeepalive = some b
  | _ => valuesOf (stored key) a.request.headers.list.elts = [escape .headerValue value]

/-- The entries of the length say what the number says. -/
def Lengths (a : Answer) : Prop :=
  ∀ v ∈ valuesOf name a.request.headers.list.elts,
    ∃ n : ℕ, numberOf v = some n ∧ a.contentLengthN = n

theorem isSet_enters {key value : Bytes} {a : Answer}
    (henters : enters false (handlerFor key).setter = true) :
    IsSet key value a ↔
      valuesOf (stored key) a.request.headers.list.elts = [escape .headerValue value] := by
  unfold IsSet
  split
  · next hset =>
    rw [hset] at henters
    cases henters
  · next hset =>
    rw [hset] at henters
    cases henters
  · exact Iff.rfl

theorem IsSet.of_same {key value : Bytes} {a a' : Answer} (h : IsSet key value a)
    (htype : (handlerFor key).setter = .contentType →
      a'.request.headers.contentType = a.request.headers.contentType)
    (hconn : (handlerFor key).setter = .respConnection →
      a'.request.keepalive = a.request.keepalive ∧
        a'.request.reqKeepalive = a.request.reqKeepalive)
    (hlist : enters false (handlerFor key).setter = true →
      valuesOf (stored key) a'.request.headers.list.elts =
        valuesOf (stored key) a.request.headers.list.elts) : IsSet key value a' := by
  rcases setter_cases (handlerFor key).setter with hset | hset | hset
  · simp only [IsSet, hset] at h ⊢
    rw [htype hset]
    exact h
  · simp only [IsSet, hset] at h ⊢
    rw [(hconn hset).1, (hconn hset).2]
    exact h
  · rw [isSet_enters hset] at h ⊢
    rw [hlist hset]
    exact h

/-- What the call of one header does. -/
structure Filling (keys : Bytes → Prop) (key value : Bytes) (a a' : Answer) : Prop where
  ready : Ready false respHeadersHandlers keys a'.request.headers
  lengths : Lengths a'
  status : a'.request.status = a.request.status
  isSet : IsSet key value a'
  kept : ∀ k v, ¬ SameKey (stored key) (stored k) →
    (enters false (handlerFor k).setter = true → keys k) → IsSet k v a → IsSet k v a'

section
variable {pool : Pool} {keys : Bytes → Prop} {key value : Bytes} {hv : HeaderSet} {a a' : Answer}

theorem respConnection_ok {r r' : ConnectionHeader.Request} {v : Bytes} (hvalue : hv.value = some v)
    (hup : ¬ Upgrades v) (hok : respConnectionHandler hv r = .ok (.ok, r')) :
    ∃ b, keepsAlive v = some b ∧ r' = { r with keepalive := b, reqKeepalive := some b } := by
  unfold respConnectionHandler at hok
  rw [hvalue] at hok
  cases hctx : r.reqKeepalive with
  | none =>
    rw [hctx] at hok
    cases hok
  | some b =>
    rw [hctx] at hok
    dsimp only at hok
    split at hok
    · next hka =>
      refine ⟨true, ?_, (Prod.mk.inj (Except.ok.inj hok)).2.symm⟩
      rw [keepsAlive, searchLen, if_pos hka]
    · next hka =>
      split at hok
      · next hclose =>
        refine ⟨false, ?_, (Prod.mk.inj (Except.ok.inj hok)).2.symm⟩
        rw [keepsAlive, searchLen, if_neg hka, if_pos hclose]
      · next hclose =>
        split at hok
        · next hupgrade =>
          refine absurd ⟨?_, hupgrade⟩ hup
          rw [keepsAlive, searchLen, if_neg hka, if_neg hclose]
        · cases hok

theorem respContentLength_ok {offset : Field} {s s' : ContentLength.Numbered}
    (hmode : hv.mode = .set)
    (hok : respContentLengthHandler pool offset hv s = .ok (.ok, s')) :
    (∃ len : ℕ, atoof (hv.value.getD []) = some len ∧ s'.contentLengthN = len) ∧
      setRespContentLength pool offset hv s.headers = .ok (.ok, s'.headers) := by
  rw [respContentLengthHandler, hmode] at hok
  rw [Headers.setRespContentLength, hmode]
  simp only [reduceCtorEq, if_false] at hok ⊢
  cases hat : atoof (hv.value.getD []) with
  | none =>
    rw [hat] at hok
    cases hok
  | some len =>
    rw [hat] at hok
    dsimp only at hok ⊢
    cases hset : setBuiltinHeader pool offset hv s.headers with
    | error fault =>
      rw [hset] at hok
      cases hok
    | ok r =>
      obtain ⟨rc, headers⟩ := r
      rw [hset] at hok
      cases rc <;> simp only [Except.ok.injEq, Prod.mk.injEq, reduceCtorEq, false_and,
        true_and] at hok
      rw [← hok]
      exact ⟨⟨len, rfl, rfl⟩, rfl⟩

/-- A call that sets an entry of the list, with the number where it is the length. -/
theorem setRespHeader_enters (henters : enters false (handlerFor key).setter = true)
    (hok : setRespHeader pool key value a = .ok (.ok, a')) :
    ∃ hv headers n, Prepared key (some value) .set hv ∧
      handle pool false (handlerFor key) hv a.request.headers = .ok (.ok, headers) ∧
      a' = { a.withHeaders headers with contentLengthN := n } ∧
      ((handlerFor key).setter ≠ .respContentLength → n = a.contentLengthN) ∧
      ((handlerFor key).setter = .respContentLength →
        ∃ len : ℕ, atoof (escape .headerValue value) = some len ∧ n = len) := by
  rw [setRespHeader] at hok
  cases hprep : prepare pool respHeadersHandlers key (some value) .set with
  | none =>
    rw [hprep] at hok
    cases hok
  | some p =>
    obtain ⟨h, hv⟩ := p
    have hp := prepare_spec hprep
    obtain rfl := prepare_handlerOf hprep
    rw [hprep] at hok
    dsimp only at hok
    have hvalue : hv.value.getD [] = escape .headerValue value := by
      rw [hp.value]
      rfl
    split at hok
    · next hset =>
      rw [hset] at henters
      cases henters
    · next hset =>
      cases hr : respContentLengthHandler pool (handlerFor key).offset hv
          ⟨a.request.headers, a.contentLengthN⟩ with
      | error fault =>
        rw [hr] at hok
        cases hok
      | ok r =>
        obtain ⟨rc, s'⟩ := r
        rw [hr] at hok
        simp only [Except.ok.injEq, Prod.mk.injEq] at hok
        obtain ⟨rfl, rfl⟩ := hok
        obtain ⟨⟨len, hat, hn⟩, hcall⟩ := respContentLength_ok hp.mode hr
        rw [hvalue] at hat
        refine ⟨hv, s'.headers, s'.contentLengthN, hp, ?_, rfl, fun hne => absurd hset hne,
          fun _ => ⟨len, hat, hn⟩⟩
        rw [handle, hset]
        exact hcall
    · next hnotconn hnotlen =>
      cases hr : handle pool false (handlerFor key) hv a.request.headers with
      | error fault =>
        rw [hr] at hok
        cases hok
      | ok r =>
        obtain ⟨rc, headers⟩ := r
        rw [hr] at hok
        simp only [Except.ok.injEq, Prod.mk.injEq] at hok
        obtain ⟨rfl, rfl⟩ := hok
        exact ⟨hv, headers, a.contentLengthN, hp, hr, rfl, fun _ => rfl,
          fun hset => absurd hset hnotlen⟩

theorem lengths_set {headers : HeaderMap} {n : ℤ} (hr : Ready false respHeadersHandlers keys
      a.request.headers) (hl : Lengths a) (hcl : keys name) (hk : keys key)
    (hp : Prepared key (some value) .set hv) {i : ℕ}
    (hw : Written false (handlerFor key) hv a.request.headers headers i)
    (hsame : (handlerFor key).setter ≠ .respContentLength → n = a.contentLengthN)
    (hlen : (handlerFor key).setter = .respContentLength →
      ∃ len : ℕ, atoof (escape .headerValue value) = some len ∧ n = len) :
    Lengths { a.withHeaders headers with contentLengthN := n } := by
  intro v hv'
  change v ∈ valuesOf name headers.list.elts at hv'
  show ∃ m : ℕ, numberOf v = some m ∧ n = m
  by_cases hset : (handlerFor key).setter = .respContentLength
  · obtain ⟨len, hat, rfl⟩ := hlen hset
    have hname := length_setter.mp hset
    have hvalues := hr.set_values hk hp hw
    have hcongr : valuesOf name headers.list.elts = valuesOf (stored key) headers.list.elts := by
      unfold valuesOf
      congr 1
      apply List.filter_congr
      intro e _
      rw [Bool.eq_iff_iff, HeaderNames.named_spec, HeaderNames.named_spec]
      apply and_congr_right
      intro _
      exact ⟨fun h => hname.symm.trans h, fun h => hname.trans h⟩
    rw [hcongr, hvalues] at hv'
    obtain rfl := List.mem_singleton.mp hv'
    exact ⟨len, atoof_number hat, rfl⟩
  · have hother := hr.set_other hk hcl hp hw fun h => hset
      (length_setter.mpr (by rw [← stored_name]; exact h.symm))
    rw [stored_name] at hother
    rw [hother] at hv'
    rw [hsame hset]
    exact hl v hv'

/-- The call of a header that is accepted. -/
theorem setRespHeader_filling (hr : Ready false respHeadersHandlers keys a.request.headers)
    (hl : Lengths a) (hcl : keys name)
    (hk : enters false (handlerFor key).setter = true → keys key)
    (hup : (handlerFor key).setter = .respConnection → ¬ Upgrades (escape .headerValue value))
    (hok : setRespHeader pool key value a = .ok (.ok, a')) : Filling keys key value a a' := by
  rcases setter_cases (handlerFor key).setter with hset | hset | henters
  · rw [setRespHeader] at hok
    cases hprep : prepare pool respHeadersHandlers key (some value) .set with
    | none =>
      rw [hprep] at hok
      cases hok
    | some p =>
      obtain ⟨h, hv⟩ := p
      have hp := prepare_spec hprep
      obtain rfl := prepare_handlerOf hprep
      rw [hprep] at hok
      simp only [hset, handle, Headers.setContentType, Except.ok.injEq, Prod.mk.injEq,
        true_and] at hok
      have hvalue : hv.value.getD [] = escape .headerValue value := by
        rw [hp.value]
        rfl
      rw [hvalue] at hok
      rw [← hok]
      refine ⟨⟨hr.hash, hr.fields, hr.hashed, hr.few, hr.range, hr.pointer, hr.apart, hr.places⟩,
        hl, rfl, ?_, ?_⟩
      · rw [IsSet, hset]
        rfl
      · intro k v hne _ hold
        refine hold.of_same (fun hk => ?_) (fun _ => ⟨rfl, rfl⟩) (fun _ => rfl)
        exact absurd (same_of_setter hset hk (.inl rfl)) hne
  · rw [setRespHeader] at hok
    cases hprep : prepare pool respHeadersHandlers key (some value) .set with
    | none =>
      rw [hprep] at hok
      cases hok
    | some p =>
      obtain ⟨h, hv⟩ := p
      have hp := prepare_spec hprep
      obtain rfl := prepare_handlerOf hprep
      rw [hprep] at hok
      simp only [hset] at hok
      have hvalue : hv.value = some (escape .headerValue value) := hp.value
      cases hr' : respConnectionHandler hv a.request with
      | error fault =>
        rw [hr'] at hok
        cases hok
      | ok r =>
        obtain ⟨rc, request⟩ := r
        rw [hr'] at hok
        simp only [Except.ok.injEq, Prod.mk.injEq] at hok
        obtain ⟨rfl, rfl⟩ := hok
        obtain ⟨b, hb, rfl⟩ := respConnection_ok hvalue (hup hset) hr'
        refine ⟨hr, hl, rfl, ?_, ?_⟩
        · rw [IsSet, hset]
          intro b' hb'
          rw [hb] at hb'
          cases hb'
          exact ⟨rfl, rfl⟩
        · intro k v hne _ hold
          refine hold.of_same (fun _ => rfl) (fun hk => ?_) (fun _ => rfl)
          exact absurd (same_of_setter hset hk (.inr (.inl rfl))) hne
  · obtain ⟨hv, headers, n, hp, hcall, rfl, hsame, hlen⟩ := setRespHeader_enters henters hok
    have hkey := hk henters
    obtain ⟨i, hw⟩ := handle_place hp.mode henters (fun i h => hr.range key i hkey h)
      (fun h => hr.few_hits hkey hp h) hcall
    refine ⟨hr.set hkey hp hw, lengths_set hr hl hcl hkey hp hw hsame hlen, rfl, ?_, ?_⟩
    · rw [isSet_enters henters]
      exact hr.set_values hkey hp hw
    · intro k v hne hin hold
      exact hold.of_same (fun _ => hw.contentType) (fun _ => ⟨rfl, rfl⟩)
        fun hk' => hr.set_other hkey (hin hk') hp hw hne

end

/-! ### All headers -/

/-- The header is the last one of its key. -/
def LastOf (headers : List (Bytes × Bytes)) (key value : Bytes) : Prop :=
  ∃ l l', headers = l ++ (key, value) :: l' ∧ ∀ p ∈ l', ¬ SameKey (stored key) (stored p.1)

structure AllSet (keys : Bytes → Prop) (headers : List (Bytes × Bytes)) (a a' : Answer) : Prop where
  ready : Ready false respHeadersHandlers keys a'.request.headers
  lengths : Lengths a'
  status : a'.request.status = a.request.status
  isSet : ∀ key value, LastOf headers key value → IsSet key value a'
  kept : ∀ k v, (∀ p ∈ headers, ¬ SameKey (stored k) (stored p.1)) →
    (enters false (handlerFor k).setter = true → keys k) → IsSet k v a → IsSet k v a'

/-- The keys whose places in the list a flush writes. -/
def KeyOf (headers : List (Bytes × Bytes)) (key : Bytes) : Prop :=
  key = name ∨ enters false (handlerFor key).setter = true ∧ ∃ p ∈ headers, p.1 = key

section
variable {pool : ℕ → Pool} {keys : Bytes → Prop}

theorem setRespHeaders_allSet (hcl : keys name) (headers : List (Bytes × Bytes))
    (hk : ∀ p ∈ headers, enters false (handlerFor p.1).setter = true → keys p.1)
    (hup : ∀ p ∈ headers, (handlerFor p.1).setter = .respConnection →
      ¬ Upgrades (escape .headerValue p.2)) :
    ∀ (i : ℕ) (a a' : Answer), Ready false respHeadersHandlers keys a.request.headers → Lengths a →
      setRespHeaders pool i headers a = .ok (.ok, a') → AllSet keys headers a a' := by
  induction headers with
  | nil =>
    intro i a a' hr hl hok
    obtain rfl : a = a' := (Prod.mk.inj (Except.ok.inj hok)).2
    refine ⟨hr, hl, rfl, ?_, fun k v _ _ h => h⟩
    intro key value ⟨l, l', heq, _⟩
    have hlen := congrArg List.length heq
    simp at hlen
  | cons p headers ih =>
    intro i a a' hr hl hok
    obtain ⟨key, value⟩ := p
    rw [setRespHeaders] at hok
    cases hcall : setRespHeader (pool i) key value a with
    | error fault =>
      rw [hcall] at hok
      cases hok
    | ok r =>
      obtain ⟨rc, a₁⟩ := r
      rw [hcall] at hok
      have hrc : rc = .ok := by
        cases rc <;> first | rfl | cases hok
      subst hrc
      have hfirst := setRespHeader_filling hr hl hcl (hk _ (List.mem_cons_self ..))
        (hup _ (List.mem_cons_self ..)) hcall
      have hrest := ih (fun p hp => hk p (List.mem_cons_of_mem _ hp))
        (fun p hp => hup p (List.mem_cons_of_mem _ hp)) (i + 1) a₁ a' hfirst.ready hfirst.lengths hok
      refine ⟨hrest.ready, hrest.lengths, hrest.status.trans hfirst.status, ?_, ?_⟩
      · intro k v ⟨l, l', heq, hlast⟩
        cases l with
        | nil =>
          rw [List.nil_append] at heq
          obtain ⟨hkv, rfl⟩ := List.cons.inj heq
          obtain ⟨rfl, rfl⟩ := Prod.mk.inj hkv
          exact hrest.kept key value hlast (hk _ (List.mem_cons_self ..)) hfirst.isSet
        | cons q l =>
          rw [List.cons_append] at heq
          exact hrest.isSet k v ⟨l, l', (List.cons.inj heq).2, hlast⟩
      · intro k v hne hin hold
        apply hrest.kept k v (fun p hp => hne p (List.mem_cons_of_mem _ hp)) hin
        exact hfirst.kept k v (fun h => hne _ (List.mem_cons_self ..) h.symm) hin hold

end

/-! ### The type and the length -/

theorem numberOf_foldl {s : Bytes} {m n : ℕ} (h : Lib.HttpRequest.digitsFrom m s = some n) :
    (∀ c ∈ s, 48 ≤ c ∧ c ≤ 57) ∧ s.foldl (fun n c => n * 10 + (c.toNat - 48)) m = n := by
  have hdigit : ∀ c : UInt8, Lib.HttpRequest.isDigit c = true → 48 ≤ c ∧ c ≤ 57 :=
    byte_forall (by decide)
  induction s generalizing m with
  | nil => exact ⟨fun c hc => absurd hc List.not_mem_nil, Option.some.inj h⟩
  | cons c s ih =>
    rw [Lib.HttpRequest.digitsFrom] at h
    split at h
    · next hc =>
      obtain ⟨hall, hfold⟩ := ih h
      refine ⟨?_, hfold⟩
      intro d hd
      rcases List.mem_cons.mp hd with rfl | hd
      · exact hdigit _ hc
      · exact hall d hd
    · cases h

theorem numberOf_number {s : Bytes} {n : ℕ} (h : Lib.HttpRequest.number s = some n) :
    numberOf s = some n := by
  rw [Lib.HttpRequest.number] at h
  split at h
  · cases h
  · next hne =>
    obtain ⟨hall, hfold⟩ := numberOf_foldl h
    rw [numberOf, if_pos ⟨hne, hall⟩, hfold]

/-- The digits of a length are a value as they are. -/
theorem numberOf_offT {n : ℕ} (h : n < 2 ^ 63) :
    numberOf (escape .headerValue (offT n)) = some n := by
  have hnumber := RequestFraming.number_offT (n := n) (by omega)
  have hplain : ∀ c : UInt8, Lib.HttpRequest.isDigit c = true →
      EscapeKind.escapes .headerValue c = false := byte_forall (by decide)
  rw [escape_eq fun c hc => hplain c (Lib.HttpRequest.number_digits hnumber c hc)]
  exact numberOf_number hnumber

section
variable {env : FlushEnv} {keys : Bytes → Prop} {a a' : Answer}

/-- The response has the type it had, or one where it had none. -/
theorem httpSetContentType_ok (hok : httpSetContentType env a = (.ok, a')) :
    a' = a ∨ a.request.headers.contentType = [] ∧
      ∃ type, a' = a.withHeaders { a.request.headers with contentType := type } := by
  rw [httpSetContentType] at hok
  split at hok
  · exact .inl (Prod.mk.inj hok).2.symm
  · next hempty =>
    split at hok
    · cases hok
    · next type _ => exact .inr ⟨by simpa using hempty, type, (Prod.mk.inj hok).2.symm⟩

structure Measured (n : ℕ) (a : Answer) : Prop where
  number : a.contentLengthN = n
  entries : ∀ v ∈ valuesOf name a.request.headers.list.elts, numberOf v = some n

theorem setRespContentLength_ok {n : ℕ} (hn : n < 2 ^ 63)
    (hr : Ready false respHeadersHandlers keys a.request.headers) (hl : Lengths a)
    (hcl : keys name) (hok : setRespContentLength env n a = .ok (.ok, a')) :
    Measured n a' ∧ a'.request.status = a.request.status ∧
      ∀ k v, ¬ SameKey name (stored k) → (enters false (handlerFor k).setter = true → keys k) →
        IsSet k v a → IsSet k v a' := by
  rw [LocalResponse.setRespContentLength] at hok
  split at hok
  · next hsame =>
    obtain rfl : a = a' := (Prod.mk.inj (Except.ok.inj hok)).2
    refine ⟨⟨hsame.2, ?_⟩, rfl, fun k v _ _ h => h⟩
    intro v hv
    obtain ⟨m, hm, heq⟩ := hl v hv
    have hmn : m = n := by
      have h := heq.symm.trans hsame.2
      omega
    rw [hm, hmn]
  · split at hok
    · have hset : (handlerFor name).setter = .respContentLength :=
        length_setter.mpr (by rw [stored_name]; exact SameKey.refl _)
      have henters : enters false (handlerFor name).setter = true := by rw [hset]; rfl
      have hfill := setRespHeader_filling hr hl hcl (fun _ => hcl)
        (fun h => by rw [hset] at h; cases h) hok
      have hvalues := (isSet_enters henters).mp hfill.isSet
      rw [stored_name, Int.toNat_natCast] at hvalues
      have hnumber := numberOf_offT hn
      obtain ⟨m, hm, heq⟩ := hfill.lengths (escape .headerValue (offT n)) (by rw [hvalues]; simp)
      have hmn : m = n := by
        rw [hnumber] at hm
        exact (Option.some.inj hm).symm
      refine ⟨⟨by rw [heq, hmn], ?_⟩, hfill.status, ?_⟩
      · intro v hv
        rw [hvalues] at hv
        rw [List.mem_singleton.mp hv]
        exact hnumber
      · intro k v hne hin hold
        exact hfill.kept k v (by rw [stored_name]; exact hne) hin hold
    · cases hok

end

/-! ### The response that is sent -/

/-- What is sent of a stashed response. -/
structure Correct (r : Response) (x : Sent) : Prop where
  status : x.answer.request.status = r.status
  headers : ∀ key value, LastOf r.headers key value → ¬ SameKey name (stored key) →
    IsSet key value x.answer
  bytes : x.bytes = r.bytes
  length : Measured x.bytes.length x.answer

/-- The condition on a flush that sends: the length is that of the stash, the response's
list has one place for each of the stashed keys, its length and its number agree, no
stashed header asks for an upgrade, and no empty type is stashed with a body. -/
structure FlushOk (c : Ctx) : Prop where
  length : 0 ≤ c.localRespBodyLen
  ready : Ready false respHeadersHandlers (KeyOf c.localRespHeaders) c.answer.request.headers
  lengths : Lengths c.answer
  upgrade : ∀ p ∈ c.localRespHeaders, (handlerFor p.1).setter = .respConnection →
    ¬ Upgrades (escape .headerValue p.2)
  type : ∀ p ∈ c.localRespHeaders, (handlerFor p.1).setter = .contentType →
    p.2 ≠ [] ∨ c.localRespBodyLen = 0

/-- A flush comes to send. -/
def Sends (c : Ctx) : Prop :=
  c.localRespStatus ≠ 0 ∧ c.headerSent = false ∧ c.localRespFlushed = false

section
variable {env : FlushEnv} {c : Ctx}

theorem LastOf.mem {headers : List (Bytes × Bytes)} {key value : Bytes}
    (h : LastOf headers key value) : (key, value) ∈ headers := by
  obtain ⟨l, l', rfl, _⟩ := h
  exact List.mem_append_right _ (List.mem_cons_self ..)

theorem KeyOf.of_mem {headers : List (Bytes × Bytes)} {p : Bytes × Bytes} (hp : p ∈ headers)
    (henters : enters false (handlerFor p.1).setter = true) : KeyOf headers p.1 :=
  .inr ⟨henters, p, hp, rfl⟩

/-- The response once the headers are set. -/
structure Filled (c : Ctx) (a : Answer) : Prop where
  ready : Ready false respHeadersHandlers (KeyOf c.localRespHeaders) a.request.headers
  lengths : Lengths a
  status : a.request.status = c.localRespStatus
  isSet : ∀ key value, LastOf c.localRespHeaders key value → IsSet key value a

theorem headers_filled {a : Answer} (hc : FlushOk c)
    (hok : setRespHeaders env.header 0 c.localRespHeaders (setRespStatus c c.answer) =
      .ok (.ok, a)) : Filled c a := by
  have hall := setRespHeaders_allSet (.inl rfl) c.localRespHeaders
    (fun p hp h => KeyOf.of_mem hp h) hc.upgrade 0 (setRespStatus c c.answer) a hc.ready
    hc.lengths hok
  exact ⟨hall.ready, hall.lengths, hall.status, hall.isSet⟩

/-- The type of a response is only given where no header gave one. -/
theorem Filled.typed {a a' : Answer} (hc : FlushOk c) (h : Filled c a)
    (htype : (if c.localRespBodyLen ≠ 0 then httpSetContentType env a else (.ok, a)) =
      (Rc.ok, a')) : Filled c a' := by
  split at htype
  · next hpos =>
    rcases httpSetContentType_ok htype with rfl | ⟨hempty, type, rfl⟩
    · exact h
    · have hr := h.ready
      refine ⟨⟨hr.hash, hr.fields, hr.hashed, hr.few, hr.range, hr.pointer, hr.apart, hr.places⟩,
        h.lengths, h.status, ?_⟩
      intro key value hlast
      have hold := h.isSet key value hlast
      refine hold.of_same (fun hset => ?_) (fun _ => ⟨rfl, rfl⟩) (fun _ => rfl)
      rw [IsSet, hset] at hold
      change a.request.headers.contentType = escape .headerValue value at hold
      rw [hempty] at hold
      rcases hc.type _ hlast.mem hset with hne | hzero
      · exact absurd (escape_nil_iff.mp hold.symm) hne
      · exact absurd hzero hpos
  · obtain rfl : a = a' := (Prod.mk.inj htype).2
    exact h

theorem fill_correct {a : Answer} {n : ℕ} (hc : FlushOk c) (hlen : c.localRespBodyLen = n)
    (hn : n < 2 ^ 63) (hok : fill env c = .ok (.ok, a)) :
    a.request.status = c.localRespStatus ∧ Measured n a ∧
      ∀ key value, LastOf c.localRespHeaders key value → ¬ SameKey name (stored key) →
        IsSet key value a := by
  rw [fill] at hok
  split at hok
  · cases hok
  · next a₁ hheaders =>
    have hfilled := headers_filled hc hheaders
    split at hok
    · next a₂ htype =>
      have htyped := hfilled.typed hc htype
      rw [if_pos hc.length, hlen] at hok
      obtain ⟨hmeasured, hsame, hkept⟩ :=
        setRespContentLength_ok hn htyped.ready htyped.lengths (.inl rfl) hok
      refine ⟨hsame.trans htyped.status, hmeasured, ?_⟩
      intro key value hlast hne
      exact hkept key value hne (fun h => KeyOf.of_mem hlast.mem h) (htyped.isSet key value hlast)
    · next hnot => exact absurd (Except.ok.inj hok) (hnot a)
  · next hnot => exact absurd hok (hnot a)

/-- A flush sends, or it leaves what is stashed. -/
inductive FlushEffect (c c' : Ctx) : Prop where
  | left (answer : Answer) (eq : c' = { c with answer := answer })
  | sent (a : Answer) (sends : Sends c) (env : FlushEnv) (filled : fill env c = .ok (.ok, a))
      (eq : c' = { c with
        answer := a
        localRespStatus := 0
        localRespFlushed := true
        sent := c.sent ++ [⟨a, (c.localRespBody.map Body.bytes).getD []⟩] })

theorem flush_effect (env : FlushEnv) (c : Ctx) : FlushEffect c (step c (.flush env)).1 := by
  rw [step, flush]
  by_cases hleft : c.localRespStatus = 0 ∨ c.headerSent = true
  · rw [if_pos hleft]
    exact .left c.answer rfl
  · rw [if_neg hleft]
    obtain ⟨hstatus, hheader⟩ := not_or.mp hleft
    by_cases hflushed : c.localRespFlushed = true
    · rw [if_pos hflushed]
      exact .left c.answer rfl
    · rw [if_neg hflushed]
      cases env.requestBody with
      | false => exact .left c.answer rfl
      | true =>
        cases hfill : fill env c with
        | error fault => exact .left c.answer rfl
        | ok r =>
          obtain ⟨rc, a⟩ := r
          cases rc with
          | ok => exact .sent a ⟨hstatus, by simpa using hheader, by simpa using hflushed⟩ env hfill rfl
          | _ => exact .left a rfl

end

/-! ### Runs -/

/-- The condition on a step. -/
def StepOk (c : Ctx) : Op → Prop
  | .stash room call => StashOk room call c
  | .discard => Unfreed c.freed c.localRespReasonData ∧ Unfreed c.freed c.localRespHeadersElts
  | .flush _ => Sends c → FlushOk c
  | .elsewhere .. => True

/-- What a step is to do. -/
def StepDoes (c : Ctx) (op : Op) : Prop :=
  match op with
  | .stash room call => StashDoes room call c ∧ (step c op).1.sent = c.sent
  | .discard => stashed (step c op).1 = none ∧ (step c op).1.sent = c.sent
  | .flush _ =>
    stashed (step c op).1 = stashed c ∧ (step c op).1.sent = c.sent ∨
      ∃ r x, stashed c = some r ∧ stashed (step c op).1 = none ∧
        (step c op).1.sent = c.sent ++ [x] ∧ Correct r x
  | .elsewhere .. => stashed (step c op).1 = stashed c ∧ (step c op).1.sent = c.sent

/-- No memory was handed back twice, and one response was sent at most. -/
def Safe (c : Ctx) : Prop := c.freed.Nodup ∧ c.sent.length ≤ 1

/-- A request whose context is new; what else it has got by then is any. -/
structure New (c : Ctx) : Prop where
  status : c.localRespStatus = 0
  reason : c.localRespReason = []
  reasonData : c.localRespReasonData = none
  headers : c.localRespHeaders = []
  headersElts : c.localRespHeadersElts = none
  body : c.localRespBody = none
  bodyLen : c.localRespBodyLen = 0
  flushed : c.localRespFlushed = false
  freed : c.freed = []
  sent : c.sent = []

theorem New.sound {c : Ctx} (h : New c) : Sound c where
  memory := by
    rw [Ctx.Memory, h.freed, h.reasonData, h.headersElts, h.body]
    refine ⟨List.nodup_nil, List.nodup_nil, ?_, ?_, ?_⟩
    · intro b hb
      cases hb
    · intro b hb
      cases hb
    · intro b hb
      cases hb
  once := by
    rw [h.sent]
    exact Nat.zero_le _
  idle := fun _ _ => ⟨h.reason, h.body⟩
  nobody := fun _ _ => .inl h.bodyLen
  length := by
    intro _ x hx
    rw [h.body] at hx
    cases hx

theorem Sound.safe {c : Ctx} (h : Sound c) : Safe c := by
  refine ⟨h.memory.nodup, Nat.le_trans h.once ?_⟩
  split
  · exact Nat.le_refl _
  · exact Nat.zero_le _

theorem stash_sent (room : Room) (call : Stash) {c : Ctx} (m : c.Memory) :
    (stash room call c).2.sent = c.sent := by
  by_cases hentered : Entered call c
  · rw [stash_entered hentered]
    rcases store_cases room call (c := c.withStatus call.status.toNat) m with
      ⟨c', hstore, h⟩ | ⟨c', hstore, h⟩
    · rw [show store room call { c with localRespStatus := call.status.toNat } = .ok c' from hstore]
      exact h.untouched.sent
    · rw [show store room call { c with localRespStatus := call.status.toNat } = .error c'
        from hstore]
      exact h.untouched.sent
  · rw [(stash_left hentered).2]

theorem flush_spec {env : FlushEnv} {c : Ctx} (hs : Sound c) (hc : StepOk c (.flush env)) :
    Sound (step c (.flush env)).1 ∧ StepDoes c (.flush env) := by
  have heffect := flush_effect env c
  unfold StepDoes
  generalize (step c (.flush env)).1 = c' at heffect ⊢
  cases heffect with
  | left answer eq =>
    rw [eq]
    exact ⟨⟨hs.memory, hs.once, hs.idle, hs.nobody, hs.length⟩, .inl ⟨rfl, rfl⟩⟩
  | sent a sends env filled eq =>
    have hok := hc sends
    obtain ⟨hstatus, _, hflushed⟩ := sends
    have hempty : c.sent = [] := by
      have honce := hs.once
      rw [hflushed] at honce
      exact List.length_eq_zero_iff.mp (Nat.le_zero.mp honce)
    rw [eq]
    constructor
    · refine ⟨hs.memory, ?_, fun h => (by cases h), fun h => (by cases h), fun h => (by cases h)⟩
      show (c.sent ++ [_]).length ≤ 1
      rw [hempty]
      exact Nat.le_refl _
    · right
      have hbytes : c.localRespBodyLen = ((c.localRespBody.map Body.bytes).getD []).length ∧
          ((c.localRespBody.map Body.bytes).getD []).length < 2 ^ 63 := by
        cases hbody : c.localRespBody with
        | none =>
          refine ⟨?_, by simp⟩
          rcases hs.nobody hflushed hbody with h | h
          · simpa using h
          · have hpos := hok.length
            omega
        | some x => exact ⟨hs.length hflushed x hbody, x.fits⟩
      obtain ⟨hanswer, hmeasured, hset⟩ := fill_correct hok hbytes.1 hbytes.2 filled
      refine ⟨_, _, if_neg hstatus, rfl, rfl, ?_⟩
      exact ⟨hanswer, hset, rfl, hmeasured⟩

theorem step_spec {c : Ctx} (op : Op) (hs : Sound c) (hc : StepOk c op) :
    Sound (step c op).1 ∧ StepDoes c op := by
  cases op with
  | stash room call =>
    obtain ⟨hsound, hdoes⟩ := stash_spec hs hc
    exact ⟨hsound, hdoes, stash_sent room call hs.memory⟩
  | discard => exact ⟨discard_sound hs hc.1 hc.2, stashed_discard c, rfl⟩
  | flush env => exact flush_spec hs hc
  | elsewhere enteredHeaderFilter headerSent respContentChosen answer =>
    exact ⟨⟨hs.memory, hs.once, hs.idle, hs.nobody, hs.length⟩, rfl, rfl⟩

def noHeaders : HeaderMap := ⟨⟨[], [], pushed_nil⟩, fun _ => none, []⟩

def newCtx : Ctx where
  enteredHeaderFilter := false
  headerSent := false
  respContentChosen := false
  localRespStatus := 0
  localRespReason := []
  localRespReasonData := none
  localRespHeaders := []
  localRespHeadersElts := none
  localRespBody := none
  localRespBodyLen := 0
  localRespFlushed := false
  answer := ⟨⟨noHeaders, true, some true, .none, -1, 0⟩, -1, 0, []⟩
  next := 0
  freed := []
  sent := []

theorem newCtx_new : New newCtx := ⟨rfl, rfl, rfl, rfl, rfl, rfl, rfl, rfl, rfl, rfl⟩

def granted : Room := ⟨true, true, fun _ => true, true, true⟩

def plainEnv : FlushEnv := ⟨true, fun _ => roomy, some (ascii "text/plain"), true, roomy, .ok⟩

def stashHi : Op :=
  .stash granted ⟨200, ascii "OK", some [(ascii "x-a", ascii "1")], ascii "hi", by decide⟩

def stashCreated : Op := .stash granted ⟨201, [], none, [], by decide⟩

theorem noHeaders_ready {keys : Bytes → Prop} (hhash : ∀ k, keys k → hashKeyLc (stored k) ≠ 0)
    (hfields : ∀ k k', keys k → keys k' → pointed false (handlerFor k).setter = true →
      pointed false (handlerFor k').setter = true →
      (handlerFor k).offset = (handlerFor k').offset → SameKey (stored k) (stored k')) :
    Ready false respHeadersHandlers keys noHeaders where
  hash := hhash
  fields := hfields
  hashed := by
    intro k _ e he
    cases he
  few := fun _ _ _ => Nat.zero_le _
  range := by
    intro k i _ h
    simp [held, noHeaders] at h
  pointer := by
    intro k i _ h
    simp [held, noHeaders] at h
  apart := by
    intro k k' i e _ _ h
    simp [held, noHeaders] at h
  places := by
    intro k k' i _ _ h
    simp [held, noHeaders] at h

theorem hi_key {key : Bytes} (h : KeyOf [(ascii "x-a", ascii "1")] key) :
    key = name ∨ key = ascii "x-a" := by
  rcases h with h | ⟨_, p, hp, rfl⟩
  · exact .inl h
  · rw [List.mem_singleton.mp hp]
    exact .inr rfl

theorem hi_flushOk : FlushOk (step newCtx stashHi).1 where
  length := by decide
  ready := by
    apply noHeaders_ready
    · intro k hk
      rcases hi_key hk with rfl | rfl
      · decide
      · decide
    · intro k k' hk hk' hp hp' _
      have hplain : pointed false (handlerFor (ascii "x-a")).setter = false := by decide
      rcases hi_key hk with rfl | rfl
      · rcases hi_key hk' with rfl | rfl
        · exact SameKey.refl _
        · rw [hplain] at hp'
          cases hp'
      · rw [hplain] at hp
        cases hp
  lengths := by
    intro v hv
    cases hv
  upgrade := by
    intro p hp hset
    obtain rfl := List.mem_singleton.mp hp
    exact absurd hset (by decide)
  type := by
    intro p hp hset
    obtain rfl := List.mem_singleton.mp hp
    exact absurd hset (by decide)

theorem granted_not_refused (call : Stash) : ¬ Refused granted call := by
  intro h
  rcases h with ⟨_, h⟩ | h | ⟨i, _, h⟩ | ⟨_, h⟩
  · cases h
  · cases h
  · cases h
  · cases h

end NgxWasm.Http.LocalResponseSent
