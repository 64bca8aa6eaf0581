import NgxWasm.Http.HeaderHandlers
import NgxWasm.Http.HeaderSet
import Mathlib.Data.List.Infix

/-!
# The Connection header (ngx_http_wasm_set_connection_header_handler)

The handlers of `ngx_http_wasm_headers_request.c` (196-283, for nginx from 1.23 on) and of
`ngx_http_wasm_headers_response.c` (375-412) with what they write beside the list.
Both look into the value with `ngx_strcasestrn`, the one with the length of the word,
the other with the length of the value.
-/

namespace NgxWasm.Http.ConnectionHeader

open NgxWasm NgxWasm.ProxyWasm.Pairs NgxWasm.Http.Headers
open NgxWasm.Http.HeaderSet (tolower_eq_zero)

/-! ### Handlers -/

inductive ConnectionType where
  | none
  | close
  | keepAlive
  deriving Repr, DecidableEq

/-- What the handlers write of a request; `reqKeepalive` is the field of the request's
context, or nothing where `ngx_http_wasm_rctx` finds none. -/
structure Request where
  headers : HeaderMap
  keepalive : Bool
  reqKeepalive : Option Bool
  connectionType : ConnectionType
  keepAliveN : ℤ
  status : ℕ

def respConnectionHandler (hv : HeaderSet) (r : Request) : Except Fault (Rc × Request) :=
  match r.reqKeepalive, hv.value with
  | none, _ => .ok (.error, r)
  | some _, none => .error .nullRead
  | some _, some value =>
    -- value->len - 1 of a size_t
    let n := (value.length + (2 ^ 64 - 1)) % 2 ^ 64
    if strcasestrn (ascii "keep-alive") n value then
      .ok (.ok, { r with keepalive := true, reqKeepalive := some true })
    else if strcasestrn (ascii "close") n value then
      .ok (.ok, { r with keepalive := false, reqKeepalive := some false })
    else if strcasestrn (ascii "upgrade") n value then .ok (.ok, { r with status := 101 })
    else .ok (.declined, r)

def reqConnectionHandler (pool : Pool) (offset : Field) (hv : HeaderSet) (r : Request) :
    Except Fault (Rc × Request) :=
  match setBuiltinHeader pool offset hv r.headers with
  | .error fault => .error fault
  | .ok (.ok, headers) =>
    let r := { r with headers := headers }
    let value := hv.value.getD []
    if value = [] then .ok (.ok, r)
    else
      match r.reqKeepalive with
      | none => .ok (.error, r)
      | some _ =>
        if strcasestrn (ascii "close") (5 - 1) value then
          .ok (.ok, { r with
            connectionType := .close
            keepAliveN := -1
            keepalive := false
            reqKeepalive := some false })
        else if strcasestrn (ascii "keep-alive") (10 - 1) value then
          .ok (.ok, { r with
            connectionType := .keepAlive
            keepalive := true
            reqKeepalive := some true })
        else .ok (.ok, r)
  | .ok (rc, headers) => .ok (rc, { r with headers := headers })

/-! ### The substring search -/

def fold (s : Bytes) : Bytes := s.map tolower

theorem caseEq_iff (n : ℕ) {s t : Bytes} (hs : 0 ∉ s) (ht : 0 ∉ t) :
    caseEq n s t = true ↔ (fold s).take n = (fold t).take n := by
  induction n generalizing s t with
  | zero => simp [caseEq]
  | succ n ih =>
    cases s with
    | nil =>
      cases t with
      | nil => simp [caseEq, fold, (tolower_eq_zero 0).mpr]
      | cons d t =>
        have hd : ¬ tolower 0 = tolower d := by
          intro h
          rw [(tolower_eq_zero 0).mpr rfl] at h
          have hzero := (tolower_eq_zero d).mp h.symm
          exact ht (by rw [hzero]; exact List.mem_cons_self ..)
        simp [caseEq, fold, hd]
    | cons c s =>
      have hc : tolower c ≠ 0 := by
        intro h
        have hzero := (tolower_eq_zero c).mp h
        exact hs (by rw [hzero]; exact List.mem_cons_self ..)
      cases t with
      | nil =>
        have hd : ¬ tolower c = tolower 0 := by
          rw [(tolower_eq_zero 0).mpr rfl]
          exact hc
        simp [caseEq, fold, hd]
      | cons d t =>
        have hs' : 0 ∉ s := fun h => hs (List.mem_cons_of_mem _ h)
        have ht' : 0 ∉ t := fun h => ht (List.mem_cons_of_mem _ h)
        have ih := ih hs' ht'
        by_cases hcd : tolower c = tolower d
        · have hd : tolower d ≠ 0 := by rw [← hcd]; exact hc
          simpa [caseEq, fold, hcd, hd] using ih
        · simp [caseEq, fold, hcd]

/-- The search finds a place from which on the first `n + 1` characters are those of
the word. -/
theorem strcasestrn_iff {t : Bytes} (n : ℕ) (hne : t ≠ []) (ht : 0 ∉ t) {v : Bytes}
    (hv : 0 ∉ v) :
    strcasestrn t n v = true ↔
      ∃ b, b <:+ fold v ∧ b ≠ [] ∧ b.take (n + 1) = (fold t).take (n + 1) := by
  obtain ⟨d, t, rfl⟩ := List.exists_cons_of_ne_nil hne
  have ht' : 0 ∉ t := fun h => ht (List.mem_cons_of_mem _ h)
  induction v with
  | nil =>
    simp only [strcasestrn, Bool.false_eq_true, false_iff, not_exists, not_and]
    intro b hb hbne
    exact absurd (List.suffix_nil.mp hb) hbne
  | cons c v ih =>
    have hv' : 0 ∉ v := fun h => hv (List.mem_cons_of_mem _ h)
    have hc : c ≠ 0 := fun h => hv (by rw [h]; exact List.mem_cons_self ..)
    have hhere : (tolower c == tolower d && caseEq n v t) = true ↔
        (fold (c :: v)).take (n + 1) = (fold (d :: t)).take (n + 1) := by
      rw [Bool.and_eq_true, beq_iff_eq, caseEq_iff n hv' ht']
      simp [fold]
    simp only [strcasestrn, if_neg hc, List.headD_cons, List.tail_cons, Bool.or_eq_true, hhere,
      ih hv']
    constructor
    · intro h
      rcases h with h | ⟨b, hb, hbne, hbt⟩
      · exact ⟨fold (c :: v), List.suffix_refl _, by simp [fold], h⟩
      · exact ⟨b, hb.trans (List.suffix_cons _ _), hbne, hbt⟩
    · intro ⟨b, hb, hbne, hbt⟩
      rcases List.suffix_cons_iff.mp hb with hb | hb
      · left
        rw [hb] at hbt
        exact hbt
      · right
        exact ⟨b, hb, hbne, hbt⟩

/-! ### Values and words -/

/-- A value as the handlers get it: escaped, so that no byte of it is zero. -/
structure Value where
  bytes : Bytes
  clean : 0 ∉ bytes
  fits : bytes.length < 2 ^ 64

def Contains (v word : Bytes) : Prop := fold word <:+: fold v

def EndsWith (v word : Bytes) : Prop := fold word <:+ fold v

/-- The value is a beginning of the word, and not all of it. -/
def Begins (v word : Bytes) : Prop :=
  v ≠ [] ∧ v.length < word.length ∧ fold v <+: fold word

instance (v word : Bytes) : Decidable (Contains v word) := by unfold Contains; infer_instance

instance (v word : Bytes) : Decidable (EndsWith v word) := by unfold EndsWith; infer_instance

instance (v word : Bytes) : Decidable (Begins v word) := by unfold Begins; infer_instance

theorem fold_length (s : Bytes) : (fold s).length = s.length := List.length_map ..

/-- Searched with the word's own length the word is found where it is contained. -/
theorem found_whole {word : Bytes} (hne : word ≠ []) (hw : 0 ∉ word) (v : Value) :
    strcasestrn word (word.length - 1) v.bytes = true ↔ Contains v.bytes word := by
  have hlen : word.length - 1 + 1 = (fold word).length := by
    have := List.length_pos_of_ne_nil hne
    rw [fold_length]
    omega
  rw [strcasestrn_iff _ hne hw v.clean, hlen, List.take_length]
  constructor
  · intro ⟨b, hb, _, hbt⟩
    have hpre : fold word <+: b := by
      rw [← hbt]
      exact List.take_prefix _ _
    exact hpre.isInfix.trans hb.isInfix
  · intro ⟨a, b, hab⟩
    refine ⟨fold word ++ b, ⟨a, by rw [← hab, List.append_assoc]⟩, ?_, List.take_left ..⟩
    intro hnil
    have hword := (List.append_eq_nil_iff.mp hnil).1
    exact hne (List.map_eq_nil_iff.mp hword)

/-- Searched with the value's length the word is found at the end of the value only,
and so is every beginning of it that is the whole value. -/
theorem found_by_length {word : Bytes} (hne : word ≠ []) (hw : 0 ∉ word) (v : Value) :
    strcasestrn word ((v.bytes.length + (2 ^ 64 - 1)) % 2 ^ 64) v.bytes = true ↔
      EndsWith v.bytes word ∨ Begins v.bytes word := by
  have hwpos := List.length_pos_of_ne_nil hne
  rcases Nat.eq_zero_or_pos v.bytes.length with hzero | hpos
  · have hnil : v.bytes = [] := List.eq_nil_of_length_eq_zero hzero
    have hends : ¬ EndsWith v.bytes word := by
      intro h
      have hle := h.length_le
      rw [fold_length, fold_length] at hle
      omega
    have hbegins : ¬ Begins v.bytes word := fun h => h.1 hnil
    simp [hnil, strcasestrn, hnil ▸ hends, hnil ▸ hbegins]
  · have hfits := v.fits
    have hn : (v.bytes.length + (2 ^ 64 - 1)) % 2 ^ 64 + 1 = v.bytes.length := by
      have hsub : v.bytes.length + (2 ^ 64 - 1) = (v.bytes.length - 1) + 2 ^ 64 := by omega
      rw [hsub, Nat.add_mod_right, Nat.mod_eq_of_lt (by omega)]
      omega
    rw [strcasestrn_iff _ hne hw v.clean, hn]
    have hshort : ∀ b, b <:+ fold v.bytes → b.take v.bytes.length = b := by
      intro b hb
      have hle := hb.length_le
      rw [fold_length] at hle
      exact List.take_of_length_le hle
    have hfound : (∃ b, b <:+ fold v.bytes ∧ b ≠ [] ∧
        b.take v.bytes.length = (fold word).take v.bytes.length) ↔
          (fold word).take v.bytes.length <:+ fold v.bytes := by
      constructor
      · intro ⟨b, hb, _, hbt⟩
        rw [hshort b hb] at hbt
        rw [← hbt]
        exact hb
      · intro h
        refine ⟨_, h, ?_, List.take_take ▸ by rw [Nat.min_self]⟩
        intro hnil
        have hlen := congrArg List.length hnil
        rw [List.length_take, fold_length, List.length_nil] at hlen
        omega
    rw [hfound]
    by_cases hlen : v.bytes.length < word.length
    · have htake : ((fold word).take v.bytes.length).length = (fold v.bytes).length := by
        rw [List.length_take, fold_length, fold_length]
        omega
      have hends : ¬ EndsWith v.bytes word := by
        intro h
        have hle := h.length_le
        rw [fold_length, fold_length] at hle
        omega
      constructor
      · intro h
        have heq := h.eq_of_length htake
        right
        refine ⟨List.ne_nil_of_length_pos hpos, hlen, ?_⟩
        rw [← heq]
        exact List.take_prefix _ _
      · intro h
        rcases h with h | ⟨_, _, h⟩
        · exact absurd h hends
        · have heq := List.prefix_iff_eq_take.mp h
          rw [fold_length] at heq
          rw [← heq]
    · have hall : (fold word).take v.bytes.length = fold word :=
        List.take_of_length_le (by rw [fold_length]; omega)
      rw [hall]
      constructor
      · intro h
        exact .inl h
      · intro h
        rcases h with h | ⟨_, h, _⟩
        · exact h
        · exact absurd h hlen

/-! ### The effect of the words a value contains -/

def words : List Bytes := [ascii "keep-alive", ascii "close", ascii "upgrade"]

theorem words_sound : ∀ word ∈ words, word ≠ [] ∧ 0 ∉ word := by decide

inductive Effect where
  | keepAlive
  | close
  | upgrade
  | refused
  deriving Repr, DecidableEq

/-- The response's cascade over a test for a word. -/
def respEffect (has : Bytes → Bool) : Effect :=
  if has (ascii "keep-alive") then .keepAlive
  else if has (ascii "close") then .close
  else if has (ascii "upgrade") then .upgrade
  else .refused

def Request.takes (r : Request) : Effect → Rc × Request
  | .keepAlive => (.ok, { r with keepalive := true, reqKeepalive := some true })
  | .close => (.ok, { r with keepalive := false, reqKeepalive := some false })
  | .upgrade => (.ok, { r with status := 101 })
  | .refused => (.declined, r)

/-- The request's cascade by containment. -/
def Request.turned (r : Request) (v : Bytes) : Request :=
  if Contains v (ascii "close") then
    { r with
      connectionType := .close
      keepAliveN := -1
      keepalive := false
      reqKeepalive := some false }
  else if Contains v (ascii "keep-alive") then
    { r with connectionType := .keepAlive, keepalive := true, reqKeepalive := some true }
  else r

theorem respEffect_congr {p q : Bytes → Bool} (h : ∀ word ∈ words, p word = q word) :
    respEffect p = respEffect q := by
  have hkeep := h (ascii "keep-alive") (by decide)
  have hclose := h (ascii "close") (by decide)
  have hupgrade := h (ascii "upgrade") (by decide)
  simp only [respEffect, hkeep, hclose, hupgrade]

theorem respConnectionHandler_eq {hv : HeaderSet} {r : Request} {v : Value}
    (hvalue : hv.value = some v.bytes) (hctx : r.reqKeepalive.isSome = true) :
    respConnectionHandler hv r =
      .ok (r.takes (respEffect fun word =>
        decide (EndsWith v.bytes word ∨ Begins v.bytes word))) := by
  obtain ⟨b, hb⟩ := Option.isSome_iff_exists.mp hctx
  have hsame : ∀ word ∈ words,
      decide (EndsWith v.bytes word ∨ Begins v.bytes word) =
        strcasestrn word ((v.bytes.length + (2 ^ 64 - 1)) % 2 ^ 64) v.bytes := by
    intro word hword
    obtain ⟨hne, hzero⟩ := words_sound word hword
    rw [Bool.eq_iff_iff, decide_eq_true_iff, found_by_length hne hzero v]
  rw [respEffect_congr hsame]
  obtain ⟨headers, keepalive, reqKeepalive, connectionType, keepAliveN, status⟩ := r
  subst hb
  simp only [respConnectionHandler, hvalue, respEffect]
  split
  · rfl
  · split
    · rfl
    · split
      · rfl
      · rfl

theorem reqConnectionHandler_eq {pool : Pool} {offset : Field} {hv : HeaderSet} {r : Request}
    {headers : HeaderMap} {v : Value} (hvalue : hv.value = some v.bytes)
    (hctx : r.reqKeepalive.isSome = true)
    (hset : setBuiltinHeader pool offset hv r.headers = .ok (.ok, headers)) :
    reqConnectionHandler pool offset hv r =
      .ok (.ok, ({ r with headers := headers } : Request).turned v.bytes) := by
  obtain ⟨b, hb⟩ := Option.isSome_iff_exists.mp hctx
  have hclose := @found_whole (ascii "close") (by decide) (by decide) v
  have hkeep := @found_whole (ascii "keep-alive") (by decide) (by decide) v
  rw [show (ascii "close").length - 1 = 5 - 1 from rfl] at hclose
  rw [show (ascii "keep-alive").length - 1 = 10 - 1 from rfl] at hkeep
  simp only [reqConnectionHandler, hset, hvalue, hb, Option.getD_some, Request.turned, ← hclose,
    ← hkeep]
  by_cases hempty : v.bytes = []
  · rw [if_pos hempty, hempty]
    rfl
  · rw [if_neg hempty]
    split
    · rfl
    · split
      · rfl
      · rfl

/-- No beginning of a word contains a word. -/
theorem begins_contains {v word w : Bytes} (hword : word ∈ words) (hw : w ∈ words)
    (h : Begins v word) : ¬ Contains v w := by
  have hall : ∀ word ∈ words, ∀ k < 10, k < word.length →
      ∀ w ∈ words, ¬ fold w <:+: (fold word).take k := by decide
  obtain ⟨-, hlen, hpre⟩ := h
  have hten : ∀ word ∈ words, word.length ≤ 10 := by decide
  have htake := List.prefix_iff_eq_take.mp hpre
  rw [fold_length] at htake
  rw [Contains, htake]
  have hle := hten word hword
  exact hall word hword v.length (by omega) hlen w hw

/-- The word that decides by containment stands at the end of the value. -/
def DecidedAtEnd (v : Bytes) : Prop :=
  if Contains v (ascii "keep-alive") then EndsWith v (ascii "keep-alive")
  else if Contains v (ascii "close") then EndsWith v (ascii "close")
  else Contains v (ascii "upgrade") → EndsWith v (ascii "upgrade")

theorem respEffect_ends_iff (v : Bytes) :
    (respEffect fun word => decide (EndsWith v word)) =
        (respEffect fun word => decide (Contains v word)) ↔ DecidedAtEnd v := by
  have hends : ∀ word, EndsWith v word → Contains v word := fun word h => h.isInfix
  simp only [respEffect, DecidedAtEnd, decide_eq_true_eq]
  by_cases hck : Contains v (ascii "keep-alive")
  · by_cases hek : EndsWith v (ascii "keep-alive")
    · simp [hck, hek]
    · simp only [hck, hek, if_true, if_false, iff_false]
      split
      · decide
      · split <;> decide
  · have hek : ¬ EndsWith v (ascii "keep-alive") := fun h => hck (hends _ h)
    by_cases hcc : Contains v (ascii "close")
    · by_cases hec : EndsWith v (ascii "close")
      · simp [hck, hek, hcc, hec]
      · simp only [hck, hek, hcc, hec, if_true, if_false, iff_false]
        split <;> decide
    · have hec : ¬ EndsWith v (ascii "close") := fun h => hcc (hends _ h)
      by_cases hcu : Contains v (ascii "upgrade")
      · by_cases heu : EndsWith v (ascii "upgrade")
        · simp [hck, hek, hcc, hec, hcu, heu]
        · simp [hck, hek, hcc, hec, hcu, heu]
      · have heu : ¬ EndsWith v (ascii "upgrade") := fun h => hcu (hends _ h)
        simp [hck, hek, hcc, hec, hcu, heu]

theorem respEffect_refused_iff (p : Bytes → Bool) :
    respEffect p = .refused ↔ ∀ word ∈ words, p word = false := by
  simp only [respEffect, words, List.forall_mem_cons, List.not_mem_nil, IsEmpty.forall_iff,
    implies_true, and_true]
  cases p (ascii "keep-alive") <;> cases p (ascii "close") <;> cases p (ascii "upgrade") <;> decide

theorem respEffect_iff (v : Bytes) :
    (respEffect fun word => decide (EndsWith v word ∨ Begins v word)) =
        (respEffect fun word => decide (Contains v word)) ↔
      DecidedAtEnd v ∧ ∀ word ∈ words, ¬ Begins v word := by
  by_cases hbegins : ∃ word ∈ words, Begins v word
  · obtain ⟨word, hword, hb⟩ := hbegins
    -- by containment the value is refused, and the handler takes it
    have hrefused : (respEffect fun word => decide (Contains v word)) = .refused :=
      (respEffect_refused_iff _).mpr fun w hw => decide_eq_false (begins_contains hword hw hb)
    rw [hrefused, respEffect_refused_iff]
    constructor
    · intro h
      exact absurd (h word hword) (by simp [hb])
    · intro h
      exact absurd hb (h.2 word hword)
  · have hnone : ∀ word ∈ words, ¬ Begins v word := by
      intro word hword hb
      exact hbegins ⟨word, hword, hb⟩
    have hsame : ∀ word ∈ words,
        decide (EndsWith v word ∨ Begins v word) = decide (EndsWith v word) := by
      intro word hword
      rw [decide_eq_decide]
      exact or_iff_left (hnone word hword)
    rw [respEffect_congr hsame, respEffect_ends_iff]
    exact (and_iff_left hnone).symm

/-! ### Where the handlers have the effect of the words -/

def plain : Request where
  headers := ⟨⟨[], [], pushed_nil⟩, fun _ => none, []⟩
  keepalive := true
  reqKeepalive := some false
  connectionType := .none
  keepAliveN := -1
  status := 200

theorem takes_inj {d e : Effect} (h : plain.takes d = plain.takes e) : d = e := by
  have hwritten := congrArg (fun p => (p.1, p.2.keepalive, p.2.reqKeepalive, p.2.status)) h
  cases d <;> cases e <;> first | rfl | exact absurd hwritten (by decide)

/-- A value of the request's Connection header is read by containment; a value of the
response's is exactly where its word is the end of it and it is no beginning of a word. -/
theorem connection_by_containment_iff (v : Value) :
    ((∀ (hv : HeaderSet) (r : Request), hv.value = some v.bytes →
        r.reqKeepalive.isSome = true →
        respConnectionHandler hv r =
          .ok (r.takes (respEffect fun word => decide (Contains v.bytes word)))) ∧
      (∀ (pool : Pool) (offset : Field) (hv : HeaderSet) (r : Request) (headers : HeaderMap),
        hv.value = some v.bytes → r.reqKeepalive.isSome = true →
        setBuiltinHeader pool offset hv r.headers = .ok (.ok, headers) →
        reqConnectionHandler pool offset hv r =
          .ok (.ok, ({ r with headers := headers } : Request).turned v.bytes))) ↔
      DecidedAtEnd v.bytes ∧ ∀ word ∈ words, ¬ Begins v.bytes word := by
  rw [← respEffect_iff]
  constructor
  · intro h
    have hresp := h.1 ⟨[], some v.bytes, 0, .set⟩ plain rfl rfl
    rw [respConnectionHandler_eq rfl rfl] at hresp
    exact takes_inj (Except.ok.inj hresp)
  · intro heq
    constructor
    · intro hv r hvalue hctx
      rw [respConnectionHandler_eq hvalue hctx, heq]
    · intro pool offset hv r headers hvalue hctx hset
      exact reqConnectionHandler_eq hvalue hctx hset

/-- `close, te` contains the word and is refused. -/
theorem close_in_front_is_refused :
    ¬ ∀ (v : Value) (hv : HeaderSet) (r : Request), hv.value = some v.bytes →
      r.reqKeepalive.isSome = true →
      respConnectionHandler hv r =
        .ok (r.takes (respEffect fun word => decide (Contains v.bytes word))) := by
  intro h
  have hresp := h ⟨ascii "close, te", by decide, by decide⟩ ⟨[], some (ascii "close, te"), 0, .set⟩
    plain rfl rfl
  rw [respConnectionHandler_eq (v := ⟨ascii "close, te", by decide, by decide⟩) rfl rfl] at hresp
  have heffect := takes_inj (Except.ok.inj hresp)
  exact absurd heffect (by decide)

end NgxWasm.Http.ConnectionHeader
