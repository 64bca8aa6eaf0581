import NgxWasm.ProxyWasm.HeaderMaps
import NgxWasm.ProxyWasm.PairsRoundTrip
import NgxWasm.Http.HeaderSet
import Mathlib.Data.List.Find

/-!
# Two ways to read a header map

`ngx_wasm_get_list_elem` stops at the first element of a key, cleared or not; the
marshalled map leaves cleared elements out.
-/

namespace NgxWasm.ProxyWasm.HeaderReads

open NgxWasm NgxWasm.ProxyWasm.Pairs NgxWasm.Http.Headers NgxWasm.Http.HeaderSet
  NgxWasm.ProxyWasm.HeaderMaps

/-! ### What every element keeps -/

/-- A property of elements that nothing written to a list loses. -/
structure Kept (P : Elt → Prop) : Prop where
  cleared : ∀ e, P e → P { e with hash := 0 }
  escaped : ∀ e, P e → P { e with key := escape .headerName e.key }
  prepared : ∀ key value mode hv, Prepared key value mode hv → P hv.elt

section
variable {P : Elt → Prop}

theorem assign_forall {list : HeaderList} {i : ℕ} {x : Elt} (hx : P x)
    (h : ∀ e ∈ list.elts, P e) : ∀ e ∈ (list.assign i x).elts, P e := by
  intro e he
  rw [HeaderList.assign_elts] at he
  rcases List.mem_or_eq_of_mem_set he with he | rfl
  · exact h e he
  · exact hx

theorem search_forall (hP : Kept P) {hv : HeaderSet} (helt : P hv.elt) (h : List Elt) :
    ∀ (i : ℕ) (s : Pass), (∀ e ∈ h, P e) → (∀ e ∈ s.list.elts, P e) →
      ∀ e ∈ (search hv h i s).list.elts, P e := by
  induction h with
  | nil => intro i s _ hs; exact hs
  | cons x h ih =>
    intro i s hh hs
    have hx := hh x (List.mem_cons_self ..)
    have hrest : ∀ e ∈ h, P e := fun e he => hh e (List.mem_cons_of_mem _ he)
    simp only [search]
    split
    · split
      · exact assign_forall (hP.cleared x hx) hs
      · exact ih _ _ hrest (assign_forall helt hs)
    · exact ih _ _ hrest hs

theorem passes_forall (hP : Kept P) {hv : HeaderSet} (helt : P hv.elt) :
    ∀ (n : ℕ) (s s' : Pass), (∀ e ∈ s.list.elts, P e) → passes hv n s = some s' →
      ∀ e ∈ s'.list.elts, P e := by
  intro n
  induction n with
  | zero => intro s s' _ h; cases h
  | succ n ih =>
    intro s s' hs h
    have hpass := search_forall hP helt s.list.elts 0 { s with again := false } hs hs
    simp only [passes] at h
    split at h
    · exact ih _ _ hpass h
    · rw [← Option.some.inj h]
      exact hpass

theorem newHeader_forall {pool : Pool} {hv : HeaderSet} (helt : P hv.elt) {list : HeaderList}
    (hl : ∀ e ∈ list.elts, P e) : ∀ e ∈ (newHeader pool hv list).2.1.elts, P e := by
  have hpush : ∀ e ∈ (list.push pool.nalloc hv.elt).elts, P e := by
    intro e he
    rw [HeaderList.push_elts] at he
    rcases List.mem_append.mp he with he | he
    · exact hl e he
    · rw [List.mem_singleton.mp he]
      exact helt
  simp only [newHeader]
  split
  · split
    · exact hpush
    · exact hpush
  · exact hl

theorem helper_forall (hP : Kept P) {pool : Pool} {hv : HeaderSet} (helt : P hv.elt)
    {list list' : HeaderList} {rc : Rc} {out : Option (Option ℕ)} (hl : ∀ e ∈ list.elts, P e)
    (h : setHeaderHelper pool hv list = .ok (rc, list', out)) : ∀ e ∈ list'.elts, P e := by
  have hnew : ∀ l : HeaderList, (∀ e ∈ l.elts, P e) →
      (.ok (newHeader pool hv l) : Except Fault _) = .ok (rc, list', out) →
      ∀ e ∈ list'.elts, P e := by
    intro l hl heq
    have hforall : ∀ e ∈ (newHeader pool hv l).2.1.elts, P e := newHeader_forall helt hl
    rw [Except.ok.inj heq] at hforall
    exact hforall
  simp only [setHeaderHelper] at h
  split at h
  · exact hnew list hl h
  · split at h
    · cases h
    next s hs =>
      have hpasses := passes_forall hP helt _ _ s hl hs
      split at h
      · simp only [Except.ok.injEq, Prod.mk.injEq] at h
        rw [← h.2.1]
        exact hpasses
      · exact hnew s.list hpasses h

theorem clear_forall (hP : Kept P) {s : HeaderMap} (h : ℕ) (hs : ∀ e ∈ s.list.elts, P e) :
    ∀ e ∈ (s.clear h).list.elts, P e := by
  simp only [HeaderMap.clear]
  split
  next e he => exact assign_forall (hP.cleared e (hs e (List.mem_of_getElem? he))) hs
  next => exact hs

theorem setBuiltinHeader_forall (hP : Kept P) {pool : Pool} {offset : Field} {hv : HeaderSet}
    (helt : P hv.elt) {s s' : HeaderMap} {rc : Rc} (hs : ∀ e ∈ s.list.elts, P e)
    (h : setBuiltinHeader pool offset hv s = .ok (rc, s')) : ∀ e ∈ s'.list.elts, P e := by
  simp only [setBuiltinHeader] at h
  split at h
  · cases h
    exact hs
  · split at h
    · cases h
    next hhelper =>
      cases h
      exact helper_forall hP helt hs hhelper
  · cases h
    exact clear_forall hP _ hs
  · cases h
    exact hs
  · cases h
    exact assign_forall helt hs

theorem setMultiHeader_forall (hP : Kept P) {pool : Pool} {hv : HeaderSet}
    (helt : P hv.elt) {s s' : HeaderMap} {rc : Rc} (hs : ∀ e ∈ s.list.elts, P e)
    (h : setMultiHeader pool hv s = .ok (rc, s')) : ∀ e ∈ s'.list.elts, P e := by
  simp only [setMultiHeader] at h
  split at h
  · cases h
  next hhelper =>
    cases h
    exact helper_forall hP helt hs hhelper
  · cases h
  next hhelper =>
    cases h
    exact helper_forall hP helt hs hhelper

theorem setLocationHeader_forall (hP : Kept P) {pool : Pool} {offset : Field} {hv : HeaderSet}
    (helt : P hv.elt) {s s' : HeaderMap} {rc : Rc} (hs : ∀ e ∈ s.list.elts, P e)
    (h : setLocationHeader pool offset hv s = .ok (rc, s')) : ∀ e ∈ s'.list.elts, P e := by
  simp only [setLocationHeader] at h
  split at h
  next s₁ hs₁ =>
    have hforall := setBuiltinHeader_forall hP helt hs hs₁
    split at h
    · split at h <;> · cases h; exact hforall
    · cases h
      exact hforall
  next => exact setBuiltinHeader_forall hP helt hs h

theorem clearBuiltin_forall (hP : Kept P) (offset : Field) {s : HeaderMap}
    (hs : ∀ e ∈ s.list.elts, P e) : ∀ e ∈ (clearBuiltin offset s).list.elts, P e := by
  simp only [clearBuiltin]
  split
  · exact clear_forall hP _ hs
  · exact hs

theorem handle_forall (hP : Kept P) {pool : Pool} {select : Bool} {handler : Handler}
    {hv : HeaderSet} (helt : P hv.elt) {s s' : HeaderMap} {rc : Rc}
    (hs : ∀ e ∈ s.list.elts, P e) (h : handle pool select handler hv s = .ok (rc, s')) :
    ∀ e ∈ s'.list.elts, P e := by
  have hbuiltin : ∀ {rc : Rc}, setBuiltinHeader pool handler.offset hv s = .ok (rc, s') →
      ∀ e ∈ s'.list.elts, P e := fun h => setBuiltinHeader_forall hP helt hs h
  cases hsetter : handler.setter <;> simp only [handle, hsetter] at h
  case header =>
    simp only [setHeaderHandler] at h
    split at h
    · cases h
    next hhelper =>
      cases h
      exact helper_forall hP helt hs hhelper
  case builtin => exact hbuiltin h
  case host =>
    simp only [setHostHeader] at h
    split at h
    · cases h
      exact hs
    · exact hbuiltin h
  case reqConnection => exact hbuiltin h
  case userAgent => exact hbuiltin h
  case reqContentLength =>
    simp only [setReqContentLength] at h
    split at h
    · split at h
      · cases h
        exact hs
      · exact hbuiltin h
    · split at h
      · cases h
        exact hs
      · exact hbuiltin h
  case reqMulti => exact setMultiHeader_forall hP helt hs h
  case location => exact setLocationHeader_forall hP helt hs h
  case lastModified =>
    simp only [setLastModified] at h
    split at h
    · cases h
      exact clearBuiltin_forall hP _ hs
    · exact hbuiltin h
  case respContentLength =>
    simp only [setRespContentLength] at h
    split at h
    · cases h
      exact clearBuiltin_forall hP _ hs
    · split at h
      · cases h
        exact hs
      · exact hbuiltin h
  case contentType =>
    cases h
    exact hs
  case respMulti => exact setMultiHeader_forall hP helt hs h
  case respConnection =>
    simp only [setRespConnection] at h
    split at h
    · cases h
    · split at h <;> · cases h; exact hs

theorem setHeader_forall (hP : Kept P) {pool : Pool} {select : Bool} {table : List Handler}
    {key : Bytes} {value : Option Bytes} {mode : Mode} {s s' : HeaderMap} {rc : Rc}
    (hs : ∀ e ∈ s.list.elts, P e) (h : setHeader pool select table key value mode s = .ok (rc, s')) :
    ∀ e ∈ s'.list.elts, P e := by
  simp only [setHeader] at h
  split at h
  · cases h
    exact hs
  next hprepare =>
    exact handle_forall hP (hP.prepared _ _ _ _ (prepare_spec hprepare)) hs h

theorem clearFrom_forall (hP : Kept P) {pool : Pool} {select : Bool} {table : List Handler}
    (n : ℕ) : ∀ (i : ℕ) (s s' : HeaderMap) (rc : Rc), (∀ e ∈ s.list.elts, P e) →
      clearFrom pool select table n i s = .ok (rc, s') → ∀ e ∈ s'.list.elts, P e := by
  induction n with
  | zero =>
    intro i s s' rc hs h
    cases h
    exact hs
  | succ n ih =>
    intro i s s' rc hs h
    simp only [clearFrom] at h
    split at h
    · cases h
      exact hs
    next e he =>
      have hmem := List.mem_of_getElem? he
      split at h
      · exact ih _ _ _ _ hs h
      · cases hkey : copyEscaped .headerName pool.key e.key with
        | none =>
          simp only [hkey] at h
          split at h
          · cases h
          next hset => exact ih _ _ _ _ (setHeader_forall hP hs hset) h
          next hset =>
            cases h
            exact setHeader_forall hP hs hset
        | some key =>
          simp only [hkey] at h
          have hescaped : ∀ x ∈ (s.list.assign i { e with key := key }).elts, P x := by
            rw [copyEscaped_eq hkey]
            exact assign_forall (hP.escaped e (hs e hmem)) hs
          split at h
          · cases h
          next hset => exact ih _ _ _ _ (setHeader_forall hP hescaped hset) h
          next hset =>
            cases h
            exact setHeader_forall hP hescaped hset

theorem mapsSet_forall (hP : Kept P) {b : Build} {env : Env} {ht : HType} {key : Bytes}
    {value : Option Bytes} {mode : Mode} {s s' : HeaderMap} {rc : Rc}
    (hs : ∀ e ∈ s.list.elts, P e) (h : mapsSet b env ht key value mode s = .ok (rc, s')) :
    ∀ e ∈ s'.list.elts, P e := by
  simp only [mapsSet] at h
  split at h
  · cases h
    exact hs
  · split at h
    · cases h
    · split at h
      next hset =>
        cases h
        exact setHeader_forall hP hs hset
      next => exact setHeader_forall hP hs h
    · cases h
      exact hs

theorem mapsSetAll_forall (hP : Kept P) {b : Build} {env : Env} {ht : HType}
    (pairs : List (Bytes × Bytes)) : ∀ (s s' : HeaderMap) (rc : Rc), (∀ e ∈ s.list.elts, P e) →
      mapsSetAll b env ht pairs s = .ok (rc, s') → ∀ e ∈ s'.list.elts, P e := by
  induction pairs with
  | nil =>
    intro s s' rc hs h
    cases h
    exact hs
  | cons p pairs ih =>
    intro s s' rc hs h
    simp only [mapsSetAll] at h
    split at h
    next hset => exact ih _ _ _ (mapsSet_forall hP hs hset) h
    next => exact mapsSet_forall hP hs h

theorem result_ok {r : Handled} {a : Result} {s : HeaderMap} (h : result r = .ok (a, s)) :
    ∃ rc, r = .ok (rc, s) := by
  simp only [result] at h
  split at h
  · cases h
  · cases h
    exact ⟨_, rfl⟩
  · cases h
    exact ⟨_, rfl⟩

theorem apply_forall (hP : Kept P) {b : Build} {env : Env} {ht : HType} {s s' : HeaderMap}
    {op : HeaderOp} {r : Result} (hs : ∀ e ∈ s.list.elts, P e)
    (h : apply b env ht s op = .ok (r, s')) : ∀ e ∈ s'.list.elts, P e := by
  cases op with
  | add key value =>
    obtain ⟨rc, hset⟩ := result_ok h
    exact mapsSet_forall hP hs hset
  | replace key value =>
    obtain ⟨rc, hset⟩ := result_ok h
    exact mapsSet_forall hP hs hset
  | remove key =>
    obtain ⟨rc, hset⟩ := result_ok h
    exact mapsSet_forall hP hs hset
  | setPairs pairs =>
    simp only [apply, setHeaderMapPairs] at h
    split at h
    · cases h
    next hclear =>
      obtain ⟨rc, hset⟩ := result_ok h
      exact mapsSetAll_forall hP pairs _ _ rc (clearFrom_forall hP _ _ _ _ _ hs hclear) hset
    next hclear =>
      cases h
      exact clearFrom_forall hP _ _ _ _ _ hs hclear

/-- One property of all elements of a request's header maps, over a run of calls. -/
theorem calls_forall (hP : Kept P) {b : Build} (cs : List Call) :
    ∀ (w w' : World), (∀ ht, ∀ e ∈ (w ht).list.elts, P e) → calls b w cs = .ok w' →
      ∀ ht, ∀ e ∈ (w' ht).list.elts, P e := by
  induction cs with
  | nil =>
    intro w w' hw h
    cases h
    exact hw
  | cons c cs ih =>
    intro w w' hw h
    simp only [calls] at h
    split at h
    · cases h
    next w₁ r hcall =>
      apply ih w₁ w' _ h
      simp only [call] at hcall
      split at hcall
      · cases hcall
      next s hs =>
        cases hcall
        intro ht
        by_cases heq : ht = c.ht
        · subst heq
          rw [Function.update_self]
          exact apply_forall hP (hw _) hs
        · rw [Function.update_of_ne heq]
          exact hw ht

end

/-! ### The two readers -/

/-- No header name holds a zero byte, be it parsed or escaped. -/
def Clean (list : HeaderList) : Prop := ∀ e ∈ list.elts, 0 ∉ e.key

theorem clean_kept : Kept fun e => 0 ∉ e.key where
  cleared := fun _ h => h
  escaped := fun e _ => escape_no_zero .headerName e.key
  prepared := fun _ _ _ _ h => h.zero

def same (key : Bytes) (e : Elt) : Bool := decide (SameKey key e.key)

theorem getListElem_eq {list : HeaderList} (hclean : Clean list) (key : Bytes) :
    getListElem list key = (list.elts.find? (same key)).map Elt.value := by
  have hcongr : ∀ l : List Elt, (∀ e ∈ l, 0 ∉ e.key) →
      (l.find? fun elt => key.length == elt.key.length && strncasecmp elt.key key) =
        l.find? (same key) := by
    intro l hl
    apply List.find?_congr
    intro e he
    rw [Bool.eq_iff_iff]
    simp only [same, Bool.and_eq_true, beq_iff_eq, decide_eq_true_eq]
    constructor
    · rintro ⟨hlen, hcmp⟩
      exact ((strncasecmp_iff hlen (hl e he)).mp hcmp).symm
    · intro h
      have hlen : key.length = e.key.length := by simpa using congrArg List.length h
      exact ⟨hlen, (strncasecmp_iff hlen (hl e he)).mpr h.symm⟩
  have heq := hcongr list.elts hclean
  rw [getListElem, ← heq]
  rfl

theorem walkPart_pairs (elts : List Elt) (ps : List (Bytes × Bytes)) :
    walkPart (fun _ => true) (fun ps elt => (ps ++ [(elt.key, elt.value)], false)) elts ps =
      (ps ++ (liveOf elts).map fun elt => (elt.key, elt.value), false) := by
  induction elts generalizing ps with
  | nil => simp [walkPart]
  | cons e elts ih =>
    by_cases he : e.hash = 0
    · rw [liveOf_cons_dead he, ← ih]
      simp [walkPart, he]
    · rw [liveOf_cons_live he, List.map_cons, List.append_cons, ← ih]
      simp [walkPart, he]

theorem pairsOf_eq (extras : List Elt) (list : HeaderList) :
    pairsOf extras list = (extras ++ list.live).map fun elt => (elt.key, elt.value) := by
  rw [pairsOf, walk_flatten, walkPart_pairs, list.live_eq, List.map_append]

/-- What the guest decodes from the marshalled map are the pairs of `pairsOf`. -/
theorem pairsOf_unmarshalled (pool : ℕ → Bool) (hpool : ∀ k, pool k = true) (list : HeaderList)
    (extras : List Elt) (hcount : (extras ++ list.live).length < 2 ^ 32)
    (hshort : ∀ e ∈ extras ++ list.live, Short e) :
    (pairsUnmarshal pool (pairsMarshal list (some extras) 0).1).map
        (List.map fun e => (e.key, e.value)) = .ok (pairsOf extras list) := by
  have hwritten : written list (some extras) 0 = (extras ++ list.live).length := by
    have hmod := Nat.mod_eq_of_lt hcount
    rw [List.length_append] at hmod
    rw [written, limit, if_pos rfl, Option.getD_some, hmod, List.length_append]
  have hformat := unmarshal_format hpool (extras ++ list.live) hcount hshort []
  rw [List.append_nil] at hformat
  rw [pairsMarshal_eq, hwritten, Option.getD_some, List.take_length, hformat, pairsOf_eq]
  simp only [Except.map, List.map_map]
  rfl

/-- The value of the first pair with key `key`. -/
def firstPair (key : Bytes) (ps : List (Bytes × Bytes)) : Option Bytes :=
  (ps.find? fun p => decide (SameKey key p.1)).map Prod.snd

theorem firstPair_pairsOf {key : Bytes} {extras : List Elt}
    (hextras : ∀ e ∈ extras, ¬ SameKey key e.key) (list : HeaderList) :
    firstPair key (pairsOf extras list) = (list.elts.find? (named key)).map Elt.value := by
  have hnone : extras.find? (same key) = none := by
    apply List.find?_eq_none.mpr
    intro e he
    simpa [same] using hextras e he
  have hlive : list.live.find? (same key) = list.elts.find? (named key) := by
    rw [HeaderList.live, List.find?_filter]
    apply List.find?_congr
    intro x _
    rw [Bool.eq_iff_iff, decide_eq_true_eq, named, same, Bool.and_eq_true]
  have hmap : ∀ l : List Elt, firstPair key (l.map fun elt => (elt.key, elt.value)) =
      (l.find? (same key)).map Elt.value := by
    intro l
    rw [firstPair, List.find?_map, Option.map_map]
    rfl
  rw [pairsOf_eq, hmap, List.find?_append, hnone, Option.none_or, hlive]

/-- Of the elements with key `key` the first was not cleared, or has the value of the
first that was not. -/
def FirstInUse (key : Bytes) (list : HeaderList) : Prop :=
  ∀ e, list.elts.find? (same key) = some e →
    e.hash ≠ 0 ∨ (list.elts.find? (named key)).map Elt.value = some e.value

theorem named_same {key : Bytes} {e : Elt} (h : named key e = true) : same key e = true := by
  simp only [named, Bool.and_eq_true] at h
  exact h.2

theorem first_named_of_live {key : Bytes} {l : List Elt} {e : Elt}
    (h : l.find? (same key) = some e) (hlive : e.hash ≠ 0) : l.find? (named key) = some e := by
  obtain ⟨hsame, a, b, hl, ha⟩ := List.find?_eq_some_iff_append.mp h
  apply List.find?_eq_some_iff_append.mpr
  refine ⟨?_, a, b, hl, ?_⟩
  · simp only [named, Bool.and_eq_true, bne_iff_ne]
    exact ⟨hlive, hsame⟩
  · intro x hx
    cases hn : named key x with
    | false => rfl
    | true =>
      have hmiss := ha x hx
      rw [named_same hn] at hmiss
      exact hmiss

theorem first_agree_iff (key : Bytes) (list : HeaderList) :
    (list.elts.find? (same key)).map Elt.value = (list.elts.find? (named key)).map Elt.value ↔
      FirstInUse key list := by
  cases hf : list.elts.find? (same key) with
  | none =>
    have hnone : list.elts.find? (named key) = none := by
      apply List.find?_eq_none.mpr
      intro e he hn
      exact List.find?_eq_none.mp hf e he (named_same hn)
    rw [hnone]
    simp [FirstInUse, hf]
  | some e =>
    constructor
    · intro h x hx
      rw [hf] at hx
      rw [← Option.some.inj hx, ← h]
      exact .inr rfl
    · intro h
      rcases h e hf with hlive | hvalue
      · rw [first_named_of_live hf hlive]
      · rw [hvalue]
        rfl

/-- In every state that a request's calls reach, the lookup of a key and the map of
pairs agree exactly when the first element of the key is in use. -/
theorem reads_agree_iff (b : Build) {start w : World} {cs : List Call}
    (clean : ∀ ht, Clean (start ht).list) (reached : calls b start cs = .ok w) (ht : HType)
    (key : Bytes) (special shim : Bytes → Option Bytes) (extras : List Elt)
    (notSpecial : special key = none) (notShim : shim key = none)
    (notExtra : ∀ e ∈ extras, ¬ SameKey key e.key) :
    mapsGet special shim ht (w ht).list key = firstPair key (pairsOf extras (w ht).list) ↔
      FirstInUse key (w ht).list := by
  have hclean : Clean (w ht).list := calls_forall clean_kept cs start w clean reached ht
  have hget : mapsGet special shim ht (w ht).list key =
      ((w ht).list.elts.find? (same key)).map Elt.value := by
    rw [mapsGet, notSpecial, getListElem_eq hclean]
    cases ((w ht).list.elts.find? (same key)).map Elt.value with
    | none => simp [notShim]
    | some value => rfl
  rw [hget, firstPair_pairsOf notExtra]
  exact first_agree_iff key (w ht).list

def roomyEnv : Env := ⟨true, roomy, false⟩

def release : Build := ⟨true, true, true, true⟩

/-- Request headers `a: 1`, and no response headers. -/
def oneHeader : World
  | .request => ⟨single, fun _ => none, []⟩
  | .response => ⟨⟨[], [], pushed_nil⟩, fun _ => none, []⟩

def removeA : Call := ⟨.request, roomyEnv, .remove [97]⟩

def addA : Call := ⟨.request, roomyEnv, .add [97] [50]⟩

def addAgain : Call := ⟨.request, roomyEnv, .add [97] [49]⟩

theorem oneHeader_clean : ∀ ht, Clean (oneHeader ht).list := by
  intro ht
  cases ht <;> unfold Clean <;> decide

/-- `a` is removed, and added again with the value it had: the two reads agree. -/
theorem reads_agree_readded :
    ∃ w, calls release oneHeader [removeA, addAgain] = .ok w ∧
      mapsGet (fun _ => none) (fun _ => none) .request (w .request).list [97] = some [49] ∧
      FirstInUse [97] (w .request).list := by
  have reached : calls release oneHeader [removeA, addAgain] = .ok _ := rfl
  refine ⟨_, reached, by decide, ?_⟩
  exact (reads_agree_iff release oneHeader_clean reached .request [97] (fun _ => none)
    (fun _ => none) [] rfl rfl (by simp)).mp (by decide)

/-- `a` is removed and added again: the lookup still gives the value that was removed. -/
theorem removed_value_is_found :
    ∃ w, calls release oneHeader [removeA, addA] = .ok w ∧
      mapsGet (fun _ => none) (fun _ => none) .request (w .request).list [97] = some [49] ∧
      firstPair [97] (pairsOf [] (w .request).list) = some [50] := by
  refine ⟨_, rfl, ?_, ?_⟩ <;> decide

end NgxWasm.ProxyWasm.HeaderReads
