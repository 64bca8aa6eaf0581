import NgxWasm.Http.HeaderRemoval
import NgxWasm.ProxyWasm.HeaderMaps
import NgxWasm.Lib.Run

/-!
# Removed headers of a filter

A removal by a filter takes every element of its key out of use and leaves room for an
addition when the key's handler removes by the list, or when the handler's pointer is at
the only such element and does not stay.
-/

namespace NgxWasm.ProxyWasm.HeaderRemoved

open NgxWasm NgxWasm.ProxyWasm.Pairs NgxWasm.Http.Headers NgxWasm.Http.HeaderSet
  NgxWasm.Http.HeaderRemoval NgxWasm.ProxyWasm.HeaderMaps NgxWasm.Lib.Run

/-! ### One call -/

/-- The key as a list holds it: `ngx_http_wasm_set_header` escapes it in place. -/
def stored (ht : HType) (key : Bytes) : Bytes :=
  if specialKey ht key = none then escape .headerName key else key

structure RoomyEnv (env : Env) : Prop where
  dup : env.dup = true
  pool : Roomy env.pool

/-- `value` can be added under `key`: read-only keys take none. -/
def ValidValue (b : Build) (ht : HType) (key value : Bytes) : Prop :=
  specialKey ht key = none ∧
    ValidFor (handlerOf (handlers b ht) key) (escape .headerValue value)

/-- A removal returns without an error, no element of its key is in use afterwards, and
what is added next is the only value of the key. -/
def RemoveSound (b : Build) (env : Env) (ht : HType) (s : HeaderMap) (key : Bytes) : Prop :=
  ∃ s', apply b env ht s (.remove key) = .ok (.ok, s') ∧
    NoneLive (stored ht key) s'.list.elts ∧
    ∀ value env', RoomyEnv env' → env'.select = env.select → ValidValue b ht key value →
      ∃ r s'', apply b env' ht s' (.add key value) = .ok (r, s'') ∧
        visible (handlerOf (handlers b ht) key) (stored ht key) s'' = [escape .headerValue value]

/-- The condition on the map and the key; of the special keys only the read-only ones
survive a removal, which does nothing. -/
def RemoveOk (b : Build) (env : Env) (ht : HType) (s : HeaderMap) (key : Bytes) : Prop :=
  match specialKey ht key with
  | some m => m.settable = false ∧ NoneLive key s.list.elts
  | none => Copied env.pool key ∧ RemovalOk env.select (handlers b ht) key s

section
variable {b : Build} {env : Env} {ht : HType} {s : HeaderMap} {key : Bytes}

theorem helper_remove_rc {pool : Pool} {hv : HeaderSet} {list list' : HeaderList} {rc : Rc}
    {out : Option (Option ℕ)} (hmode : hv.mode = .remove)
    (h : setHeaderHelper pool hv list = .ok (rc, list', out)) : rc = .ok := by
  simp only [setHeaderHelper, hmode, reduceCtorEq, if_false, or_true, if_true] at h
  split at h
  · cases h
  · cases h
    rfl

theorem setHeader_remove_rc {pool : Pool} {select : Bool} {table : List Handler}
    {s' : HeaderMap} {rc : Rc}
    (h : setHeader pool select table key none .remove s = .ok (rc, s')) :
    rc = .ok ∨ rc = .error := by
  by_cases hcopy : Copied pool key
  · left
    rw [setHeader_remove hcopy] at h
    have hmode : (headerSet table key none .remove).mode = .remove := rfl
    have hremove : ∀ offset, setBuiltinHeader pool offset (headerSet table key none .remove) s =
        .ok (.ok, removed offset s) := fun offset => setBuiltinHeader_remove offset hmode
    have hmulti : setMultiHeader pool (headerSet table key none .remove) s = .ok (rc, s') →
        rc = .ok := by
      intro h
      simp only [setMultiHeader] at h
      split at h
      · cases h
      next hhelper =>
        cases h
        exact helper_remove_rc hmode hhelper
      · cases h
      next hhelper =>
        cases h
        rfl
    cases hsetter : (handlerOf table key).setter <;> simp only [handle, hsetter] at h
    case header =>
      simp only [setHeaderHandler] at h
      split at h
      · cases h
      next hhelper =>
        cases h
        exact helper_remove_rc hmode hhelper
    case builtin => rw [hremove] at h; cases h; rfl
    case host =>
      simp only [setHostHeader] at h
      split at h
      · cases h
        rfl
      · rw [hremove] at h
        cases h
        rfl
    case reqConnection => rw [hremove] at h; cases h; rfl
    case userAgent => rw [hremove] at h; cases h; rfl
    case reqContentLength =>
      have hvalue : (headerSet table key none .remove).value.getD [] = [] := rfl
      have happend : (headerSet table key none .remove).mode ≠ .append := by simp [headerSet]
      simp only [setReqContentLength, hvalue, ne_eq, not_true_eq_false, if_false,
        if_neg happend, hremove] at h
      cases h
      rfl
    case reqMulti => exact hmulti h
    case location =>
      rw [setLocationHeader_remove _ hmode] at h
      cases h
      rfl
    case lastModified =>
      simp only [setLastModified, hmode, if_true] at h
      cases h
      rfl
    case respContentLength =>
      simp only [setRespContentLength, hmode, if_true] at h
      cases h
      rfl
    case contentType => cases h; rfl
    case respMulti => exact hmulti h
    case respConnection =>
      simp only [setRespConnection, headerSet, if_true] at h
      cases h
  · right
    have hnone : copyEscaped .headerName pool.key key = none := by
      by_contra hc
      exact hcopy hc
    simp only [setHeader, prepare, hnone] at h
    cases h
    rfl

theorem apply_remove (hkey : specialKey ht key = none) {s' : HeaderMap} :
    apply b env ht s (.remove key) = .ok (.ok, s') ↔
      setHeader env.pool env.select (handlers b ht) key none .remove s = .ok (.ok, s') := by
  have hspecial : setSpecialKey ht key none = .ok .declined := by
    simp only [setSpecialKey, hkey]
  simp only [apply, mapsSet, ne_eq, not_true_eq_false, false_and, if_false, hspecial]
  cases hset : setHeader env.pool env.select (handlers b ht) key none .remove s with
  | error fault => simp [result]
  | ok r =>
    obtain ⟨rc, s₁⟩ := r
    rcases setHeader_remove_rc hset with rfl | rfl <;> simp [result]

theorem apply_add (hkey : specialKey ht key = none) (hdup : env.dup = true) (value : Bytes)
    {rc : Rc} {s' : HeaderMap}
    (hset : setHeader env.pool env.select (handlers b ht) key (some value) .append s =
      .ok (rc, s')) :
    ∃ r, apply b env ht s (.add key value) = .ok (r, s') := by
  have hspecial : setSpecialKey ht key (some value) = .ok .declined := by
    simp only [setSpecialKey, hkey]
  simp only [apply, mapsSet, hdup, Bool.true_eq_false, and_false, if_false, hspecial, hset]
  cases rc <;> exact ⟨_, rfl⟩

theorem apply_add_inv (hkey : specialKey ht key = none) (hdup : env.dup = true) (value : Bytes)
    {r : Result} {s' : HeaderMap} (h : apply b env ht s (.add key value) = .ok (r, s')) :
    ∃ rc, setHeader env.pool env.select (handlers b ht) key (some value) .append s =
      .ok (rc, s') := by
  have hspecial : setSpecialKey ht key (some value) = .ok .declined := by
    simp only [setSpecialKey, hkey]
  simp only [apply, mapsSet, hdup, Bool.true_eq_false, and_false, if_false, hspecial] at h
  cases hset : setHeader env.pool env.select (handlers b ht) key (some value) .append s with
  | error fault =>
    rw [hset] at h
    cases h
  | ok x =>
    obtain ⟨rc, s₁⟩ := x
    rw [hset] at h
    refine ⟨rc, ?_⟩
    cases rc <;> cases h <;> rfl

/-- A removal of a key that is not special is the one of `ngx_http_wasm_set_header`. -/
theorem removeSound_plain (hkey : specialKey ht key = none) :
    RemoveSound b env ht s key ↔
      RemovalSound env.pool env.select (handlers b ht) key s := by
  have hstored : stored ht key = escape .headerName key := if_pos hkey
  simp only [RemoveSound, RemovalSound, hstored, apply_remove hkey]
  apply exists_congr
  intro s'
  apply and_congr_right
  intro _
  apply and_congr_right
  intro _
  constructor
  · intro h value pool hroom hvalid
    obtain ⟨r, s'', hadd, hvisible⟩ := h value ⟨true, pool, env.select⟩ ⟨rfl, hroom⟩ rfl
      ⟨hkey, hvalid⟩
    obtain ⟨rc, hset⟩ := apply_add_inv hkey rfl value hadd
    exact ⟨rc, s'', hset, hvisible⟩
  · intro h value env' hroom hselect hvalid
    obtain ⟨rc, s'', hset, hvisible⟩ := h value env'.pool hroom.pool hvalid.2
    rw [← hselect] at hset
    obtain ⟨r, hadd⟩ := apply_add hkey hroom.dup value hset
    exact ⟨r, s'', hadd, hvisible⟩

/-- In every state, when a removal is sound. -/
theorem removeSound_iff : RemoveSound b env ht s key ↔ RemoveOk b env ht s key := by
  cases hkey : specialKey ht key with
  | none =>
    rw [removeSound_plain hkey, removalSound_iff]
    simp only [RemoveOk, hkey]
  | some m =>
    have hstored : stored ht key = key := if_neg (by simp [hkey])
    simp only [RemoveOk, hkey]
    cases hm : m.settable with
    | true =>
      have happly : apply b env ht s (.remove key) = .error .nullRead := by
        simp [apply, mapsSet, setSpecialKey, hkey, hm, result]
      simp [RemoveSound, happly]
    | false =>
      have happly : apply b env ht s (.remove key) = .ok (.ok, s) := by
        simp [apply, mapsSet, setSpecialKey, hkey, hm, result]
      constructor
      · rintro ⟨s', hs', hnone, -⟩
        rw [happly] at hs'
        cases hs'
        rw [hstored] at hnone
        exact ⟨rfl, hnone⟩
      · rintro ⟨-, hnone⟩
        refine ⟨s, happly, by rw [hstored]; exact hnone, ?_⟩
        intro value env' _ _ hvalid
        rw [hvalid.1] at hkey
        cases hkey

end

/-! ### A run of calls -/

/-- A run is over at a call that does not return. -/
def step (b : Build) (s : Except Fault World) (c : Call) : Except Fault World × Option Result :=
  match s with
  | .error fault => (.error fault, none)
  | .ok w =>
    match call b w c with
    | .error fault => (.error fault, none)
    | .ok (w, r) => (.ok w, some r)

def CallSound (b : Build) (s : Except Fault World) (c : Call) : Prop :=
  ∀ w, s = .ok w →
    match c.op with
    | .remove key => RemoveSound b c.env c.ht (w c.ht) key
    | .setPairs _ => ClearSound c.env.pool c.env.select (handlers b c.ht) (w c.ht)
    | _ => True

def CallOk (b : Build) (s : Except Fault World) (c : Call) : Prop :=
  ∀ w, s = .ok w →
    match c.op with
    | .remove key => RemoveOk b c.env c.ht (w c.ht) key
    | .setPairs _ => ClearOk c.env.pool c.env.select (handlers b c.ht) (w c.ht)
    | _ => True

theorem callSound_of_callOk (b : Build) (s : Except Fault World) (c : Call)
    (h : CallOk b s c) : CallSound b s c := by
  intro w hw
  have hw := h w hw
  cases hop : c.op <;> simp only [hop] at hw ⊢
  case remove key => exact removeSound_iff.mpr hw
  case setPairs pairs => exact clearSound hw

/-- In a run whose removals and whose clearings of all headers meet their conditions in
the state they are made in, they all do what they are for; for a removal the condition
is exact. -/
theorem removals_sound (b : Build) (start : World) (cs : List Call) :
    (Meets (step b) (CallOk b) (.ok start) cs → Meets (step b) (CallSound b) (.ok start) cs) ∧
      ∀ s c key, c.op = .remove key → (CallSound b s c ↔ CallOk b s c) := by
  constructor
  · exact meets_mono (step b) (callSound_of_callOk b) cs (.ok start)
  · intro s c key hop
    constructor
    · intro h w hw
      have hw := h w hw
      simp only [hop] at hw ⊢
      exact removeSound_iff.mp hw
    · exact callSound_of_callOk b s c

def plentyEnv : Env := ⟨true, ⟨20, true, true, true, true⟩, false⟩

def allModules : Build := ⟨true, true, true, true⟩

/-- Request and response with `a: 1`, `b: 2` and `a: 3`. -/
def twoOfA : World := fun _ =>
  ⟨⟨[⟨97, [97], [49]⟩, ⟨98, [98], [50]⟩, ⟨97, [97], [51]⟩], [], pushed_nil⟩, fun _ => none, []⟩

def removeA : Call := ⟨.request, plentyEnv, .remove [97]⟩

def addA : Call := ⟨.request, plentyEnv, .add [97] [52]⟩

theorem removeA_ok {s : HeaderMap} (h : LiveHashed [97] s.list.elts) :
    RemoveOk allModules plentyEnv .request s [97] := by
  have hkey : specialKey .request [97] = none := by decide
  have hsetter : (handlerOf (handlers allModules .request) [97]).setter = .header := by decide
  simp only [RemoveOk, hkey, RemovalOk, hsetter]
  exact ⟨by unfold Copied; decide, by decide, h⟩

/-- Both elements are removed, a third is added and removed again. -/
theorem removals_sound_readded :
    Meets (step allModules) (CallSound allModules) (.ok twoOfA) [removeA, addA, removeA] := by
  apply (removals_sound allModules twoOfA [removeA, addA, removeA]).1
  refine ⟨?_, ?_, ?_, trivial⟩
  · intro w hw
    cases hw
    apply removeA_ok
    unfold LiveHashed
    decide
  · intro w hw
    trivial
  · intro w hw
    cases hw
    apply removeA_ok
    unfold LiveHashed
    decide

def refererHash : ℕ := hashKeyLc (ascii "Referer")

/-- A request with two `Referer` headers, as nginx parses it: the pointer is at the first. -/
def twoReferers : HeaderMap where
  list := ⟨[⟨refererHash, ascii "Referer", [49]⟩, ⟨refererHash, ascii "Referer", [50]⟩], [],
    pushed_nil⟩
  builtin := fun f => if f = .referer then some 0 else none
  contentType := []

/-- Removing `referer` leaves the second element in use, and removing `:path` follows a
null value. -/
theorem second_referer_stays :
    (∃ s', apply allModules plentyEnv .request twoReferers (.remove (ascii "referer")) =
        .ok (.ok, s') ∧ ¬ NoneLive (stored .request (ascii "referer")) s'.list.elts) ∧
      apply allModules plentyEnv .request twoReferers (.remove (ascii ":path")) =
        .error .nullRead := by
  refine ⟨⟨twoReferers.clear 0, rfl, ?_⟩, rfl⟩
  unfold NoneLive
  decide

end NgxWasm.ProxyWasm.HeaderRemoved
