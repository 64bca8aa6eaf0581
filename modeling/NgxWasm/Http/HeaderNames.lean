import NgxWasm.Http.HeaderHandlers
import NgxWasm.Http.HeaderSet

/-!
# The names of the tables (ngx_http_wasm_req_headers_handlers, ngx_http_wasm_resp_headers_handlers)

No two handlers of a table share a name, no name is changed by escaping, and none has
the hash of an element that is not in use.
-/

namespace NgxWasm.Http.HeaderNames

open NgxWasm NgxWasm.ProxyWasm.Pairs NgxWasm.Http.Headers NgxWasm.Http.HeaderSet

def fullBuild : Build := ⟨true, true, true, true⟩

theorem handlers_full (b : Build) (ht : HType) {h : Handler} (hh : h ∈ handlers b ht) :
    h ∈ handlers fullBuild ht := by
  cases ht with
  | request => exact reqHeadersHandlers_full b hh
  | response => exact hh

theorem handlers_plain {b : Build} {ht : HType} {h : Handler} (hh : h ∈ handlers b ht) :
    Plain h.name := by
  have hfull : ∀ ht, ∀ h ∈ handlers fullBuild ht, Plain h.name := by
    intro ht
    unfold Plain
    cases ht
    · decide +kernel
    · decide +kernel
  exact hfull ht h (handlers_full b ht hh)

theorem handlers_hash {b : Build} {ht : HType} {h : Handler} (hh : h ∈ handlers b ht) :
    hashKeyLc h.name ≠ 0 := by
  have hfull : ∀ ht, ∀ h ∈ handlers fullBuild ht, hashKeyLc h.name ≠ 0 := by
    intro ht
    cases ht
    · decide
    · decide
  exact hfull ht h (handlers_full b ht hh)

instance (a b : Handler) : Decidable (a = b) :=
  decidable_of_iff (a.name = b.name ∧ a.offset = b.offset ∧ a.setter = b.setter) (by
    cases a
    cases b
    simp)

theorem handlers_unique {b : Build} {ht : HType} {g h : Handler} (hg : g ∈ handlers b ht)
    (hh : h ∈ handlers b ht) (hsame : SameKey g.name h.name) : g = h := by
  have hfull : ∀ ht, ∀ g ∈ handlers fullBuild ht, ∀ h ∈ handlers fullBuild ht,
      SameKey g.name h.name → g = h := by
    intro ht
    unfold SameKey
    cases ht
    · decide
    · decide
  exact hfull ht g (handlers_full b ht hg) h (handlers_full b ht hh) hsame

section
variable {b : Build} {ht : HType} {h : Handler} {pool : Pool} {key : Bytes}
  {value : Option Bytes} {mode : Mode}

/-- The call with a name of the table comes to the handler of that name. -/
theorem prepare_named (hh : h ∈ handlers b ht) (hkey : SameKey h.name key) {g : Handler}
    {hv : HeaderSet} (hp : prepare pool (handlers b ht) key value mode = some (g, hv)) : g = h := by
  have hescaped : SameKey (escape .headerName key) h.name :=
    ((sameKey_escape (handlers_plain hh)).mpr hkey).symm
  rcases prepare_handler hp with ⟨hg, hsame⟩ | ⟨-, hnone⟩
  · exact handlers_unique hg hh (hsame.symm.trans hescaped)
  · exact absurd hescaped (hnone h hh)

/-- And it comes there unless the value is not given the memory it is escaped into. -/
theorem prepare_none_iff (hh : h ∈ handlers b ht) (hkey : SameKey h.name key) :
    prepare pool (handlers b ht) key value mode = none ↔ copyValue pool value = none := by
  have hkey : copyEscaped .headerName pool.key key = some (escape .headerName key) := by
    have hnone : key.any (EscapeKind.escapes .headerName) = false := by
      rw [List.any_eq_false]
      intro c hc
      rw [(handlers_plain hh).unescaped hkey c hc]
      decide
    rw [copyEscaped, hnone]
    rfl
  rw [prepare, hkey]
  cases copyValue pool value with
  | none => simp
  | some value => simp

/-- What the handler of a name is handed. -/
structure Named (h : Handler) (mode : Mode) (value : Option Bytes) (hv : HeaderSet) : Prop where
  same : SameKey h.name hv.key
  hash : hv.hash = hashKeyLc h.name
  value : hv.value = if mode = .remove then none else value.map (escape .headerValue)
  mode : hv.mode = mode
  zero : 0 ∉ hv.key

theorem prepare_hands (hh : h ∈ handlers b ht) (hkey : SameKey h.name key) {g : Handler}
    {hv : HeaderSet} (hp : prepare pool (handlers b ht) key value mode = some (g, hv)) :
    g = h ∧ Named h mode value hv := by
  have hprep := prepare_spec hp
  have hescaped := (sameKey_escape (handlers_plain hh)).mpr hkey
  refine ⟨prepare_named hh hkey hp, hescaped.trans hprep.same, ?_, hprep.value, hprep.mode,
    hprep.zero⟩
  rw [hprep.hash, hashKeyLc_congr hescaped]

theorem Named.hits_iff {hv : HeaderSet} (hn : Named h mode value hv) (e : Elt) :
    hv.hits e = true ↔ e.hash = hashKeyLc h.name ∧ SameKey h.name e.key := by
  simp only [HeaderSet.hits, Bool.and_eq_true, beq_iff_eq, hn.hash, keyIs_iff hn.zero]
  apply and_congr_right
  intro _
  constructor
  · intro hk
    exact hn.same.trans hk
  · intro hk
    exact hn.same.symm.trans hk

theorem named_spec {name : Bytes} {e : Elt} :
    named name e = true ↔ e.hash ≠ 0 ∧ SameKey name e.key := by
  simp only [named, Bool.and_eq_true, bne_iff_ne, decide_eq_true_eq]

/-- The helper finds live elements of its name only. -/
theorem Named.hits_named {hv : HeaderSet} (hn : Named h mode value hv) (hh : h ∈ handlers b ht)
    {e : Elt} (he : hv.hits e = true) : named h.name e = true := by
  obtain ⟨hhash, hsame⟩ := (hn.hits_iff e).mp he
  rw [named_spec, hhash]
  exact ⟨handlers_hash hh, hsame⟩

theorem Named.elt_named {hv : HeaderSet} (hn : Named h mode value hv) (hh : h ∈ handlers b ht) :
    named h.name hv.elt = true := by
  rw [named_spec]
  refine ⟨?_, hn.same⟩
  rw [show hv.elt.hash = hv.hash from rfl, hn.hash]
  exact handlers_hash hh

end

/-! ### Operations of the guest -/

/-- `proxy_add_header_map_value`, `proxy_replace_header_map_value` and
`proxy_remove_header_map_value`. -/
inductive Change where
  | add (value : Bytes)
  | replace (value : Bytes)
  | remove
  deriving DecidableEq

def Change.value : Change → Option Bytes
  | .add value | .replace value => some value
  | .remove => none

def Change.mode : Change → Mode
  | .add _ => .append
  | .replace _ => .set
  | .remove => .remove

/-- The new entry's lower-cased key is not refused its memory. -/
def Whole (pool : Pool) : Prop := pool.push = false ∨ pool.lowcase = true

end NgxWasm.Http.HeaderNames
