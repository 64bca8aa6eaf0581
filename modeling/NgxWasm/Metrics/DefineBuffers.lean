import NgxWasm.Metrics.Store
import NgxWasm.Http.Headers
import NgxWasm.Wavm.LiftBounds

/-!
# The buffers of proxy_define_metric (ngx_proxy_wasm_host.c 1627-1707)

`ngx_proxy_wasm_hfuncs_define_metric` prints the guest's name into two arrays on its stack: `buf`
of `max_metric_name_length` bytes and `trapmsg` of `NGX_MAX_ERROR_STR`. `ngx_sprintf` has no
bound.
-/

namespace NgxWasm.Metrics.DefineBuffers

open NgxWasm NgxWasm.Wavm
open NgxWasm.Http.Headers (ascii)

/-- `NGX_MAX_ERROR_STR`. -/
def maxErrorStr : ℕ := 2048

/-- `ngx_str_t`; nothing is read through NULL, its length being 0. -/
structure Str where
  len : BitVec 64
  data : Option HostPtr

/-- The bytes a `%V` or a `%*s` puts out. -/
def Str.bytes (mem : Memory) (s : Str) : Bytes :=
  (List.range s.len.toNat).map fun k =>
    match s.data with
    | none => 0
    | some q => mem.heap q.area (q.off + k)

/-- `%ui`; the enumeration is passed as it is. -/
def sprintfUi (n : BitVec 32) : Bytes := (Nat.toDigits 10 n.toNat).map fun c => UInt8.ofNat c.toNat

inductive Answer where
  /-- `NGX_WAVM_BAD_USAGE` of a lift. -/
  | badUsage
  | trapped (text : Bytes)
  | ok
  deriving Repr, DecidableEq

/-- What is printed into the two arrays, each from its start. -/
structure Run where
  buf : Bytes
  trapmsg : Bytes
  answer : Answer
  deriving Repr, DecidableEq

def metricType (pwType : BitVec 32) : Option MetricType :=
  if pwType = 0 then some .counter
  else if pwType = 1 then some .gauge
  else if pwType = 2 then some .histogram
  else none

def unknownType (name : Bytes) (pwType : BitVec 32) : Bytes :=
  ascii "could not define metric \"" ++ name ++ ascii "\": unknown type \"" ++
    sprintfUi pwType ++ ascii "\""

def nameTooLong (name : Bytes) : Bytes :=
  ascii "could not define metric: name \"" ++ name ++ ascii "\" too long"

def noMemory (name : Bytes) : Bytes :=
  ascii "could not define metric \"" ++ name ++
    ascii "\": no memory (increase \"slab_size\" directive)"

def prefixedName (filterName name : Bytes) : Bytes :=
  ascii "pw:" ++ filterName ++ ascii ":" ++ name

/-- The arguments of a call, the name of the filter and `max_metric_name_length`. -/
structure Call where
  mem : Memory
  pwType : BitVec 32
  namePtr : BitVec 32
  nameLen : BitVec 32
  idPtr : BitVec 32
  filterName : Bytes
  maxLen : BitVec 64

/-- `4 + filter_name->len + name.len`. -/
def prefixedLen (c : Call) (name : Str) : BitVec 64 :=
  4 + BitVec.ofNat 64 c.filterName.length + name.len

/-- `define` is `ngx_wa_metrics_define`. -/
def defineNamed (define : Bytes → MetricType → Rc) (c : Call) (name : Str) : Run :=
  let bytes := name.bytes c.mem
  match metricType c.pwType with
  | none =>
    let msg := unknownType bytes c.pwType
    ⟨[], msg, .trapped msg⟩
  | some type =>
    if c.maxLen < prefixedLen c name then
      let msg := nameTooLong bytes
      ⟨[], msg, .trapped msg⟩
    else
      let buf := prefixedName c.filterName bytes
      match define buf type with
      | .error =>
        let msg := noMemory bytes
        ⟨buf, msg, .trapped msg⟩
      | .ok => ⟨buf, [], .ok⟩
      | _ => ⟨buf, [], .trapped (ascii "unknown error")⟩

/-- `name.len` is a `size_t` that takes an `int32_t`. -/
def hfuncsDefineMetric (define : Bytes → MetricType → Rc) (c : Call) : Run :=
  match hostLiftSlice c.mem c.namePtr (.arg c.nameLen) with
  | none => ⟨[], [], .badUsage⟩
  | some name =>
    match hostLiftSlice c.mem c.idPtr (.host 4) with
    | none => ⟨[], [], .badUsage⟩
    | some _ => defineNamed define c ⟨name.len, name.data⟩

/-! ### What the arrays hold -/

/-- No array is written past its end. -/
def Bounded (c : Call) (r : Run) : Prop :=
  r.buf.length ≤ c.maxLen.toNat ∧ r.trapmsg.length ≤ maxErrorStr

/-- The length of the name as the host reads it. -/
def nameLength (c : Call) : ℕ := (Length.arg c.nameLen).used.toNat

/-- The name fits into the message that is printed, and the sum that is compared with the limit is
the length of the prefixed name. -/
def NameFits (define : Bytes → MetricType → Rc) (c : Call) (name : Bytes) : Prop :=
  match metricType c.pwType with
  | none => 43 + (sprintfUi c.pwType).length + nameLength c ≤ maxErrorStr
  | some type =>
    if c.maxLen.toNat < (4 + c.filterName.length + nameLength c) % 2 ^ 64 then
      41 + nameLength c ≤ maxErrorStr
    else
      4 + c.filterName.length + nameLength c < 2 ^ 64 ∧
        (define (prefixedName c.filterName name) type = .error →
          70 + nameLength c ≤ maxErrorStr)

theorem bytes_length (mem : Memory) (s : Str) : (s.bytes mem).length = s.len.toNat := by
  rw [Str.bytes, List.length_map, List.length_range]

theorem unknownType_length (name : Bytes) (pwType : BitVec 32) :
    (unknownType name pwType).length = 43 + (sprintfUi pwType).length + name.length := by
  have hhead : (ascii "could not define metric \"").length = 25 := by decide
  have hmid : (ascii "\": unknown type \"").length = 17 := by decide
  have hend : (ascii "\"").length = 1 := by decide
  simp only [unknownType, List.length_append, hhead, hmid, hend]
  omega

theorem nameTooLong_length (name : Bytes) : (nameTooLong name).length = 41 + name.length := by
  have hhead : (ascii "could not define metric: name \"").length = 31 := by decide
  have hend : (ascii "\" too long").length = 10 := by decide
  simp only [nameTooLong, List.length_append, hhead, hend]
  omega

theorem noMemory_length (name : Bytes) : (noMemory name).length = 70 + name.length := by
  have hhead : (ascii "could not define metric \"").length = 25 := by decide
  have hend : (ascii "\": no memory (increase \"slab_size\" directive)").length = 45 := by
    decide
  simp only [noMemory, List.length_append, hhead, hend]
  omega

theorem prefixedName_length (filterName name : Bytes) :
    (prefixedName filterName name).length = 4 + filterName.length + name.length := by
  have hhead : (ascii "pw:").length = 3 := by decide
  have hmid : (ascii ":").length = 1 := by decide
  simp only [prefixedName, List.length_append, hhead, hmid]
  omega

theorem prefixedLen_toNat (c : Call) (name : Str) :
    (prefixedLen c name).toNat = (4 + c.filterName.length + name.len.toNat) % 2 ^ 64 := by
  have hfour : (4 : BitVec 64).toNat = 4 := rfl
  simp only [prefixedLen, BitVec.toNat_add, BitVec.toNat_ofNat, hfour]
  omega

theorem defineNamed_bounded_iff (define : Bytes → MetricType → Rc) (c : Call) (name : Str)
    (hlen : name.len.toNat = nameLength c) :
    Bounded c (defineNamed define c name) ↔ NameFits define c (name.bytes c.mem) := by
  have hbytes := bytes_length c.mem name
  rw [hlen] at hbytes
  have hlimit := c.maxLen.isLt
  simp only [defineNamed, NameFits]
  cases metricType c.pwType with
  | none =>
    simp only [Bounded, unknownType_length, hbytes, List.length_nil, Nat.zero_le, true_and]
  | some type =>
    simp only [BitVec.lt_def, prefixedLen_toNat, hlen]
    by_cases hlong : c.maxLen.toNat < (4 + c.filterName.length + nameLength c) % 2 ^ 64
    · simp only [if_pos hlong, Bounded, nameTooLong_length, hbytes, List.length_nil, Nat.zero_le,
        true_and]
    · simp only [if_neg hlong]
      -- the sum that passed is the length that is printed unless it wrapped around
      have hbuf : 4 + c.filterName.length + nameLength c ≤ c.maxLen.toNat ↔
          4 + c.filterName.length + nameLength c < 2 ^ 64 := by
        omega
      cases define (prefixedName c.filterName (name.bytes c.mem)) type with
      | error =>
        simp only [Bounded, prefixedName_length, noMemory_length, hbytes, hbuf, forall_const]
      | ok | again | busy | done | declined | abort | http status =>
        simp only [Bounded, prefixedName_length, hbytes, hbuf, List.length_nil, Nat.zero_le,
          and_true, reduceCtorEq, false_implies]

/-- The name that a call with good pointers reads. -/
def givenName (c : Call) : Option Bytes :=
  match hostLiftSlice c.mem c.namePtr (.arg c.nameLen), hostLiftSlice c.mem c.idPtr (.host 4) with
  | some name, some _ => some (Str.bytes c.mem ⟨name.len, name.data⟩)
  | _, _ => none

/-- Both arrays hold what is printed into them exactly where the name is short enough for the
message of its path, and the length check did not add up more than 64 bits. -/
theorem define_metric_bounded_iff (define : Bytes → MetricType → Rc) (c : Call) :
    Bounded c (hfuncsDefineMetric define c) ↔
      ∀ name, givenName c = some name → NameFits define c name := by
  unfold hfuncsDefineMetric givenName
  cases hname : hostLiftSlice c.mem c.namePtr (.arg c.nameLen) with
  | none =>
    refine iff_of_true ⟨Nat.zero_le _, Nat.zero_le _⟩ ?_
    intro name h
    exact absurd h (by simp)
  | some name =>
    cases hostLiftSlice c.mem c.idPtr (.host 4) with
    | none =>
      refine iff_of_true ⟨Nat.zero_le _, Nat.zero_le _⟩ ?_
      intro name h
      exact absurd h (by simp)
    | some id =>
      have hlen : (⟨name.len, name.data⟩ : Str).len.toNat = nameLength c := by
        rw [nameLength, ← lifted_slice_len hname]
      simp only [Option.some.injEq, forall_eq']
      exact defineNamed_bounded_iff define c ⟨name.len, name.data⟩ hlen

/-- A name of 2008 bytes that is too long for the limit: its message has 2049 bytes. -/
theorem long_name_leaves_trapmsg :
    ¬ ∀ (define : Bytes → MetricType → Rc) (c : Call), Bounded c (hfuncsDefineMetric define c) := by
  intro h
  let c : Call := ⟨⟨0, 65536, by decide, fun _ _ => 97⟩, 0, 1024, 2008, 8, [102], 128⟩
  have hbounded := (h (fun _ _ => .ok) c).2
  have hlifted : hostLiftSlice c.mem c.namePtr (.arg c.nameLen) = some ⟨some ⟨0, 1024⟩, 2008⟩ := by
    decide
  have hid : hostLiftSlice c.mem c.idPtr (.host 4) = some ⟨some ⟨0, 8⟩, 4⟩ := by decide
  have htype : metricType c.pwType = some .counter := by decide
  have hlong : c.maxLen < prefixedLen c ⟨2008, some ⟨0, 1024⟩⟩ := by decide
  simp only [hfuncsDefineMetric, hlifted, hid, defineNamed, htype, if_pos hlong,
    nameTooLong_length, bytes_length] at hbounded
  exact absurd hbounded (by decide)

end NgxWasm.Metrics.DefineBuffers
