import NgxWasm.Basic
import NgxWasm.Lib.LongestMatch

/-!
# Access control lists (ngx_wasm_acl.c)

`ngx_wasm_acl_ctx_insert_cidr` (185-216), `ngx_wasm_acl_tree_lookup` (219-241),
`ngx_wasm_acl_check_addr` (244-267), `ngx_wasm_acl_check_host` (270-336) and
`ngx_wasm_acl_add_addr` (339-392). The radix trees, `ngx_cidr_match`, the parsers of
addresses and the hash of host names are nginx's and stand as parameters. An IPv6
address is the number of its sixteen bytes.
-/

namespace NgxWasm.Access.Check

open NgxWasm NgxWasm.Lib.LongestMatch

/-- `ngx_wasm_acl_type_e`. -/
inductive Tag where
  | allow
  | deny
  deriving Repr, DecidableEq

/-! ### Addresses -/

/-- `s_addr`: four bytes in network order. -/
structure InAddr where
  b0 : BitVec 8
  b1 : BitVec 8
  b2 : BitVec 8
  b3 : BitVec 8
  deriving DecidableEq

def ntohl (x : InAddr) : BitVec 32 := (x.b0 ++ x.b1) ++ (x.b2 ++ x.b3)

def htonl (n : BitVec 32) : InAddr :=
  ⟨n.extractLsb' 24 8, n.extractLsb' 16 8, n.extractLsb' 8 8, n.extractLsb' 0 8⟩

inductive Sockaddr where
  | inet (addr : InAddr)
  | inet6 (addr : BitVec 128)
  | unix
  deriving DecidableEq

/-- `ngx_cidr_t`. -/
inductive Cidr where
  | inet (addr mask : InAddr)
  | inet6 (addr mask : BitVec 128)
  deriving DecidableEq

/-! ### Rules -/

section
variable (T4 : Table 32 Tag) (T6 : Table 128 Tag)

/-- `ngx_wasm_acl_ctx_t`. -/
structure Ctx where
  addrsV4 : T4.Tree
  addrsV6 : T6.Tree

/-- `ngx_wasm_acl_t`. -/
structure Acl where
  ctx : Ctx T4 T6
  recordedAddrs : List Cidr

end

section
variable {T4 : Table 32 Tag} {T6 : Table 128 Tag}

def ctxInsertCidr (ctx : Ctx T4 T6) : Cidr → Tag → Option (Ctx T4 T6)
  | .inet6 addr mask, type =>
    (T6.insert ctx.addrsV6 ⟨addr, mask⟩ type).map fun t => { ctx with addrsV6 := t }
  | .inet addr mask, type =>
    (T4.insert ctx.addrsV4 ⟨ntohl addr, ntohl mask⟩ type).map fun t => { ctx with addrsV4 := t }

/-- The `allow` and `deny` directives of a block; a duplicate ends the configuration. -/
def insertRules : Ctx T4 T6 → List (Cidr × Tag) → Option (Ctx T4 T6)
  | ctx, [] => some ctx
  | ctx, (cidr, type) :: rules =>
    match ctxInsertCidr ctx cidr type with
    | some ctx => insertRules ctx rules
    | none => none

def newCtx : Ctx T4 T6 := ⟨T4.empty, T6.empty⟩

def aclInit (ctx : Ctx T4 T6) : Acl T4 T6 := ⟨ctx, []⟩

/-! ### Checks -/

def treeLookup (ctx : Ctx T4 T6) : Sockaddr → Option Tag
  | .inet6 p6 => T6.find ctx.addrsV6 p6
  | .inet addr => T4.find ctx.addrsV4 (ntohl addr)
  | .unix => none

def checkAddr (cidrMatch : Sockaddr → List Cidr → Bool) (acl : Acl T4 T6) (addr : Sockaddr) : Rc :=
  match treeLookup acl.ctx addr with
  | some .allow => .ok
  | some .deny => .declined
  | none => if cidrMatch addr acl.recordedAddrs then .ok else .declined

def sockaddrToCidr : Sockaddr → Option Cidr
  | .inet addr => some (.inet addr ⟨0xff, 0xff, 0xff, 0xff⟩)
  | .inet6 addr => some (.inet6 addr (BitVec.allOnes 128))
  | .unix => none

/-- `push` says that the array gets its memory. -/
def addAddr (acl : Acl T4 T6) (addr : Sockaddr) (push : Bool) : Acl T4 T6 × Rc :=
  if treeLookup acl.ctx addr = some .deny then (acl, .declined)
  else
    match sockaddrToCidr addr with
    | none => (acl, .error)
    | some cidr =>
      if push then ({ acl with recordedAddrs := acl.recordedAddrs ++ [cidr] }, .ok)
      else (acl, .error)

/-- `ngx_inet_addr`, `ngx_inet6_addr` and `ngx_hash_find_combined` on the hosts. -/
structure Names where
  inet : Bytes → Option InAddr
  inet6 : Bytes → Option (BitVec 128)
  host : Bytes → Option Tag

/-- The name in front of the port; `none` without the closing bracket. -/
def hostName : Bytes → Option Bytes
  | 91 :: host => if 93 ∈ host then some (host.takeWhile (· ≠ 93)) else none
  | host => some (host.takeWhile (· ≠ 58))

def checkHost (cidrMatch : Sockaddr → List Cidr → Bool) (names : Names) (acl : Acl T4 T6)
    (host : Bytes) : Rc :=
  if host = [] then .error
  else
    match hostName host with
    | none => .declined
    | some name =>
      match names.inet name with
      | some v4 => checkAddr cidrMatch acl (.inet v4)
      | none =>
        match names.inet6 name with
        | some v6 => checkAddr cidrMatch acl (.inet6 v6)
        | none =>
          if name.length = 0 ∨ 256 < name.length then .declined
          else if names.host name = some .allow then .ok else .declined

/-! ### Sequences of calls -/

inductive Call where
  | add (addr : Sockaddr) (push : Bool)
  | check (addr : Sockaddr)

def step (cidrMatch : Sockaddr → List Cidr → Bool) (acl : Acl T4 T6) : Call → Acl T4 T6 × Rc
  | .add addr push => addAddr acl addr push
  | .check addr => (acl, checkAddr cidrMatch acl addr)

end

end NgxWasm.Access.Check
