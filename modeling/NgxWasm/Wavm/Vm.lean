import Mathlib.Data.Prod.Lex
import Mathlib.Data.List.Lex
import NgxWasm.Http.Headers
import NgxWasm.Lib.Ledger
import NgxWasm.Lib.SearchTree
import NgxWasm.Shm.Kv

/-!
# The wasm VM and its modules

`ngx_wavm.c`: `ngx_wavm_engine_init`, `_init`, `_load`, `_engine_destroy` and `_destroy` (110-330),
`ngx_wavm_module_lookup`, `_add`, `_load_bytes`, `_load`, `_link`, `_destroy` and `_func_lookup`
(333-876). `ngx_wavm_host_hfunc_create` and `ngx_wavm_host_kindvec2typevec` (ngx_wavm_host.c
127-203), `ngx_wasmtime_link_module` (ngx_wrt_wasmtime.c 374-416). The pool gives all memory that
is asked for. The engine and the compiled modules of the runtime are numbered as they are made.
-/

namespace NgxWasm.Wavm

open NgxWasm NgxWasm.Lib NgxWasm.Lib.SearchTree
open NgxWasm.Http.Headers (ascii)
open NgxWasm.Shm.Kv (crc32)

/-! ### Host functions -/

inductive ValKind where
  | i32
  | i64
  | f32
  | f64
  deriving Repr, DecidableEq

/-- `ngx_wavm_host_func_def_t`; `ptr` stands for the C function. -/
structure HostFuncDef where
  name : Bytes
  ptr : ℕ
  args : Option (List ValKind)
  rets : Option (List ValKind)
  deriving Repr, DecidableEq

/-- `ngx_wavm_host_def_t`. -/
structure HostDef where
  name : Bytes
  funcs : List HostFuncDef

/-- `ngx_wavm_hfunc_t`. -/
structure Hfunc where
  defn : HostFuncDef
  functype : List ValKind × List ValKind
  idx : ℕ
  deriving Repr, DecidableEq

def kindvec2typevec (valkinds : Option (List ValKind)) : List ValKind := valkinds.getD []

def hfuncCreate (host : HostDef) (name : Bytes) : Option Hfunc :=
  (host.funcs.find? fun f => f.name = name).map fun f =>
    ⟨f, (kindvec2typevec f.args, kindvec2typevec f.rets), 0⟩

/-! ### Modules -/

inductive ExternKind where
  | func
  | global
  | table
  | memory
  deriving Repr, DecidableEq

structure Import where
  module : Bytes
  name : Bytes
  kind : ExternKind
  deriving Repr, DecidableEq

structure Export where
  name : Bytes
  kind : ExternKind
  deriving Repr, DecidableEq

/-- `ngx_wavm_funcref_t`. -/
structure Funcref where
  name : Bytes
  exportsIdx : ℕ
  deriving Repr, DecidableEq

/-- The key of an `ngx_str_node_t`: the crc32, then the length, then the bytes. -/
def nodeKey (s : Bytes) : ℕ ×ₗ ℕ ×ₗ List ℕ :=
  toLex (crc32 s, toLex (s.length, s.map UInt8.toNat))

def Funcref.key (f : Funcref) : ℕ ×ₗ ℕ ×ₗ List ℕ := nodeKey f.name

/-- `ngx_wavm_module_t`. The flags are those of `ngx_wavm_module_state`. -/
structure Module where
  name : Bytes
  path : Bytes
  config : Option Bytes
  isWat : Bool
  loadedBytes : Bool
  loaded : Bool
  linked : Bool
  invalid : Bool
  idx : ℕ
  bytes : Bytes
  imports : List Import
  exports : List Export
  wrtModule : ℕ
  funcs : SearchTree.Tree Funcref
  fStart : Option Funcref
  hostDef : Option ℕ
  hfuncs : List Hfunc

/-- What the rbtrees of names and of functions do. -/
structure StrOps where
  modules : Ops ℕ Bytes nodeKey
  funcs : Ops Funcref Funcref Funcref.key

/-- The functions of the module `env` in the linker of the engine. -/
abbrev Linker := Bytes → Option Hfunc

/-- `ngx_wavm_t`. -/
structure Vm where
  initialised : Bool
  ready : Bool
  modulesMax : ℕ
  module : ℕ → Module
  next : ℕ
  tree : SearchTree.Tree ℕ
  coreHost : Option ℕ
  wrtEngine : ℕ
  linker : Linker
  objects : ℕ

/-- What the runtime allocates. -/
inductive Res where
  | engine (n : ℕ)
  | module (n : ℕ)
  deriving Repr, DecidableEq

abbrev Acts := List (Ledger.Act Res)

/-- The runtime, which is not part of the repository. -/
structure Runtime where
  wat2wasm : Bytes → Option Bytes
  validate : Bytes → Bool
  moduleInit : Bytes → Option (List Import × List Export)

def blankModule : Module :=
  ⟨[], [], none, false, false, false, false, false, 0, [], [], [], 0, .leaf, none, none, []⟩

def vmCreate (coreHost : Option ℕ) : Vm :=
  ⟨false, false, 0, fun _ => blankModule, 0, .leaf, coreHost, 0, fun _ => none, 0⟩

def setModule (vm : Vm) (a : ℕ) (m : Module) : Vm :=
  { vm with module := Function.update vm.module a m }

@[simp] theorem setModule_self (vm : Vm) (a : ℕ) (m : Module) :
    (setModule vm a m).module a = m := Function.update_self ..

theorem setModule_of_ne (vm : Vm) {a b : ℕ} (m : Module) (h : b ≠ a) :
    (setModule vm a m).module b = vm.module b := Function.update_of_ne h ..

def moduleLookup (vm : Vm) (name : Bytes) : Option ℕ :=
  lookup (fun a => nodeKey (vm.module a).name) (nodeKey name) vm.tree

/-- In front of a path of less than 4 bytes lies the zero byte of the name. -/
def isWat (path : Bytes) : Bool := 4 ≤ path.length ∧ path.drop (path.length - 4) = ascii ".wat"

def newModule (name path : Bytes) (config : Option Bytes) : Module :=
  { blankModule with name, path, config, isWat := isWat path }

def insertModule (rb : StrOps) (vm : Vm) (m : Module) : Vm :=
  let module := Function.update vm.module vm.next m
  { vm with
    module, next := vm.next + 1,
    tree := rb.modules.insert (fun a => (module a).name) vm.tree vm.next }

@[simp] theorem insertModule_self (rb : StrOps) (vm : Vm) (m : Module) :
    (insertModule rb vm m).module vm.next = m := Function.update_self ..

theorem insertModule_of_ne (rb : StrOps) (vm : Vm) {a : ℕ} (m : Module) (h : a ≠ vm.next) :
    (insertModule rb vm m).module a = vm.module a := Function.update_of_ne h ..

def moduleAdd (rb : StrOps) (vm : Vm) (name path : Bytes) (config : Option Bytes) : Vm × Rc :=
  if vm.ready then (vm, .abort)
  else
    match moduleLookup vm name with
    | some _ => (vm, .declined)
    | none => (insertModule rb vm (newModule name path config), .ok)

/-! ### The engine -/

/-- `ok` stands for `conf_init` and `engine_init` of the runtime. -/
def engineInit (vm : Vm) (ok : Bool) : Vm × Rc × Acts :=
  if vm.initialised then (vm, .abort, [])
  else if ok then
    ({ vm with
        initialised := true, wrtEngine := vm.objects, objects := vm.objects + 1,
        linker := fun _ => none }, .ok, [.acquire (.engine vm.objects)])
  else (vm, .error, [])

def engineDestroy (vm : Vm) : Vm × Acts :=
  if vm.initialised then
    ({ vm with initialised := false, ready := false }, [.release (.engine vm.wrtEngine)])
  else (vm, [])

/-! ### Loading -/

/-- `file` is what `ngx_wasm_bytes_from_path` gives. -/
def moduleLoadBytes (rt : Runtime) (file : Option Bytes) (m : Module) : Module × Rc :=
  match file with
  | none => (m, .error)
  | some file =>
    match if m.isWat then rt.wat2wasm file else some file with
    | none => (m, .error)
    | some bytes =>
      if bytes = [] then ({ m with bytes }, .error)
      else if rt.validate bytes then ({ m with bytes, loadedBytes := true }, .ok)
      else ({ m with bytes }, .error)

/-- The function exports with their places. -/
def funcrefs : ℕ → List Export → List Funcref
  | _, [] => []
  | i, e :: es => if e.kind = .func then ⟨e.name, i⟩ :: funcrefs (i + 1) es else funcrefs (i + 1) es

def insertAll (rb : StrOps) : SearchTree.Tree Funcref → List Funcref → SearchTree.Tree Funcref
  | t, [] => t
  | t, f :: fs => insertAll rb (rb.funcs.insert id t f) fs

def isStart (f : Funcref) : Bool := f.name = ascii "_start" ∨ f.name = ascii "_initialize"

/-- `NGX_OK` also for a module that was loaded before. -/
def moduleLoad (rb : StrOps) (rt : Runtime) (vm : Vm) (a : ℕ) : Vm × Rc × Acts :=
  let m := vm.module a
  if m.loaded then (vm, .ok, [])
  else if !m.loadedBytes then (vm, .error, [])
  else
    match rt.moduleInit m.bytes with
    | none => (setModule vm a { m with invalid := true, bytes := [] }, .error, [])
    | some (imports, exports) =>
      let vm := { vm with objects := vm.objects + 1 }
      let acts := [.acquire (.module (vm.objects - 1))]
      let m := { m with imports, exports, wrtModule := vm.objects - 1, bytes := [] }
      if imports.any fun i => i.kind ≠ .func then
        (setModule vm a { m with invalid := true }, .error, acts)
      else
        let refs := funcrefs 0 exports
        let m := { m with funcs := insertAll rb .leaf refs, fStart := m.fStart <|> refs.find? isStart }
        (setModule { vm with modulesMax := vm.modulesMax + 1 } a
          { m with idx := vm.modulesMax, loaded := true }, .ok, acts)

/-- The loop over the tree; the first failure ends it. -/
def eachModule (f : Vm → ℕ → Vm × Rc × Acts) : List ℕ → Vm → Vm × Rc × Acts
  | [], vm => (vm, .ok, [])
  | a :: as, vm =>
    match f vm a with
    | (vm, .ok, acts) =>
      let r := eachModule f as vm
      (r.1, r.2.1, acts ++ r.2.2)
    | r => r

def loadBytesOf (rt : Runtime) (files : Bytes → Option Bytes) (vm : Vm) (a : ℕ) : Vm × Rc × Acts :=
  let r := moduleLoadBytes rt (files (vm.module a).path) (vm.module a)
  (setModule vm a r.1, r.2, [])

/-- `ngx_wavm_init`. -/
def vmInit (rt : Runtime) (vm : Vm) (files : Bytes → Option Bytes) (ok : Bool) : Vm × Rc × Acts :=
  match engineInit vm ok with
  | (vm, .ok, acts) =>
    let r := eachModule (loadBytesOf rt files) vm.tree.toList vm
    let d := engineDestroy r.1
    (d.1, r.2.1, acts ++ r.2.2 ++ d.2)
  | (vm, rc, acts) =>
    let d := engineDestroy vm
    (d.1, rc, acts ++ d.2)

/-- `ngx_wavm_load`. -/
def vmLoad (rb : StrOps) (rt : Runtime) (vm : Vm) (ok : Bool) : Vm × Rc × Acts :=
  match engineInit vm ok with
  | (vm, .ok, acts) =>
    match eachModule (moduleLoad rb rt) vm.tree.toList vm with
    | (vm, .ok, more) => ({ vm with ready := true }, .ok, acts ++ more)
    | (vm, _, more) => (vm, .error, acts ++ more)
  | (vm, _, acts) => (vm, .error, acts)

/-! ### Linking -/

def env : Bytes := ascii "env"

/-- The functions that are pushed, and whether the loop got to its end. -/
def linkImports (create : Bytes → Option Hfunc) : ℕ → List Import → List Hfunc × Bool
  | _, [] => ([], true)
  | i, imp :: imps =>
    if imp.module ≠ env then linkImports create (i + 1) imps
    else
      match create imp.name with
      | none => ([], false)
      | some h =>
        let r := linkImports create (i + 1) imps
        ({ h with idx := i } :: r.1, r.2)

/-- The host's function of a name, else that of the core host. -/
def resolveHfunc (hosts : ℕ → HostDef) (coreHost : Option ℕ) (host : ℕ) (name : Bytes) :
    Option Hfunc :=
  hfuncCreate (hosts host) name <|> coreHost.bind fun core => hfuncCreate (hosts core) name

/-- `ngx_wasmtime_link_module`; `define` is what the runtime says to each definition. A name
defined before is shadowed. -/
def wrtModuleLink (imports : List Import) (define : ℕ → Bool) :
    ℕ → List Hfunc → Linker → Linker × Bool
  | _, [], l => (l, true)
  | j, h :: hs, l =>
    match imports[h.idx]? with
    | none => (l, false)
    | some imp =>
      if imp.module ≠ env then wrtModuleLink imports define (j + 1) hs l
      else if define j then
        wrtModuleLink imports define (j + 1) hs (Function.update l imp.name (some h))
      else (l, false)

def moduleLink (hosts : ℕ → HostDef) (vm : Vm) (a host : ℕ) (define : ℕ → Bool) : Vm × Rc :=
  let m := vm.module a
  if m.invalid then (vm, .error)
  else if !m.loaded then (vm, .error)
  else if m.linked then (vm, if m.hostDef ≠ some host then .error else .ok)
  else
    let r := linkImports (resolveHfunc hosts vm.coreHost host) 0 m.imports
    -- what was pushed stays in the array when the link fails
    let m := { m with hostDef := some host, hfuncs := m.hfuncs ++ r.1 }
    if r.2 then
      match wrtModuleLink m.imports define 0 m.hfuncs vm.linker with
      | (linker, true) => (setModule { vm with linker } a { m with linked := true }, .ok)
      | (linker, false) => (setModule { vm with linker } a m, .error)
    else (setModule vm a m, .error)

def moduleFuncLookup (m : Module) (name : Bytes) : Option Funcref :=
  if m.loaded then lookup Funcref.key (nodeKey name) m.funcs else none

/-! ### The end of the VM -/

/-- The imports and exports of a module go with it. -/
def moduleDestroy (m : Module) : Acts :=
  if m.loaded then [.release (.module m.wrtModule)] else []

/-- No instance is in the VM's queue. -/
def vmDestroy (vm : Vm) : Acts :=
  (vm.tree.toList.flatMap fun a => moduleDestroy (vm.module a)) ++ (engineDestroy vm).2

/-! ### Runs -/

inductive VmOp where
  /-- A `module` directive. -/
  | add (name path : Bytes) (config : Option Bytes)
  | init (files : Bytes → Option Bytes) (ok : Bool)
  | load (ok : Bool)
  /-- A plan is loaded whose op has the module of this name. -/
  | link (name : Bytes) (host : ℕ) (define : ℕ → Bool)

def vmStep (rb : StrOps) (rt : Runtime) (hosts : ℕ → HostDef) (vm : Vm) : VmOp → Vm × (Rc × Acts)
  | .add name path config =>
    let r := moduleAdd rb vm name path config
    (r.1, r.2, [])
  | .init files ok => vmInit rt vm files ok
  | .load ok => vmLoad rb rt vm ok
  | .link name host define =>
    match moduleLookup vm name with
    | none => (vm, .error, [])
    | some a =>
      let r := moduleLink hosts vm a host define
      (r.1, r.2, [])

end NgxWasm.Wavm
