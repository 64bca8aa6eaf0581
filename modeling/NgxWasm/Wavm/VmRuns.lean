import Mathlib.Data.List.Range
import NgxWasm.Lib.Run
import NgxWasm.Wavm.Vm

/-!
# Modules over whole runs of a VM

A module is found under its own name only, the loaded modules are numbered from 0 without gaps,
and nothing that a filter keeps of a loaded module changes any more: its place in the tree, its
number, its imports and exports, its functions, and its host once it is linked.
-/

namespace NgxWasm.Wavm

open NgxWasm NgxWasm.Lib NgxWasm.Lib.SearchTree

/-! ### Names -/

theorem nodeKey_injective : Function.Injective nodeKey := by
  intro s t h
  have hrest := (Prod.ext_iff.mp (toLex.injective h)).2
  have hbytes := (Prod.ext_iff.mp (toLex.injective hrest)).2
  exact List.map_injective_iff.mpr (fun _ _ => UInt8.toNat.inj) hbytes

/-- What a loaded or a linked module keeps. -/
structure Kept (m m' : Module) : Prop where
  name : m'.name = m.name
  path : m'.path = m.path
  config : m'.config = m.config
  loaded : m.loaded = true → m'.loaded = true ∧ m'.idx = m.idx ∧ m'.imports = m.imports ∧
    m'.exports = m.exports ∧ m'.funcs = m.funcs ∧ m'.fStart = m.fStart ∧
    m'.wrtModule = m.wrtModule
  linked : m.linked = true → m'.linked = true ∧ m'.hostDef = m.hostDef ∧ m'.hfuncs = m.hfuncs

theorem Kept.refl (m : Module) : Kept m m :=
  ⟨rfl, rfl, rfl, fun h => ⟨h, rfl, rfl, rfl, rfl, rfl, rfl⟩, fun h => ⟨h, rfl, rfl⟩⟩

theorem Kept.trans {m m' m'' : Module} (h : Kept m m') (h' : Kept m' m'') : Kept m m'' where
  name := h'.name.trans h.name
  path := h'.path.trans h.path
  config := h'.config.trans h.config
  loaded hl := by
    obtain ⟨hl', hi, him, hex, hf, hs, hw⟩ := h.loaded hl
    obtain ⟨hl'', hi', him', hex', hf', hs', hw'⟩ := h'.loaded hl'
    exact ⟨hl'', hi'.trans hi, him'.trans him, hex'.trans hex, hf'.trans hf, hs'.trans hs,
      hw'.trans hw⟩
  linked hl := by
    obtain ⟨hl', hd, hh⟩ := h.linked hl
    obtain ⟨hl'', hd', hh'⟩ := h'.linked hl'
    exact ⟨hl'', hd'.trans hd, hh'.trans hh⟩

/-! ### The registry -/

structure Registry (vm : Vm) : Prop where
  used : ∀ a ∈ vm.tree.toList, a < vm.next
  ordered : Ordered (fun a => nodeKey (vm.module a).name) vm.tree
  names : (vm.tree.toList.map fun a => (vm.module a).name).Nodup
  numbered : ((vm.tree.toList.filter fun a => (vm.module a).loaded).map
    fun a => (vm.module a).idx).Perm (List.range vm.modulesMax)
  linked : ∀ a ∈ vm.tree.toList, (vm.module a).linked = true →
    (vm.module a).loaded = true ∧ (vm.module a).invalid = false
  frozen : vm.ready = true → ∀ a ∈ vm.tree.toList, (vm.module a).loaded = true

theorem Registry.nodup {vm : Vm} (h : Registry vm) : vm.tree.toList.Nodup := h.names.of_map _

theorem Registry.keys {vm : Vm} (h : Registry vm) :
    (vm.tree.toList.map fun a => nodeKey (vm.module a).name).Nodup := by
  have hmap : (vm.tree.toList.map fun a => nodeKey (vm.module a).name) =
      (vm.tree.toList.map fun a => (vm.module a).name).map nodeKey := by
    rw [List.map_map]
    rfl
  rw [hmap]
  exact h.names.map nodeKey_injective

theorem moduleLookup_iff {vm : Vm} (h : Registry vm) (name : Bytes) (a : ℕ) :
    moduleLookup vm name = some a ↔ a ∈ vm.tree.toList ∧ (vm.module a).name = name := by
  constructor
  · intro hl
    obtain ⟨hm, hk⟩ := lookup_some _ _ _ a hl
    exact ⟨hm, nodeKey_injective hk⟩
  · intro hm
    rw [moduleLookup, ← hm.2]
    exact lookup_eq_some (fun a => nodeKey (vm.module a).name) _ a h.ordered h.keys hm.1

theorem moduleLookup_none {vm : Vm} (h : Registry vm) {name : Bytes}
    (hl : moduleLookup vm name = none) : ∀ a ∈ vm.tree.toList, (vm.module a).name ≠ name := by
  intro a ha heq
  rw [(moduleLookup_iff h name a).mpr ⟨ha, heq⟩] at hl
  exact absurd hl (by simp)

theorem vmCreate_registry (coreHost : Option ℕ) : Registry (vmCreate coreHost) where
  used := by simp [vmCreate, SearchTree.Tree.toList]
  ordered := List.Pairwise.nil
  names := List.nodup_nil
  numbered := List.Perm.refl _
  linked := by simp [vmCreate, SearchTree.Tree.toList]
  frozen := by simp [vmCreate]

/-! ### One module changes -/

/-- The fields of a VM that no module update touches. -/
structure SameShape (vm vm' : Vm) : Prop where
  next : vm'.next = vm.next
  tree : vm'.tree = vm.tree
  ready : vm'.ready = vm.ready
  modulesMax : vm'.modulesMax = vm.modulesMax

/-- Names, numbers and flags stay, except that a module may become linked. -/
theorem registry_same {vm vm' : Vm} (h : Registry vm) (hs : SameShape vm vm')
    (hname : ∀ a, (vm'.module a).name = (vm.module a).name)
    (hload : ∀ a, (vm'.module a).loaded = (vm.module a).loaded)
    (hidx : ∀ a, (vm'.module a).idx = (vm.module a).idx)
    (hlink : ∀ a ∈ vm.tree.toList, (vm'.module a).linked = true →
      (vm'.module a).loaded = true ∧ (vm'.module a).invalid = false) : Registry vm' where
  used := by
    rw [hs.tree, hs.next]
    exact h.used
  ordered := by
    rw [hs.tree]
    exact ordered_congr (fun a _ => by rw [hname a]) h.ordered
  names := by
    rw [hs.tree]
    simpa only [hname] using h.names
  numbered := by
    rw [hs.tree, hs.modulesMax]
    simpa only [hload, hidx] using h.numbered
  linked := by
    rw [hs.tree]
    exact hlink
  frozen := by
    rw [hs.tree, hs.ready]
    simpa only [hload] using h.frozen

theorem filter_update_perm {α : Type*} [DecidableEq α] {l : List α} {p : α → Bool} {a : α}
    (p' : α → Bool) (hl : l.Nodup) (ha : a ∈ l) (hp : p a = false) (hp' : p' a = true)
    (hother : ∀ b, b ≠ a → p' b = p b) : (l.filter p').Perm (a :: l.filter p) := by
  have hcons : (a :: l.filter p).Nodup := by
    rw [List.nodup_cons]
    exact ⟨fun h => by simp [hp] at h, hl.filter p⟩
  rw [List.perm_ext_iff_of_nodup (hl.filter p') hcons]
  intro b
  rw [List.mem_filter, List.mem_cons, List.mem_filter]
  by_cases hb : b = a
  · subst hb
    simp [ha, hp']
  · simp [hb, hother b hb]

/-- One more module is loaded under the next number. -/
theorem registry_loaded {vm vm' : Vm} (h : Registry vm) {a : ℕ} (ha : a ∈ vm.tree.toList)
    (hold : (vm.module a).loaded = false) (hnext : vm'.next = vm.next) (htree : vm'.tree = vm.tree)
    (hready : vm'.ready = vm.ready) (hmax : vm'.modulesMax = vm.modulesMax + 1)
    (hother : ∀ b, b ≠ a → vm'.module b = vm.module b)
    (hname : (vm'.module a).name = (vm.module a).name)
    (hidx : (vm'.module a).idx = vm.modulesMax) (hload : (vm'.module a).loaded = true)
    (hlink : (vm'.module a).linked = (vm.module a).linked) : Registry vm' := by
  have hnames : ∀ b, (vm'.module b).name = (vm.module b).name := by
    intro b
    by_cases hb : b = a
    · rw [hb, hname]
    · rw [hother b hb]
  have hloads : ∀ b, (vm.module b).loaded = true → (vm'.module b).loaded = true := by
    intro b hb
    by_cases hba : b = a
    · rw [hba, hload]
    · rw [hother b hba, hb]
  have hidxs : ∀ b ∈ vm.tree.toList.filter fun b => (vm.module b).loaded,
      (vm'.module b).idx = (vm.module b).idx := by
    intro b hb
    have hba : b ≠ a := by
      rintro rfl
      simp [hold] at hb
    rw [hother b hba]
  have hunlinked : (vm.module a).linked = false := by
    cases hl : (vm.module a).linked with
    | false => rfl
    | true => exact absurd (h.linked a ha hl).1 (by simp [hold])
  constructor
  · rw [htree, hnext]
    exact h.used
  · rw [htree]
    exact ordered_congr (fun b _ => by rw [hnames b]) h.ordered
  · rw [htree]
    simpa only [hnames] using h.names
  · rw [htree, hmax, List.range_succ]
    have hperm := filter_update_perm (fun b => (vm'.module b).loaded) h.nodup ha hold hload
      fun b hb => by rw [hother b hb]
    have hrest : ((a :: vm.tree.toList.filter fun b => (vm.module b).loaded).map
        fun b => (vm'.module b).idx).Perm (vm.modulesMax :: List.range vm.modulesMax) := by
      rw [List.map_cons, hidx, List.map_congr_left hidxs]
      exact h.numbered.cons _
    exact ((hperm.map _).trans hrest).trans (List.perm_append_singleton _ _).symm
  · rw [htree]
    intro b hb hl
    by_cases hba : b = a
    · rw [hba, hlink, hunlinked] at hl
      exact absurd hl (by simp)
    · rw [hother b hba] at hl ⊢
      exact h.linked b hb hl
  · rw [htree, hready]
    intro hr b hb
    exact hloads b (h.frozen hr b hb)

/-! ### What loading and linking a module can do -/

/-- The module after its imports and exports were read. -/
def readModule (vm : Vm) (a : ℕ) (imports : List Import) (exports : List Export) : Module :=
  { vm.module a with imports, exports, wrtModule := vm.objects, bytes := [] }

inductive Loading (rb : StrOps) (rt : Runtime) (vm : Vm) (a : ℕ) : Vm × Rc × Acts → Prop
  | already (h : (vm.module a).loaded = true) : Loading rb rt vm a (vm, .ok, [])
  | noBytes (h : (vm.module a).loaded = false) (hbytes : (vm.module a).loadedBytes = false) :
    Loading rb rt vm a (vm, .error, [])
  | failed (h : (vm.module a).loaded = false)
      (hinit : rt.moduleInit (vm.module a).bytes = none) :
    Loading rb rt vm a
      (setModule vm a { vm.module a with invalid := true, bytes := [] }, .error, [])
  | refused (h : (vm.module a).loaded = false) (imports : List Import) (exports : List Export)
      (hinit : rt.moduleInit (vm.module a).bytes = some (imports, exports))
      (hkind : ∃ i ∈ imports, i.kind ≠ .func) (hbytes : (vm.module a).loadedBytes = true) :
    Loading rb rt vm a
      (setModule { vm with objects := vm.objects + 1 } a
        { readModule vm a imports exports with invalid := true }, .error,
        [.acquire (.module vm.objects)])
  | done (h : (vm.module a).loaded = false) (imports : List Import) (exports : List Export)
      (hinit : rt.moduleInit (vm.module a).bytes = some (imports, exports))
      (hkind : ∀ i ∈ imports, i.kind = .func) :
    Loading rb rt vm a
      (setModule { vm with objects := vm.objects + 1, modulesMax := vm.modulesMax + 1 } a
        { readModule vm a imports exports with
          funcs := insertAll rb .leaf (funcrefs 0 exports),
          fStart := (vm.module a).fStart <|> (funcrefs 0 exports).find? isStart,
          idx := vm.modulesMax, loaded := true }, .ok, [.acquire (.module vm.objects)])

theorem moduleLoad_spec (rb : StrOps) (rt : Runtime) (vm : Vm) (a : ℕ) :
    Loading rb rt vm a (moduleLoad rb rt vm a) := by
  simp only [moduleLoad]
  split
  · rename_i hl
    exact .already hl
  rename_i hl
  have hfalse : (vm.module a).loaded = false := by simpa using hl
  split
  · rename_i hbytes
    exact .noBytes hfalse (by simpa using hbytes)
  rename_i hbytes
  split
  · rename_i hinit
    exact .failed hfalse hinit
  · rename_i imports exports hinit
    split
    · rename_i hany
      obtain ⟨i, hi, hk⟩ := List.any_eq_true.mp hany
      exact .refused hfalse imports exports hinit ⟨i, hi, by simpa using hk⟩
        (by simpa using hbytes)
    · rename_i hany
      refine .done hfalse imports exports hinit ?_
      intro i hi
      by_contra hk
      exact hany (List.any_eq_true.mpr ⟨i, hi, by simpa using hk⟩)

/-- The module after the host's functions were looked up. -/
def hostedModule (hosts : ℕ → HostDef) (vm : Vm) (a host : ℕ) : Module :=
  { vm.module a with
    hostDef := some host,
    hfuncs := (vm.module a).hfuncs ++
      (linkImports (resolveHfunc hosts vm.coreHost host) 0 (vm.module a).imports).1 }

inductive Linking (hosts : ℕ → HostDef) (define : ℕ → Bool) (vm : Vm) (a host : ℕ) :
    Vm × Rc → Prop
  | unchanged (rc : Rc) : Linking hosts define vm a host (vm, rc)
  | missing (hload : (vm.module a).loaded = true) (hlink : (vm.module a).linked = false) :
    Linking hosts define vm a host (setModule vm a (hostedModule hosts vm a host), .error)
  | undefined (hload : (vm.module a).loaded = true) (hlink : (vm.module a).linked = false)
      (linker : Linker)
      (hdef : wrtModuleLink (vm.module a).imports define 0 (hostedModule hosts vm a host).hfuncs
        vm.linker = (linker, false)) :
    Linking hosts define vm a host
      (setModule { vm with linker } a (hostedModule hosts vm a host), .error)
  | done (hvalid : (vm.module a).invalid = false) (hload : (vm.module a).loaded = true)
      (hlink : (vm.module a).linked = false)
      (hall : (linkImports (resolveHfunc hosts vm.coreHost host) 0 (vm.module a).imports).2 = true)
      (linker : Linker)
      (hdef : wrtModuleLink (vm.module a).imports define 0 (hostedModule hosts vm a host).hfuncs
        vm.linker = (linker, true)) :
    Linking hosts define vm a host
      (setModule { vm with linker } a { hostedModule hosts vm a host with linked := true }, .ok)

theorem moduleLink_spec (hosts : ℕ → HostDef) (define : ℕ → Bool) (vm : Vm) (a host : ℕ) :
    Linking hosts define vm a host (moduleLink hosts vm a host define) := by
  simp only [moduleLink]
  split
  · exact .unchanged _
  rename_i hv
  split
  · exact .unchanged _
  rename_i hl
  split
  · exact .unchanged _
  rename_i hk
  have hvalid : (vm.module a).invalid = false := by simpa using hv
  have hload : (vm.module a).loaded = true := by simpa using hl
  have hlink : (vm.module a).linked = false := by simpa using hk
  split
  · rename_i hall
    split
    · rename_i linker hdef
      exact .done hvalid hload hlink hall linker hdef
    · rename_i linker hdef
      exact .undefined hload hlink linker hdef
  · exact .missing hload hlink

/-! ### The operations -/

/-- What a step leaves of the modules there are. -/
structure Later (vm vm' : Vm) : Prop where
  tree : ∀ a ∈ vm.tree.toList, a ∈ vm'.tree.toList
  kept : ∀ a ∈ vm.tree.toList, Kept (vm.module a) (vm'.module a)

theorem Later.refl (vm : Vm) : Later vm vm := ⟨fun _ h => h, fun _ _ => Kept.refl _⟩

theorem Later.trans {vm vm' vm'' : Vm} (h : Later vm vm') (h' : Later vm' vm'') : Later vm vm'' :=
  ⟨fun a ha => h'.tree a (h.tree a ha), fun a ha => (h.kept a ha).trans (h'.kept a (h.tree a ha))⟩

/-- Other fields of the VM may change with the module. -/
theorem later_set {vm vm' : Vm} (htree : vm'.tree = vm.tree) (hmod : vm'.module = vm.module)
    {a : ℕ} {m : Module} (h : Kept (vm.module a) m) : Later vm (setModule vm' a m) := by
  constructor
  · intro b hb
    exact htree ▸ hb
  · intro b _
    by_cases hb : b = a
    · subst hb
      rwa [setModule_self]
    · rw [setModule_of_ne vm' m hb, hmod]
      exact Kept.refl _

/-- A module is set to one of the same name, number and flags. -/
theorem registry_set {vm : Vm} (h : Registry vm) {a : ℕ} {m : Module}
    (hname : m.name = (vm.module a).name) (hload : m.loaded = (vm.module a).loaded)
    (hidx : m.idx = (vm.module a).idx)
    (hlink : a ∈ vm.tree.toList → m.linked = true → m.loaded = true ∧ m.invalid = false) :
    Registry (setModule vm a m) := by
  have hat : ∀ {α : Type} (f : Module → α), f m = f (vm.module a) → ∀ b,
      f ((setModule vm a m).module b) = f (vm.module b) := by
    intro α f hf b
    by_cases hb : b = a
    · rw [hb, setModule_self, hf]
    · rw [setModule_of_ne vm m hb]
  have hshape : SameShape vm (setModule vm a m) := ⟨rfl, rfl, rfl, rfl⟩
  apply registry_same h hshape (hat _ hname) (hat _ hload) (hat _ hidx)
  intro b hb hl
  by_cases hba : b = a
  · subst hba
    rw [setModule_self] at hl ⊢
    exact hlink hb hl
  · rw [setModule_of_ne vm m hba] at hl ⊢
    exact h.linked b hb hl

theorem insertModule_registry (rb : StrOps) {vm : Vm} (h : Registry vm) {m : Module}
    (hready : vm.ready = false) (hfree : ∀ a ∈ vm.tree.toList, (vm.module a).name ≠ m.name)
    (hload : m.loaded = false) (hlink : m.linked = false) :
    Registry (insertModule rb vm m) ∧ Later vm (insertModule rb vm m) := by
  have hnew : vm.next ∉ vm.tree.toList := fun hm => absurd (h.used _ hm) (by omega)
  have hold : ∀ b ∈ vm.tree.toList, (insertModule rb vm m).module b = vm.module b := by
    intro b hb
    have hne : b ≠ vm.next := fun heq => hnew (heq ▸ hb)
    exact insertModule_of_ne rb vm m hne
  have hself := insertModule_self rb vm m
  have hperm : (insertModule rb vm m).tree.toList.Perm (vm.next :: vm.tree.toList) :=
    rb.modules.insert_perm _ vm.tree vm.next
  constructor
  · constructor
    · intro a ha
      rcases List.mem_cons.mp (hperm.mem_iff.mp ha) with rfl | ha
      · exact Nat.lt_succ_self _
      · exact Nat.lt_succ_of_lt (h.used a ha)
    · apply rb.modules.insert_ordered
      exact ordered_congr (fun b hb => by rw [← hold b hb]) h.ordered
    · rw [(hperm.map _).nodup_iff, List.map_cons, List.nodup_cons, hself, List.mem_map,
        List.map_congr_left fun b hb => by rw [hold b hb]]
      constructor
      · intro hm
        obtain ⟨b, hb, heq⟩ := hm
        rw [hold b hb] at heq
        exact hfree b hb heq
      · exact h.names
    · refine ((hperm.filter _).map _).trans ?_
      rw [List.filter_cons_of_neg (by rw [hself, hload]; simp),
        List.filter_congr fun b hb => by rw [hold b hb],
        List.map_congr_left fun b hb => by rw [hold b (List.mem_of_mem_filter hb)]]
      exact h.numbered
    · intro a ha hl
      rcases List.mem_cons.mp (hperm.mem_iff.mp ha) with rfl | ha
      · rw [hself, hlink] at hl
        exact absurd hl (by simp)
      · rw [hold a ha] at hl ⊢
        exact h.linked a ha hl
    · intro hr
      exact absurd (hready ▸ hr) (by simp)
  · constructor
    · intro a ha
      exact hperm.mem_iff.mpr (List.mem_cons_of_mem _ ha)
    · intro a ha
      rw [hold a ha]
      exact Kept.refl _

theorem moduleAdd_registry (rb : StrOps) {vm : Vm} (h : Registry vm) (name path : Bytes)
    (config : Option Bytes) :
    Registry (moduleAdd rb vm name path config).1 ∧
      Later vm (moduleAdd rb vm name path config).1 := by
  unfold moduleAdd
  split
  · exact ⟨h, Later.refl vm⟩
  · rename_i hready
    split
    · exact ⟨h, Later.refl vm⟩
    · rename_i hl
      exact insertModule_registry rb h (by simpa using hready) (moduleLookup_none h hl) rfl rfl

theorem engineInit_registry {vm : Vm} (h : Registry vm) (ok : Bool) :
    Registry (engineInit vm ok).1 ∧ Later vm (engineInit vm ok).1 := by
  unfold engineInit
  split
  · exact ⟨h, Later.refl vm⟩
  · split
    · exact ⟨registry_same h ⟨rfl, rfl, rfl, rfl⟩ (fun _ => rfl) (fun _ => rfl) (fun _ => rfl)
        h.linked, ⟨fun _ hb => hb, fun _ _ => Kept.refl _⟩⟩
    · exact ⟨h, Later.refl vm⟩

theorem engineDestroy_registry {vm : Vm} (h : Registry vm) :
    Registry (engineDestroy vm).1 ∧ Later vm (engineDestroy vm).1 := by
  unfold engineDestroy
  split
  · exact ⟨⟨h.used, h.ordered, h.names, h.numbered, h.linked, fun hr => absurd hr (by simp)⟩,
      ⟨fun _ hb => hb, fun _ _ => Kept.refl _⟩⟩
  · exact ⟨h, Later.refl vm⟩

theorem moduleLoadBytes_same (rt : Runtime) (file : Option Bytes) (m : Module) :
    ∃ bytes got, (moduleLoadBytes rt file m).1 = { m with bytes, loadedBytes := got } := by
  cases file with
  | none => exact ⟨m.bytes, m.loadedBytes, rfl⟩
  | some file =>
    simp only [moduleLoadBytes]
    split
    · exact ⟨m.bytes, m.loadedBytes, rfl⟩
    · rename_i bytes _
      split
      · exact ⟨bytes, m.loadedBytes, rfl⟩
      · split
        · exact ⟨bytes, true, rfl⟩
        · exact ⟨bytes, m.loadedBytes, rfl⟩

theorem loadBytesOf_registry (rt : Runtime) (files : Bytes → Option Bytes) {vm : Vm}
    (h : Registry vm) (a : ℕ) :
    Registry (loadBytesOf rt files vm a).1 ∧ Later vm (loadBytesOf rt files vm a).1 := by
  obtain ⟨bytes, got, heq⟩ := moduleLoadBytes_same rt (files (vm.module a).path) (vm.module a)
  simp only [loadBytesOf, heq]
  constructor
  · exact registry_set h rfl rfl rfl fun ha hl => h.linked a ha hl
  · exact later_set rfl rfl ⟨rfl, rfl, rfl, (Kept.refl (vm.module a)).loaded,
      (Kept.refl (vm.module a)).linked⟩

/-- A module that is not loaded is not linked, so nothing of it is kept but its names. -/
theorem Registry.kept_unloaded {vm : Vm} (h : Registry vm) {a : ℕ} (ha : a ∈ vm.tree.toList)
    (hold : (vm.module a).loaded = false) :
    (vm.module a).linked = false ∧ ∀ m : Module, m.name = (vm.module a).name →
      m.path = (vm.module a).path → m.config = (vm.module a).config → Kept (vm.module a) m := by
  have hunlinked : (vm.module a).linked = false := by
    cases hl : (vm.module a).linked with
    | false => rfl
    | true => exact absurd (h.linked a ha hl).1 (by simp [hold])
  refine ⟨hunlinked, ?_⟩
  intro m hname hpath hconfig
  exact ⟨hname, hpath, hconfig, fun hl => absurd hl (by simp [hold]),
    fun hl => absurd hl (by simp [hunlinked])⟩

theorem moduleLoad_registry (rb : StrOps) (rt : Runtime) {vm : Vm} (h : Registry vm) {a : ℕ}
    (ha : a ∈ vm.tree.toList) :
    Registry (moduleLoad rb rt vm a).1 ∧ Later vm (moduleLoad rb rt vm a).1 := by
  have hspec := moduleLoad_spec rb rt vm a
  generalize moduleLoad rb rt vm a = r at hspec ⊢
  cases hspec with
  | already _ => exact ⟨h, Later.refl vm⟩
  | noBytes _ => exact ⟨h, Later.refl vm⟩
  | failed hold =>
    obtain ⟨hunlinked, hkept⟩ := h.kept_unloaded ha hold
    constructor
    · exact registry_set h rfl rfl rfl fun _ hl => absurd hl (by simp [hunlinked])
    · exact later_set (by rfl) (by rfl) (hkept _ (by rfl) (by rfl) (by rfl))
  | refused hold imports exports _ _ =>
    obtain ⟨hunlinked, hkept⟩ := h.kept_unloaded ha hold
    have hshape : Registry { vm with objects := vm.objects + 1 } :=
      registry_same h ⟨rfl, rfl, rfl, rfl⟩ (fun _ => rfl) (fun _ => rfl) (fun _ => rfl) h.linked
    constructor
    · exact registry_set hshape rfl rfl rfl
        fun _ hl => absurd hl (by simp [readModule, hunlinked])
    · exact later_set (by rfl) (by rfl) (hkept _ (by rfl) (by rfl) (by rfl))
  | done hold imports exports _ _ =>
    obtain ⟨_, hkept⟩ := h.kept_unloaded ha hold
    constructor
    · apply registry_loaded h ha hold
      · rfl
      · rfl
      · rfl
      · rfl
      · intro b hb
        exact setModule_of_ne _ _ hb
      · rw [setModule_self]
        rfl
      · rw [setModule_self]
      · rw [setModule_self]
      · rw [setModule_self]
        rfl
    · exact later_set (by rfl) (by rfl) (hkept _ (by rfl) (by rfl) (by rfl))

theorem moduleLink_registry (hosts : ℕ → HostDef) {vm : Vm} (h : Registry vm) (a host : ℕ)
    (define : ℕ → Bool) :
    Registry (moduleLink hosts vm a host define).1 ∧
      Later vm (moduleLink hosts vm a host define).1 := by
  have hlinker : ∀ l : Linker, Registry { vm with linker := l } := fun l =>
    registry_same h ⟨rfl, rfl, rfl, rfl⟩ (fun _ => rfl) (fun _ => rfl) (fun _ => rfl) h.linked
  have hkept : ∀ flag, (vm.module a).linked = false →
      Kept (vm.module a) { hostedModule hosts vm a host with linked := flag } := by
    intro flag hlink
    exact ⟨rfl, rfl, rfl, fun hl => ⟨hl, rfl, rfl, rfl, rfl, rfl, rfl⟩,
      fun hl => absurd hl (by simp [hlink])⟩
  have hspec := moduleLink_spec hosts define vm a host
  generalize moduleLink hosts vm a host define = r at hspec ⊢
  cases hspec with
  | unchanged rc => exact ⟨h, Later.refl vm⟩
  | missing hload hlink =>
    constructor
    · exact registry_set h rfl rfl rfl fun _ hl => absurd hl (by simp [hostedModule, hlink])
    · exact later_set (by rfl) (by rfl) (hkept _ hlink)
  | undefined hload hlink linker _ =>
    constructor
    · exact registry_set (hlinker linker) rfl rfl rfl
        fun _ hl => absurd hl (by simp [hostedModule, hlink])
    · exact later_set (by rfl) (by rfl) (hkept _ hlink)
  | done hvalid hload hlink hall linker _ =>
    constructor
    · exact registry_set (hlinker linker) rfl rfl rfl fun _ _ => ⟨hload, hvalid⟩
    · exact later_set (by rfl) (by rfl) (hkept _ hlink)

theorem moduleLoad_tree (rb : StrOps) (rt : Runtime) (vm : Vm) (a : ℕ) :
    (moduleLoad rb rt vm a).1.tree = vm.tree := by
  have hspec := moduleLoad_spec rb rt vm a
  generalize moduleLoad rb rt vm a = r at hspec ⊢
  cases hspec <;> rfl

theorem eachModule_tree {f : Vm → ℕ → Vm × Rc × Acts} (hf : ∀ vm a, (f vm a).1.tree = vm.tree)
    (as : List ℕ) (vm : Vm) : (eachModule f as vm).1.tree = vm.tree := by
  induction as generalizing vm with
  | nil => rfl
  | cons a as ih =>
    have htree := hf vm a
    rcases hfa : f vm a with ⟨vm', rc, acts⟩
    rw [hfa] at htree
    simp only [eachModule, hfa]
    split
    · rename_i vm'' acts' heq
      obtain rfl : vm' = vm'' := congrArg Prod.fst heq
      rw [ih]
      exact htree
    · exact htree

theorem eachModule_invariant {f : Vm → ℕ → Vm × Rc × Acts} {I : Vm → Prop}
    (htree : ∀ vm a, (f vm a).1.tree = vm.tree)
    (hf : ∀ vm, I vm → ∀ a ∈ vm.tree.toList, I (f vm a).1) (as : List ℕ) {vm : Vm} (h : I vm)
    (has : ∀ a ∈ as, a ∈ vm.tree.toList) : I (eachModule f as vm).1 := by
  induction as generalizing vm with
  | nil => exact h
  | cons a as ih =>
    have hnext := hf vm h a (has a (List.mem_cons_self ..))
    have hsame := htree vm a
    rcases hfa : f vm a with ⟨vm', rc, acts⟩
    rw [hfa] at hnext hsame
    simp only [eachModule, hfa]
    split
    · rename_i vm'' acts' heq
      obtain rfl : vm' = vm'' := congrArg Prod.fst heq
      refine ih hnext fun b hb => ?_
      rw [show vm'.tree = vm.tree from hsame]
      exact has b (List.mem_cons_of_mem _ hb)
    · exact hnext

theorem loadBytesOf_tree (rt : Runtime) (files : Bytes → Option Bytes) (vm : Vm) (a : ℕ) :
    (loadBytesOf rt files vm a).1.tree = vm.tree := rfl

/-- The loop keeps what its body keeps, and after `NGX_OK` each module it went over is as the
body left it. -/
theorem eachModule_registry {f : Vm → ℕ → Vm × Rc × Acts} {P : Module → Prop} {as : List ℕ}
    (hf : ∀ vm, Registry vm → ∀ a ∈ vm.tree.toList, Registry (f vm a).1 ∧ Later vm (f vm a).1 ∧
      ((f vm a).2.1 = .ok → P ((f vm a).1.module a)))
    (hP : ∀ m m', P m → Kept m m' → P m') {vm : Vm} (h : Registry vm)
    (has : ∀ a ∈ as, a ∈ vm.tree.toList) :
    Registry (eachModule f as vm).1 ∧ Later vm (eachModule f as vm).1 ∧
      ((eachModule f as vm).2.1 = .ok → ∀ a ∈ as, P ((eachModule f as vm).1.module a)) := by
  induction as generalizing vm with
  | nil => exact ⟨h, Later.refl vm, fun _ a ha => absurd ha (by simp)⟩
  | cons a as ih =>
    obtain ⟨hreg, hlater, hdone⟩ := hf vm h a (has a (List.mem_cons_self ..))
    rcases hfa : f vm a with ⟨vm', rc, acts⟩
    rw [hfa] at hreg hlater hdone
    have hin : ∀ b ∈ as, b ∈ vm'.tree.toList := fun b hb =>
      hlater.tree b (has b (List.mem_cons_of_mem _ hb))
    by_cases hrc : rc = .ok
    · subst hrc
      obtain ⟨hreg', hlater', hdone'⟩ := ih hreg hin
      simp only [eachModule, hfa]
      refine ⟨hreg', hlater.trans hlater', ?_⟩
      intro hok b hb
      rcases List.mem_cons.mp hb with rfl | hb
      · have hmem := hlater.tree b (has b (List.mem_cons_self ..))
        exact hP _ _ (hdone rfl) (hlater'.kept b hmem)
      · exact hdone' hok b hb
    · have hstop : eachModule f (a :: as) vm = (vm', rc, acts) := by
        simp only [eachModule, hfa]
        split
        · rename_i heq
          exact absurd (congrArg (fun r => r.2.1) heq) hrc
        · rfl
      rw [hstop]
      exact ⟨hreg, hlater, fun hok => absurd hok hrc⟩

theorem vmInit_invariant {rt : Runtime} {files : Bytes → Option Bytes} {I : Vm → Prop} {vm : Vm}
    {ok : Bool} (hstart : I (engineInit vm ok).1)
    (hbody : ∀ v, I v → ∀ a ∈ v.tree.toList, I (loadBytesOf rt files v a).1)
    (hend : ∀ v, I v → I (engineDestroy v).1) : I (vmInit rt vm files ok).1 := by
  rcases hinit : engineInit vm ok with ⟨vm', rc, acts⟩
  rw [hinit] at hstart
  simp only [vmInit, hinit]
  split
  · rename_i vm'' acts' heq
    obtain rfl : vm' = vm'' := congrArg Prod.fst heq
    exact hend _ (eachModule_invariant (loadBytesOf_tree rt files) hbody _ hstart fun _ ha => ha)
  · rename_i vm'' rc' acts' _ heq
    obtain rfl : vm' = vm'' := congrArg Prod.fst heq
    exact hend _ hstart

/-- `J` holds while the modules are loaded, which happens only with an engine of its own. -/
theorem vmLoad_invariant {rb : StrOps} {rt : Runtime} {I J : Vm → Prop} {vm : Vm} {ok : Bool}
    (hstart : I (engineInit vm ok).1)
    (hrun : (engineInit vm ok).2.1 = .ok → J (engineInit vm ok).1)
    (hbody : ∀ v, J v → ∀ a ∈ v.tree.toList, J (moduleLoad rb rt v a).1)
    (hfail : ∀ v, J v → I v) (hready : ∀ v, J v → I { v with ready := true }) :
    I (vmLoad rb rt vm ok).1 := by
  rcases hinit : engineInit vm ok with ⟨vm', rc, acts⟩
  rw [hinit] at hstart hrun
  simp only [vmLoad, hinit]
  split
  · rename_i vm'' acts' heq
    obtain rfl : vm' = vm'' := congrArg Prod.fst heq
    have hok : rc = .ok := congrArg (fun r => r.2.1) heq
    have hloop := eachModule_invariant (moduleLoad_tree rb rt) hbody vm'.tree.toList (hrun hok)
      fun _ ha => ha
    rcases heach : eachModule (moduleLoad rb rt) vm'.tree.toList vm' with ⟨v, rc', more⟩
    rw [heach] at hloop
    split
    · rename_i v' more' hok
      obtain rfl : v = v' := congrArg Prod.fst hok
      exact hready v hloop
    · rename_i v' rc'' more' _ heq'
      obtain rfl : v = v' := congrArg Prod.fst heq'
      exact hfail v hloop
  · rename_i vm'' rc' acts' _ heq
    obtain rfl : vm' = vm'' := congrArg Prod.fst heq
    exact hstart

theorem vmInit_registry (rt : Runtime) {vm : Vm} (h : Registry vm)
    (files : Bytes → Option Bytes) (ok : Bool) :
    Registry (vmInit rt vm files ok).1 ∧ Later vm (vmInit rt vm files ok).1 := by
  apply vmInit_invariant (I := fun v => Registry v ∧ Later vm v)
  · exact engineInit_registry h ok
  · intro v hv a _
    obtain ⟨hreg, hlater⟩ := loadBytesOf_registry rt files hv.1 a
    exact ⟨hreg, hv.2.trans hlater⟩
  · intro v hv
    obtain ⟨hreg, hlater⟩ := engineDestroy_registry hv.1
    exact ⟨hreg, hv.2.trans hlater⟩

theorem moduleLoad_loaded (rb : StrOps) (rt : Runtime) (vm : Vm) (a : ℕ)
    (hok : (moduleLoad rb rt vm a).2.1 = .ok) :
    ((moduleLoad rb rt vm a).1.module a).loaded = true := by
  have hspec := moduleLoad_spec rb rt vm a
  generalize moduleLoad rb rt vm a = r at hspec hok ⊢
  cases hspec with
  | already h => exact h
  | noBytes _ => exact absurd hok (by simp)
  | failed _ => exact absurd hok (by simp)
  | refused _ imports exports _ _ => exact absurd hok (by simp)
  | done _ imports exports _ _ => rw [setModule_self]

theorem vmLoad_registry (rb : StrOps) (rt : Runtime) {vm : Vm} (h : Registry vm) (ok : Bool) :
    Registry (vmLoad rb rt vm ok).1 ∧ Later vm (vmLoad rb rt vm ok).1 := by
  obtain ⟨hreg, hlater⟩ := engineInit_registry h ok
  rcases hinit : engineInit vm ok with ⟨vm', rc, acts⟩
  rw [hinit] at hreg hlater
  simp only [vmLoad, hinit]
  split
  · rename_i vm'' acts' heq
    obtain rfl : vm' = vm'' := congrArg Prod.fst heq
    have hbody : ∀ v, Registry v → ∀ a ∈ v.tree.toList,
        Registry (moduleLoad rb rt v a).1 ∧ Later v (moduleLoad rb rt v a).1 ∧
          ((moduleLoad rb rt v a).2.1 = .ok →
            ((moduleLoad rb rt v a).1.module a).loaded = true) := by
      intro v hv a ha
      obtain ⟨h1, h2⟩ := moduleLoad_registry rb rt hv ha
      exact ⟨h1, h2, moduleLoad_loaded rb rt v a⟩
    obtain ⟨hreg', hlater', hdone⟩ := eachModule_registry (P := fun m => m.loaded = true) hbody
      (fun _ _ hl hk => (hk.loaded hl).1) hreg fun _ ha => ha
    have hsame := eachModule_tree (fun v a => moduleLoad_tree rb rt v a) vm'.tree.toList vm'
    rcases heach : eachModule (moduleLoad rb rt) vm'.tree.toList vm' with ⟨v, rc', more⟩
    rw [heach] at hreg' hlater' hdone hsame
    split
    · rename_i v' more' hok
      obtain ⟨rfl, hrest⟩ := Prod.ext_iff.mp hok
      -- every module of the tree was gone over
      have hall : ∀ a ∈ v.tree.toList, (v.module a).loaded = true := by
        rw [hsame]
        exact hdone (Prod.ext_iff.mp hrest).1
      exact ⟨⟨hreg'.used, hreg'.ordered, hreg'.names, hreg'.numbered, hreg'.linked,
        fun _ => hall⟩, hlater.trans ⟨hlater'.tree, hlater'.kept⟩⟩
    · rename_i v' rc'' more' _ heq'
      obtain rfl : v = v' := congrArg Prod.fst heq'
      exact ⟨hreg', hlater.trans hlater'⟩
  · rename_i vm'' rc' acts' _ heq
    obtain rfl : vm' = vm'' := congrArg Prod.fst heq
    exact ⟨hreg, hlater⟩

theorem vmStep_registry (rb : StrOps) (rt : Runtime) (hosts : ℕ → HostDef) {vm : Vm}
    (h : Registry vm) (op : VmOp) :
    Registry (vmStep rb rt hosts vm op).1 ∧ Later vm (vmStep rb rt hosts vm op).1 := by
  cases op with
  | add name path config => exact moduleAdd_registry rb h name path config
  | init files ok => exact vmInit_registry rt h files ok
  | load ok => exact vmLoad_registry rb rt h ok
  | link name host define =>
    simp only [vmStep]
    cases moduleLookup vm name with
    | none => exact ⟨h, Later.refl vm⟩
    | some a => exact moduleLink_registry hosts h a host define

/-! ### Runs -/

theorem exec_registry (rb : StrOps) (rt : Runtime) (hosts : ℕ → HostDef) (ops : List VmOp)
    {vm : Vm} (h : Registry vm) :
    Registry (Run.exec (vmStep rb rt hosts) vm ops).1 ∧
      Later vm (Run.exec (vmStep rb rt hosts) vm ops).1 := by
  induction ops generalizing vm with
  | nil => exact ⟨h, Later.refl vm⟩
  | cons op ops ih =>
    obtain ⟨hreg, hlater⟩ := vmStep_registry rb rt hosts h op
    obtain ⟨hend, hrest⟩ := ih hreg
    exact ⟨hend, hlater.trans hrest⟩

/-- The VM after a run from its creation. -/
def vmAfter (rb : StrOps) (rt : Runtime) (hosts : ℕ → HostDef) (coreHost : Option ℕ)
    (ops : List VmOp) : Vm := (Run.exec (vmStep rb rt hosts) (vmCreate coreHost) ops).1

theorem vmAfter_registry (rb : StrOps) (rt : Runtime) (hosts : ℕ → HostDef)
    (coreHost : Option ℕ) (ops : List VmOp) : Registry (vmAfter rb rt hosts coreHost ops) :=
  (exec_registry rb rt hosts ops (vmCreate_registry coreHost)).1

/-- In every run the modules are told apart by their names and by their numbers, only valid and
loaded modules are linked, and a VM that is ready takes no more modules. -/
theorem vmAfter_modules (rb : StrOps) (rt : Runtime) (hosts : ℕ → HostDef)
    (coreHost : Option ℕ) (ops : List VmOp) :
    let vm := vmAfter rb rt hosts coreHost ops
    (∀ name a, moduleLookup vm name = some a ↔
      a ∈ vm.tree.toList ∧ (vm.module a).name = name) ∧
    (vm.tree.toList.map fun a => (vm.module a).name).Nodup ∧
    ((vm.tree.toList.filter fun a => (vm.module a).loaded).map
      fun a => (vm.module a).idx).Perm (List.range vm.modulesMax) ∧
    (∀ a ∈ vm.tree.toList, (vm.module a).linked = true →
      (vm.module a).loaded = true ∧ (vm.module a).invalid = false) ∧
    (vm.ready = true → (∀ a ∈ vm.tree.toList, (vm.module a).loaded = true) ∧
      ∀ name path config, moduleAdd rb vm name path config = (vm, .abort)) := by
  have h := vmAfter_registry rb rt hosts coreHost ops
  refine ⟨moduleLookup_iff h, h.names, h.numbered, h.linked, ?_⟩
  intro hready
  refine ⟨h.frozen hready, ?_⟩
  intro name path config
  rw [moduleAdd, if_pos hready]

end NgxWasm.Wavm
