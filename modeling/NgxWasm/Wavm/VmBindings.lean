import NgxWasm.Wavm.VmLinks

/-!
# Imports of linked modules

Every name that a linked module imports from `env` is in the linker of the engine, under the
function that the module's own host, or the core host behind it, has for the name. Links of other
modules go on in the same linker, so this needs hosts that agree on their common names, and an
engine that is not made anew once a module is loaded.
-/

namespace NgxWasm.Wavm

open NgxWasm NgxWasm.Lib NgxWasm.Lib.SearchTree
open NgxWasm.Http.Headers (ascii)

variable {rb : StrOps} {rt : Runtime} {hosts : ℕ → HostDef} {coreHost : Option ℕ} {used : ℕ → Prop}

/-- No name stands for two functions. -/
def HostsAgree (hosts : ℕ → HostDef) (coreHost : Option ℕ) (used : ℕ → Prop) : Prop :=
  ∀ h h', used h → used h' → ∀ name f f', resolveHfunc hosts coreHost h name = some f →
    resolveHfunc hosts coreHost h' name = some f' → f = f'

/-- `f` is what a host in use has for the name. -/
def Provided (hosts : ℕ → HostDef) (coreHost : Option ℕ) (used : ℕ → Prop) (name : Bytes)
    (f : Hfunc) : Prop :=
  ∃ host, used host ∧ resolveHfunc hosts coreHost host name = some { f with idx := 0 }

/-- The functions that were pushed for a module belong to its imports. -/
def Pushed (hosts : ℕ → HostDef) (coreHost : Option ℕ) (used : ℕ → Prop) (m : Module) : Prop :=
  ∀ h ∈ m.hfuncs, m.loaded = true ∧ ∃ imp, m.imports[h.idx]? = some imp ∧ imp.module = env ∧
    Provided hosts coreHost used imp.name h

/-- Each import of a linked module is resolved by its host and defined in the linker. -/
def Wired (hosts : ℕ → HostDef) (coreHost : Option ℕ) (used : ℕ → Prop) (linker : Linker)
    (m : Module) : Prop :=
  m.linked = true → m.loaded = true ∧ ∃ host, used host ∧ m.hostDef = some host ∧
    ∀ imp ∈ m.imports, imp.module = env →
      (resolveHfunc hosts coreHost host imp.name).isSome = true ∧ (linker imp.name).isSome = true

structure Bound (hosts : ℕ → HostDef) (coreHost : Option ℕ) (used : ℕ → Prop) (vm : Vm) :
    Prop where
  core : vm.coreHost = coreHost
  alive : 0 < vm.modulesMax → vm.initialised = true
  counted : ∀ a ∈ vm.tree.toList, (vm.module a).loaded = true → 0 < vm.modulesMax
  pushed : ∀ a ∈ vm.tree.toList, Pushed hosts coreHost used (vm.module a)
  linker : ∀ name f, vm.linker name = some f → Provided hosts coreHost used name f
  wired : ∀ a ∈ vm.tree.toList, Wired hosts coreHost used vm.linker (vm.module a)

theorem Wired.mono {l l' : Linker} {m : Module} (h : Wired hosts coreHost used l m)
    (hmono : ∀ name, (l name).isSome = true → (l' name).isSome = true) :
    Wired hosts coreHost used l' m := by
  intro hl
  obtain ⟨hload, host, hu, hd, himp⟩ := h hl
  refine ⟨hload, host, hu, hd, ?_⟩
  intro imp hi hmod
  obtain ⟨hr, hs⟩ := himp imp hi hmod
  exact ⟨hr, hmono _ hs⟩

/-- One module changes, and the linker grows. -/
theorem bound_set {vm : Vm} (h : Bound hosts coreHost used vm) (vm' : Vm) (htree : vm'.tree = vm.tree)
    (hmod : vm'.module = vm.module) (hcore : vm'.coreHost = vm.coreHost)
    (halive : 0 < vm'.modulesMax → vm'.initialised = true)
    (hmax : vm.modulesMax ≤ vm'.modulesMax)
    (hlinker : ∀ name f, vm'.linker name = some f → Provided hosts coreHost used name f)
    (hmono : ∀ name, (vm.linker name).isSome = true → (vm'.linker name).isSome = true) {a : ℕ}
    {m : Module} (hcount : a ∈ vm.tree.toList → m.loaded = true → 0 < vm'.modulesMax)
    (hpushed : a ∈ vm.tree.toList → Pushed hosts coreHost used m)
    (hwired : a ∈ vm.tree.toList → Wired hosts coreHost used vm'.linker m) :
    Bound hosts coreHost used (setModule vm' a m) := by
  constructor
  · exact hcore.trans h.core
  · exact halive
  · intro b hb
    have hmem : b ∈ vm.tree.toList := htree ▸ hb
    by_cases hba : b = a
    · subst hba
      rw [setModule_self]
      exact hcount hmem
    · rw [setModule_of_ne vm' m hba, hmod]
      intro hl
      exact lt_of_lt_of_le (h.counted b hmem hl) hmax
  · intro b hb
    have hmem : b ∈ vm.tree.toList := htree ▸ hb
    by_cases hba : b = a
    · subst hba
      rw [setModule_self]
      exact hpushed hmem
    · rw [setModule_of_ne vm' m hba, hmod]
      exact h.pushed b hmem
  · exact hlinker
  · intro b hb
    have hmem : b ∈ vm.tree.toList := htree ▸ hb
    by_cases hba : b = a
    · subst hba
      rw [setModule_self]
      exact hwired hmem
    · rw [setModule_of_ne vm' m hba, hmod]
      exact (h.wired b hmem).mono hmono

/-! ### The operations -/

/-- The linker is emptied only while no module is loaded. -/
theorem engineInit_bound {vm : Vm} (h : Bound hosts coreHost used vm) (ok : Bool) :
    Bound hosts coreHost used (engineInit vm ok).1 := by
  unfold engineInit
  split
  · exact h
  rename_i hinit
  split
  · refine ⟨h.core, fun _ => rfl, h.counted, h.pushed, fun _ _ hf => absurd hf (by simp), ?_⟩
    intro a ha hl
    exact absurd (h.alive (h.counted a ha (h.wired a ha hl).1)) hinit
  · exact h

theorem engineDestroy_bound {vm : Vm} (h : Bound hosts coreHost used vm)
    (hmax : vm.modulesMax = 0) : Bound hosts coreHost used (engineDestroy vm).1 := by
  unfold engineDestroy
  split
  · exact ⟨h.core, fun hpos => absurd hmax (Nat.pos_iff_ne_zero.mp hpos), h.counted, h.pushed,
      h.linker, h.wired⟩
  · exact h

theorem loadBytesOf_bound (files : Bytes → Option Bytes) {vm : Vm}
    (h : Bound hosts coreHost used vm) (a : ℕ) :
    Bound hosts coreHost used (loadBytesOf rt files vm a).1 := by
  obtain ⟨bytes, got, heq⟩ := moduleLoadBytes_same rt (files (vm.module a).path) (vm.module a)
  simp only [loadBytesOf, heq]
  exact bound_set h vm rfl rfl rfl h.alive le_rfl h.linker (fun _ hs => hs) (h.counted a)
    (h.pushed a) (h.wired a)

theorem moduleLoad_bound {vm : Vm} (h : Bound hosts coreHost used vm)
    (hinit : vm.initialised = true) {a : ℕ} (ha : a ∈ vm.tree.toList) :
    Bound hosts coreHost used (moduleLoad rb rt vm a).1 := by
  have hspec := moduleLoad_spec rb rt vm a
  generalize moduleLoad rb rt vm a = r at hspec ⊢
  -- nothing was pushed for a module that is not loaded
  have hfresh : ∀ m : Module, (vm.module a).loaded = false → m.hfuncs = (vm.module a).hfuncs →
      m.linked = (vm.module a).linked → ∀ l,
      Pushed hosts coreHost used m ∧ Wired hosts coreHost used l m := by
    intro m hold hh hlink l
    constructor
    · intro x hx
      exact absurd (h.pushed a ha x (hh ▸ hx)).1 (by simp [hold])
    · intro hl
      exact absurd (h.wired a ha (hlink ▸ hl)).1 (by simp [hold])
  cases hspec with
  | already _ => exact h
  | noBytes _ => exact h
  | failed hold =>
    exact bound_set h vm rfl rfl rfl h.alive le_rfl h.linker (fun _ hs => hs)
      (fun _ hl => absurd hl (by simp [hold]))
      (fun _ => (hfresh _ hold (by rfl) (by rfl) vm.linker).1)
      fun _ => (hfresh _ hold (by rfl) (by rfl) vm.linker).2
  | refused hold imports exports _ _ =>
    exact bound_set h { vm with objects := vm.objects + 1 } rfl rfl rfl h.alive le_rfl h.linker
      (fun _ hs => hs) (fun _ hl => absurd hl (by simp [readModule, hold]))
      (fun _ => (hfresh _ hold (by rfl) (by rfl) vm.linker).1)
      fun _ => (hfresh _ hold (by rfl) (by rfl) vm.linker).2
  | done hold imports exports _ _ =>
    exact bound_set h { vm with objects := vm.objects + 1, modulesMax := vm.modulesMax + 1 }
      rfl rfl rfl (fun _ => hinit) (Nat.le_succ _) h.linker (fun _ hs => hs)
      (fun _ _ => Nat.succ_pos _)
      (fun _ => (hfresh _ hold (by rfl) (by rfl) vm.linker).1)
      fun _ => (hfresh _ hold (by rfl) (by rfl) vm.linker).2

theorem hosted_pushed {vm : Vm} (h : Bound hosts coreHost used vm) {a host : ℕ}
    (ha : a ∈ vm.tree.toList) (hu : used host) (hload : (vm.module a).loaded = true) :
    Pushed hosts coreHost used (hostedModule hosts vm a host) := by
  intro x hx
  refine ⟨hload, ?_⟩
  rcases List.mem_append.mp hx with hx | hx
  · exact (h.pushed a ha x hx).2
  · rw [h.core] at hx
    obtain ⟨imp, _, hget, hmod, hc⟩ := linkImports_pushed (fun _ _ => resolveHfunc_idx) 0 hx
    exact ⟨imp, hget, hmod, host, hu, hc⟩

theorem moduleLink_bound {vm : Vm} (h : Bound hosts coreHost used vm) {a host : ℕ}
    (ha : a ∈ vm.tree.toList) (hu : used host) (define : ℕ → Bool) :
    Bound hosts coreHost used (moduleLink hosts vm a host define).1 := by
  have hspec := moduleLink_spec hosts define vm a host
  generalize moduleLink hosts vm a host define = r at hspec ⊢
  -- what the runtime was given is what the imports name
  have hfrom : ∀ {linker : Linker} {ok : Bool}, (vm.module a).loaded = true →
      wrtModuleLink (vm.module a).imports define 0 (hostedModule hosts vm a host).hfuncs
        vm.linker = (linker, ok) →
      ∀ name f, linker name = some f → Provided hosts coreHost used name f := by
    intro linker ok hload hdef name f hf
    have hnew := wrtModuleLink_from _ define _ 0 vm.linker name f (by rw [hdef]; exact hf)
    rcases hnew with hold | ⟨hm, imp, himp, hn⟩
    · exact h.linker name f hold
    · obtain ⟨_, imp', himp', _, hp⟩ := hosted_pushed h ha hu hload f hm
      have heq : imp = imp' := Option.some.inj (himp.symm.trans himp')
      rw [← hn, heq]
      exact hp
  have hmono : ∀ {linker : Linker} {ok : Bool},
      wrtModuleLink (vm.module a).imports define 0 (hostedModule hosts vm a host).hfuncs
        vm.linker = (linker, ok) →
      ∀ name, (vm.linker name).isSome = true → (linker name).isSome = true := by
    intro linker ok hdef name hs
    have hgrow := wrtModuleLink_mono (vm.module a).imports define
      (hostedModule hosts vm a host).hfuncs 0 vm.linker name hs
    rwa [hdef] at hgrow
  cases hspec with
  | unchanged rc => exact h
  | missing hload hlink =>
    exact bound_set h vm rfl rfl rfl h.alive le_rfl h.linker (fun _ hs => hs) (h.counted a)
      (fun _ => hosted_pushed h ha hu hload)
      fun _ hl => absurd hl (by simp [hostedModule, hlink])
  | undefined hload hlink linker hdef =>
    exact bound_set h { vm with linker } rfl rfl rfl h.alive le_rfl (hfrom hload hdef) (hmono hdef)
      (h.counted a) (fun _ => hosted_pushed h ha hu hload)
      fun _ hl => absurd hl (by simp [hostedModule, hlink])
  | done hvalid hload hlink hall linker hdef =>
    refine bound_set h { vm with linker } rfl rfl rfl h.alive le_rfl (hfrom hload hdef) (hmono hdef)
      (h.counted a) (fun _ => hosted_pushed h ha hu hload) fun _ _ => ?_
    refine ⟨hload, host, hu, rfl, ?_⟩
    intro imp hi hmod
    obtain ⟨hsome, x, hx, _, hget⟩ := linkImports_complete 0 hall imp hi hmod
    have hdefined := wrtModuleLink_defines (vm.module a).imports define
      (hostedModule hosts vm a host).hfuncs 0 vm.linker (by rw [hdef]) x
      (List.mem_append_right _ hx) imp hget hmod
    rw [hdef] at hdefined
    rw [h.core] at hsome
    exact ⟨hsome, hdefined⟩

/-! ### Runs -/

/-- The master initialises the VM before any module is loaded, and plans use the hosts `used`. -/
def InOrder (used : ℕ → Prop) (vm : Vm) : VmOp → Prop
  | .add _ _ _ => True
  | .init _ _ => vm.modulesMax = 0
  | .load _ => True
  | .link _ host _ => used host

theorem moduleAdd_bound {vm : Vm} (hreg : Registry vm) (h : Bound hosts coreHost used vm)
    (name path : Bytes) (config : Option Bytes) :
    Bound hosts coreHost used (moduleAdd rb vm name path config).1 := by
  unfold moduleAdd
  split
  · exact h
  split
  · exact h
  have hperm := rb.modules.insert_perm
    (fun a => (Function.update vm.module vm.next (newModule name path config) a).name)
    vm.tree vm.next
  have hold : ∀ a ∈ vm.tree.toList, a ≠ vm.next := by
    intro a ha
    have := hreg.used a ha
    omega
  refine ⟨h.core, h.alive, ?_, ?_, h.linker, ?_⟩
  · intro a ha hl
    rcases List.mem_cons.mp (hperm.mem_iff.mp ha) with rfl | ha
    · rw [insertModule_self] at hl
      exact absurd hl (by simp [newModule, blankModule])
    · rw [insertModule_of_ne rb vm _ (hold a ha)] at hl
      exact h.counted a ha hl
  · intro a ha
    rcases List.mem_cons.mp (hperm.mem_iff.mp ha) with rfl | ha
    · rw [insertModule_self]
      intro x hx
      exact absurd hx (by simp [newModule, blankModule])
    · rw [insertModule_of_ne rb vm _ (hold a ha)]
      exact h.pushed a ha
  · intro a ha
    rcases List.mem_cons.mp (hperm.mem_iff.mp ha) with rfl | ha
    · rw [insertModule_self]
      intro hl
      exact absurd hl (by simp [newModule, blankModule])
    · rw [insertModule_of_ne rb vm _ (hold a ha)]
      exact h.wired a ha

theorem engineInit_alive (vm : Vm) (ok : Bool) (h : (engineInit vm ok).2.1 = .ok) :
    (engineInit vm ok).1.initialised = true := by
  unfold engineInit at h ⊢
  split at h
  · exact absurd h (by simp)
  · split at h
    · rename_i h1 h2
      rw [if_neg h1, if_pos h2]
    · exact absurd h (by simp)

theorem moduleLoad_initialised (rb : StrOps) (rt : Runtime) (vm : Vm) (a : ℕ) :
    (moduleLoad rb rt vm a).1.initialised = vm.initialised := by
  have hspec := moduleLoad_spec rb rt vm a
  generalize moduleLoad rb rt vm a = r at hspec ⊢
  cases hspec <;> rfl

theorem vmStep_bound {vm : Vm} (hreg : Registry vm) (h : Bound hosts coreHost used vm) (op : VmOp)
    (hop : InOrder used vm op) : Bound hosts coreHost used (vmStep rb rt hosts vm op).1 := by
  cases op with
  | add name path config => exact moduleAdd_bound hreg h name path config
  | init files ok =>
    have hmax : (engineInit vm ok).1.modulesMax = 0 := by
      rw [engineInit]
      split
      · exact hop
      · split
        · exact hop
        · exact hop
    refine (vmInit_invariant (I := fun v => Bound hosts coreHost used v ∧ v.modulesMax = 0)
      ⟨engineInit_bound h ok, hmax⟩ ?_ ?_).1
    · intro v hv a _
      exact ⟨loadBytesOf_bound files hv.1 a, hv.2⟩
    · intro v hv
      refine ⟨engineDestroy_bound hv.1 hv.2, ?_⟩
      unfold engineDestroy
      split
      · exact hv.2
      · exact hv.2
  | load ok =>
    apply vmLoad_invariant (J := fun v => Bound hosts coreHost used v ∧ v.initialised = true)
    · exact engineInit_bound h ok
    · intro hok
      exact ⟨engineInit_bound h ok, engineInit_alive vm ok hok⟩
    · intro v hv a ha
      exact ⟨moduleLoad_bound hv.1 hv.2 ha, (moduleLoad_initialised rb rt v a).trans hv.2⟩
    · intro v hv
      exact hv.1
    · intro v hv
      exact ⟨hv.1.core, hv.1.alive, hv.1.counted, hv.1.pushed, hv.1.linker, hv.1.wired⟩
  | link name host define =>
    simp only [vmStep]
    cases hl : moduleLookup vm name with
    | none => exact h
    | some a => exact moduleLink_bound h ((moduleLookup_iff hreg name a).mp hl).1 hop define

/-- Each function that a linked module imports from `env` is, in the linker that instances are
made with, the one of the module's host, or of the core host if that host has none. -/
theorem vmAfter_imports (rb : StrOps) (rt : Runtime) (hosts : ℕ → HostDef) (coreHost : Option ℕ)
    (used : ℕ → Prop) (hagree : HostsAgree hosts coreHost used) (ops : List VmOp)
    (hops : Run.Meets (vmStep rb rt hosts) (InOrder used) (vmCreate coreHost) ops) (a : ℕ)
    (ha : a ∈ (vmAfter rb rt hosts coreHost ops).tree.toList)
    (hlink : ((vmAfter rb rt hosts coreHost ops).module a).linked = true) :
    ∃ host, ((vmAfter rb rt hosts coreHost ops).module a).hostDef = some host ∧
      ∀ imp ∈ ((vmAfter rb rt hosts coreHost ops).module a).imports, imp.module = env →
        ∃ f, (vmAfter rb rt hosts coreHost ops).linker imp.name = some f ∧
          resolveHfunc hosts coreHost host imp.name = some { f with idx := 0 } := by
  have hstep : ∀ vm op, Registry vm ∧ Bound hosts coreHost used vm → InOrder used vm op →
      Registry (vmStep rb rt hosts vm op).1 ∧ Bound hosts coreHost used
        (vmStep rb rt hosts vm op).1 := by
    intro vm op h hop
    exact ⟨(vmStep_registry rb rt hosts h.1 op).1, vmStep_bound h.1 h.2 op hop⟩
  have hstart : Bound hosts coreHost used (vmCreate coreHost) :=
    ⟨rfl, fun hpos => absurd hpos (by simp [vmCreate]),
      fun a ha => absurd ha (by simp [vmCreate, SearchTree.Tree.toList]),
      fun a ha => absurd ha (by simp [vmCreate, SearchTree.Tree.toList]),
      fun name f hf => absurd hf (by simp [vmCreate]),
      fun a ha => absurd ha (by simp [vmCreate, SearchTree.Tree.toList])⟩
  have hbound := (Run.exec_invariant (vmStep rb rt hosts) (InOrder used)
    (fun vm => Registry vm ∧ Bound hosts coreHost used vm) hstep ops (vmCreate coreHost)
    ⟨vmCreate_registry coreHost, hstart⟩ hops).2
  obtain ⟨_, host, hu, hdef, himps⟩ := hbound.wired a ha hlink
  refine ⟨host, hdef, ?_⟩
  intro imp hi hmod
  obtain ⟨hsome, hdefined⟩ := himps imp hi hmod
  obtain ⟨f, hf⟩ := Option.isSome_iff_exists.mp hdefined
  obtain ⟨g, hg⟩ := Option.isSome_iff_exists.mp hsome
  obtain ⟨host', hu', hf'⟩ := hbound.linker imp.name f hf
  refine ⟨f, hf, ?_⟩
  rw [hg, hagree host host' hu hu' imp.name g _ hg hf']

theorem vmAfter_imports_one :
    ∃ host, ((vmAfter listTrees oneRuntime (fun _ => oneHost) none oneModule).module 0).hostDef =
        some host ∧
      ∀ imp ∈ ((vmAfter listTrees oneRuntime (fun _ => oneHost) none oneModule).module 0).imports,
        imp.module = env →
        ∃ f, (vmAfter listTrees oneRuntime (fun _ => oneHost) none oneModule).linker imp.name =
            some f ∧
          resolveHfunc (fun _ => oneHost) none host imp.name = some { f with idx := 0 } :=
  vmAfter_imports listTrees oneRuntime (fun _ => oneHost) none (fun h => h = 0)
    (fun _ _ _ _ _ _ _ hf hf' => Option.some.inj (hf.symm.trans hf')) oneModule
    ⟨trivial, (rfl : (0 : ℕ) = 0), trivial, rfl, trivial⟩ 0 (by decide)
    (by decide)

end NgxWasm.Wavm
