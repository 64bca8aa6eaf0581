import NgxWasm.Wavm.VmRuns

/-!
# What a linked module calls

A function is looked up by its name in a tree that was built from the exports. The imports of an
instance are taken from the linker of the engine, which all modules share and in which a later
link shadows an earlier one; as long as the hosts in use agree on the names they have in common
this makes no difference to a module that was linked before.
-/

namespace NgxWasm.Wavm

open NgxWasm NgxWasm.Lib NgxWasm.Lib.SearchTree
open NgxWasm.Http.Headers (ascii)

/-! ### Modules are found as long as the VM lives -/

theorem vmAfter_append (rb : StrOps) (rt : Runtime) (hosts : ℕ → HostDef) (coreHost : Option ℕ)
    (before after : List VmOp) :
    vmAfter rb rt hosts coreHost (before ++ after) =
      (Run.exec (vmStep rb rt hosts) (vmAfter rb rt hosts coreHost before) after).1 := by
  rw [vmAfter, Run.exec_append]
  rfl

/-- What a filter or an op keeps of a module stays true in the rest of the run. -/
theorem vmAfter_kept (rb : StrOps) (rt : Runtime) (hosts : ℕ → HostDef) (coreHost : Option ℕ)
    (before after : List VmOp) (name : Bytes) (a : ℕ)
    (h : moduleLookup (vmAfter rb rt hosts coreHost before) name = some a) :
    moduleLookup (vmAfter rb rt hosts coreHost (before ++ after)) name = some a ∧
      Kept ((vmAfter rb rt hosts coreHost before).module a)
        ((vmAfter rb rt hosts coreHost (before ++ after)).module a) := by
  have hreg := vmAfter_registry rb rt hosts coreHost before
  obtain ⟨hmem, hname⟩ := (moduleLookup_iff hreg name a).mp h
  obtain ⟨hend, hlater⟩ := exec_registry rb rt hosts after hreg
  rw [vmAfter_append]
  have hkept := hlater.kept a hmem
  exact ⟨(moduleLookup_iff hend name a).mpr ⟨hlater.tree a hmem, hkept.name.trans hname⟩, hkept⟩

/-- Trees of one list each. -/
def listTrees : StrOps := ⟨listOps ℕ nodeKey, listOps Funcref Funcref.key⟩

/-- Compiles every module to one that imports `get` and exports `run`. -/
def oneRuntime : Runtime :=
  ⟨fun _ => none, fun _ => true,
    fun _ => some ([⟨env, ascii "get", .func⟩], [⟨ascii "memory", .memory⟩, ⟨ascii "run", .func⟩])⟩

def oneHost : HostDef := ⟨[], [⟨ascii "get", 7, none, none⟩]⟩

theorem vmAfter_kept_one :
    moduleLookup (vmAfter listTrees oneRuntime (fun _ => oneHost) none
      ([.add (ascii "a") (ascii "a.wasm") none] ++
        [.add (ascii "b") (ascii "b.wasm") none, .init (fun _ => some [0]) true, .load true]))
      (ascii "a") = some 0 :=
  (vmAfter_kept listTrees oneRuntime (fun _ => oneHost) none
    [.add (ascii "a") (ascii "a.wasm") none]
    [.add (ascii "b") (ascii "b.wasm") none, .init (fun _ => some [0]) true, .load true]
    (ascii "a") 0 (by decide)).1

/-! ### Functions by name -/

theorem mem_funcrefs {exports : List Export} {f : Funcref} : ∀ i,
    f ∈ funcrefs i exports ↔
      i ≤ f.exportsIdx ∧ exports[f.exportsIdx - i]? = some ⟨f.name, .func⟩ := by
  induction exports with
  | nil => simp [funcrefs]
  | cons e es ih =>
    intro i
    have hstep : f ∈ funcrefs (i + 1) es ↔
        i < f.exportsIdx ∧ (e :: es)[f.exportsIdx - i]? = some ⟨f.name, .func⟩ := by
      rw [ih (i + 1)]
      by_cases hlt : i < f.exportsIdx
      · have hsucc : f.exportsIdx - i = f.exportsIdx - (i + 1) + 1 := by omega
        rw [hsucc, List.getElem?_cons_succ]
        exact ⟨fun h => ⟨hlt, h.2⟩, fun h => ⟨hlt, h.2⟩⟩
      · exact ⟨fun h => absurd h.1 (by omega), fun h => absurd h.1 hlt⟩
    have hhead : i = f.exportsIdx →
        ((e :: es)[f.exportsIdx - i]? = some ⟨f.name, .func⟩ ↔ e = ⟨f.name, .func⟩) := by
      intro heq
      simp [heq]
    rw [funcrefs]
    split
    · rename_i hk
      rw [List.mem_cons, hstep]
      constructor
      · intro h
        rcases h with h | h
        · subst h
          refine ⟨le_rfl, (hhead rfl).mpr ?_⟩
          rw [← hk]
        · exact ⟨by omega, h.2⟩
      · intro h
        rcases Nat.lt_or_eq_of_le h.1 with hlt | heq
        · exact Or.inr ⟨hlt, h.2⟩
        · have he := (hhead heq).mp h.2
          exact Or.inl (by rw [he, heq])
    · rename_i hk
      rw [hstep]
      constructor
      · intro h
        exact ⟨by omega, h.2⟩
      · intro h
        rcases Nat.lt_or_eq_of_le h.1 with hlt | heq
        · exact ⟨hlt, h.2⟩
        · have he := (hhead heq).mp h.2
          exact absurd (congrArg Export.kind he) hk

theorem funcrefs_names {exports : List Export} (i : ℕ) :
    (funcrefs i exports).map Funcref.name =
      (exports.filter fun e => e.kind = .func).map Export.name := by
  induction exports generalizing i with
  | nil => rfl
  | cons e es ih =>
    rw [funcrefs]
    split
    · rename_i hk
      rw [List.map_cons, ih, List.filter_cons_of_pos (by simpa using hk), List.map_cons]
    · rename_i hk
      rw [ih, List.filter_cons_of_neg (by simpa using hk)]

theorem insertAll_spec (rb : StrOps) (fs : List Funcref) {t : SearchTree.Tree Funcref}
    (h : Ordered Funcref.key t) :
    (insertAll rb t fs).toList.Perm (fs ++ t.toList) ∧ Ordered Funcref.key (insertAll rb t fs) := by
  induction fs generalizing t with
  | nil => exact ⟨List.Perm.refl _, h⟩
  | cons f fs ih =>
    obtain ⟨hperm, hord⟩ := ih (rb.funcs.insert_ordered id t f h)
    refine ⟨hperm.trans ?_, hord⟩
    exact ((rb.funcs.insert_perm id t f).append_left fs).trans List.perm_middle

theorem lookup_insertAll (rb : StrOps) {fs : List Funcref} (hnames : (fs.map Funcref.name).Nodup)
    (name : Bytes) (f : Funcref) :
    lookup Funcref.key (nodeKey name) (insertAll rb .leaf fs) = some f ↔
      f ∈ fs ∧ f.name = name := by
  obtain ⟨hperm, hord⟩ := insertAll_spec rb fs (t := .leaf) List.Pairwise.nil
  have hleaf : fs ++ (SearchTree.Tree.leaf : SearchTree.Tree Funcref).toList = fs :=
    List.append_nil fs
  rw [hleaf] at hperm
  have hkeys : ((insertAll rb .leaf fs).toList.map Funcref.key).Nodup := by
    rw [(hperm.map Funcref.key).nodup_iff]
    have hmap : fs.map Funcref.key = (fs.map Funcref.name).map nodeKey := by
      rw [List.map_map]
      rfl
    rw [hmap]
    exact hnames.map nodeKey_injective
  constructor
  · intro h
    obtain ⟨hm, hk⟩ := lookup_some _ _ _ f h
    exact ⟨hperm.mem_iff.mp hm, nodeKey_injective hk⟩
  · intro h
    rw [← h.2]
    exact lookup_eq_some Funcref.key _ f hord hkeys (hperm.mem_iff.mpr h.1)

/-- The tree of a loaded module holds its function exports. -/
def Indexed (rb : StrOps) (vm : Vm) : Prop :=
  ∀ a ∈ vm.tree.toList, (vm.module a).loaded = true →
    (vm.module a).funcs = insertAll rb .leaf (funcrefs 0 (vm.module a).exports)

theorem indexed_set {rb : StrOps} {vm vm' : Vm} (h : Indexed rb vm) (htree : vm'.tree = vm.tree)
    (hmod : vm'.module = vm.module) {a : ℕ} {m : Module}
    (hm : a ∈ vm.tree.toList → m.loaded = true →
      m.funcs = insertAll rb .leaf (funcrefs 0 m.exports)) : Indexed rb (setModule vm' a m) := by
  intro b hb hl
  have hmem : b ∈ vm.tree.toList := htree ▸ hb
  by_cases hba : b = a
  · subst hba
    rw [setModule_self] at hl ⊢
    exact hm hmem hl
  · rw [setModule_of_ne vm' m hba, hmod] at hl ⊢
    exact h b hmem hl

theorem moduleLoad_indexed (rb : StrOps) (rt : Runtime) {vm : Vm} (h : Indexed rb vm) (a : ℕ) :
    Indexed rb (moduleLoad rb rt vm a).1 := by
  have hspec := moduleLoad_spec rb rt vm a
  generalize moduleLoad rb rt vm a = r at hspec ⊢
  cases hspec with
  | already _ => exact h
  | noBytes _ => exact h
  | failed hold => exact indexed_set h rfl rfl fun _ hl => absurd hl (by simp [hold])
  | refused hold imports exports _ _ =>
    exact indexed_set h rfl rfl fun _ hl => absurd hl (by simp [readModule, hold])
  | done hold imports exports _ _ => exact indexed_set h rfl rfl fun _ _ => rfl

theorem moduleLink_indexed {rb : StrOps} (hosts : ℕ → HostDef) {vm : Vm} (h : Indexed rb vm)
    (a host : ℕ) (define : ℕ → Bool) : Indexed rb (moduleLink hosts vm a host define).1 := by
  have hspec := moduleLink_spec hosts define vm a host
  generalize moduleLink hosts vm a host define = r at hspec ⊢
  cases hspec with
  | unchanged rc => exact h
  | missing hload hlink => exact indexed_set h rfl rfl fun ha _ => h a ha hload
  | undefined hload hlink linker _ => exact indexed_set h rfl rfl fun ha _ => h a ha hload
  | done _ hload _ _ linker _ => exact indexed_set h rfl rfl fun ha _ => h a ha hload

theorem loadBytesOf_indexed {rb : StrOps} (rt : Runtime) (files : Bytes → Option Bytes) {vm : Vm}
    (h : Indexed rb vm) (a : ℕ) : Indexed rb (loadBytesOf rt files vm a).1 := by
  obtain ⟨bytes, got, heq⟩ := moduleLoadBytes_same rt (files (vm.module a).path) (vm.module a)
  simp only [loadBytesOf, heq]
  exact indexed_set h rfl rfl fun ha hl => h a ha hl

theorem vmStep_indexed {rb : StrOps} (rt : Runtime) (hosts : ℕ → HostDef) {vm : Vm}
    (hreg : Registry vm) (h : Indexed rb vm) (op : VmOp) :
    Indexed rb (vmStep rb rt hosts vm op).1 := by
  have hengine : ∀ v ok, Indexed rb v → Indexed rb (engineInit v ok).1 := by
    intro v ok hv
    unfold engineInit
    split
    · exact hv
    · split
      · exact hv
      · exact hv
  cases op with
  | add name path config =>
    simp only [vmStep, moduleAdd]
    split
    · exact h
    split
    · exact h
    · intro a ha hl
      have hperm := rb.modules.insert_perm
        (fun a => (Function.update vm.module vm.next (newModule name path config) a).name)
        vm.tree vm.next
      rcases List.mem_cons.mp (hperm.mem_iff.mp ha) with rfl | ha
      · rw [insertModule_self] at hl
        exact absurd hl (by simp [newModule, blankModule])
      · have hne : a ≠ vm.next := by
          have := hreg.used a ha
          omega
        rw [insertModule_of_ne rb vm _ hne] at hl ⊢
        exact h a ha hl
  | init files ok =>
    apply vmInit_invariant (hengine vm ok h)
    · intro v hv a _
      exact loadBytesOf_indexed rt files hv a
    · intro v hv
      unfold engineDestroy
      split
      · exact hv
      · exact hv
  | load ok =>
    apply vmLoad_invariant (hengine vm ok h) fun _ => hengine vm ok h
    · intro v hv a _
      exact moduleLoad_indexed rb rt hv a
    · intro v hv
      exact hv
    · intro v hv
      exact hv
  | link name host define =>
    simp only [vmStep]
    cases moduleLookup vm name with
    | none => exact h
    | some a => exact moduleLink_indexed hosts h a host define

theorem vmAfter_indexed (rb : StrOps) (rt : Runtime) (hosts : ℕ → HostDef) (coreHost : Option ℕ)
    (ops : List VmOp) : Indexed rb (vmAfter rb rt hosts coreHost ops) := by
  have hstep : ∀ vm op, Registry vm ∧ Indexed rb vm → True →
      Registry (vmStep rb rt hosts vm op).1 ∧ Indexed rb (vmStep rb rt hosts vm op).1 := by
    intro vm op h _
    exact ⟨(vmStep_registry rb rt hosts h.1 op).1, vmStep_indexed rt hosts h.1 h.2 op⟩
  refine (Run.exec_invariant (vmStep rb rt hosts) (fun _ _ => True)
    (fun vm => Registry vm ∧ Indexed rb vm) hstep ops (vmCreate coreHost) ?_ ?_).2
  · exact ⟨vmCreate_registry coreHost,
      fun a ha => absurd ha (by simp [vmCreate, SearchTree.Tree.toList])⟩
  · exact Run.meets_of_forall _ (fun _ => True) ops _ fun _ _ => trivial

/-- In every run the function that is found under a name is the function export of that name. -/
theorem vmAfter_func_lookup (rb : StrOps) (rt : Runtime) (hosts : ℕ → HostDef)
    (coreHost : Option ℕ) (ops : List VmOp) (a : ℕ)
    (ha : a ∈ (vmAfter rb rt hosts coreHost ops).tree.toList)
    (hunique : (((vmAfter rb rt hosts coreHost ops).module a).exports.map Export.name).Nodup)
    (name : Bytes) (f : Funcref) :
    moduleFuncLookup ((vmAfter rb rt hosts coreHost ops).module a) name = some f ↔
      ((vmAfter rb rt hosts coreHost ops).module a).loaded = true ∧ f.name = name ∧
        ((vmAfter rb rt hosts coreHost ops).module a).exports[f.exportsIdx]? =
          some ⟨name, .func⟩ := by
  have hindexed := vmAfter_indexed rb rt hosts coreHost ops a ha
  generalize (vmAfter rb rt hosts coreHost ops).module a = m at hunique hindexed ⊢
  rw [moduleFuncLookup]
  cases hl : m.loaded with
  | false => simp
  | true =>
    have hnames : ((funcrefs 0 m.exports).map Funcref.name).Nodup := by
      rw [funcrefs_names]
      exact hunique.sublist (List.filter_sublist.map _)
    rw [if_pos rfl, hindexed hl, lookup_insertAll rb hnames, mem_funcrefs]
    constructor
    · intro h
      refine ⟨rfl, h.2, ?_⟩
      rw [← h.2]
      exact h.1.2
    · intro h
      refine ⟨⟨Nat.zero_le _, ?_⟩, h.2.1⟩
      rw [h.2.1]
      exact h.2.2

/-- One module that is added, loaded and linked. -/
def oneModule : List VmOp :=
  [.add (ascii "a") (ascii "a.wasm") none, .init (fun _ => some [0]) true, .load true,
    .link (ascii "a") 0 fun _ => true]

theorem vmAfter_func_lookup_one :
    moduleFuncLookup ((vmAfter listTrees oneRuntime (fun _ => oneHost) none oneModule).module 0)
      (ascii "run") = some ⟨ascii "run", 1⟩ :=
  (vmAfter_func_lookup listTrees oneRuntime (fun _ => oneHost) none oneModule 0
    (by decide) (by decide) (ascii "run") ⟨ascii "run", 1⟩).mpr
    (by decide)

/-! ### Host functions by name -/

theorem hfuncCreate_idx {host : HostDef} {name : Bytes} {h : Hfunc}
    (hc : hfuncCreate host name = some h) : h.idx = 0 := by
  rw [hfuncCreate, Option.map_eq_some_iff] at hc
  obtain ⟨f, _, rfl⟩ := hc
  rfl

theorem resolveHfunc_idx {hosts : ℕ → HostDef} {coreHost : Option ℕ} {host : ℕ} {name : Bytes}
    {h : Hfunc} (hr : resolveHfunc hosts coreHost host name = some h) : h.idx = 0 := by
  rw [resolveHfunc, Option.orElse_eq_orElse, Option.orElse_eq_or, Option.or_eq_some_iff] at hr
  rcases hr with hr | ⟨_, hr⟩
  · exact hfuncCreate_idx hr
  · obtain ⟨core, _, hc⟩ := Option.bind_eq_some_iff.mp hr
    exact hfuncCreate_idx hc

/-- What is pushed for an import is the function that was created for its name. -/
theorem linkImports_pushed {create : Bytes → Option Hfunc}
    (hidx : ∀ name h, create name = some h → h.idx = 0) {imps : List Import} {h : Hfunc} : ∀ i,
    h ∈ (linkImports create i imps).1 → ∃ imp, i ≤ h.idx ∧ imps[h.idx - i]? = some imp ∧
      imp.module = env ∧ create imp.name = some { h with idx := 0 } := by
  induction imps with
  | nil =>
    intro i hm
    exact absurd hm (by simp [linkImports])
  | cons imp imps ih =>
    intro i hm
    have hrest : h ∈ (linkImports create (i + 1) imps).1 → ∃ imp', i ≤ h.idx ∧
        (imp :: imps)[h.idx - i]? = some imp' ∧ imp'.module = env ∧
          create imp'.name = some { h with idx := 0 } := by
      intro hm
      obtain ⟨imp', hle, hget, hmod, hc⟩ := ih (i + 1) hm
      have hsucc : h.idx - i = h.idx - (i + 1) + 1 := by omega
      refine ⟨imp', by omega, ?_, hmod, hc⟩
      rw [hsucc, List.getElem?_cons_succ]
      exact hget
    rw [linkImports] at hm
    split at hm
    · exact hrest hm
    · rename_i hmod
      cases hc : create imp.name with
      | none =>
        rw [hc] at hm
        exact absurd hm (by simp)
      | some f =>
        rw [hc] at hm
        rcases List.mem_cons.mp hm with rfl | hm
        · refine ⟨imp, le_rfl, by simp, not_not.mp hmod, ?_⟩
          rw [hc, ← hidx _ f hc]
        · exact hrest hm

/-- A loop that got to its end has a function for each import from `env`. -/
theorem linkImports_complete {create : Bytes → Option Hfunc} {imps : List Import} : ∀ i,
    (linkImports create i imps).2 = true → ∀ imp ∈ imps, imp.module = env →
      (create imp.name).isSome = true ∧ ∃ h ∈ (linkImports create i imps).1,
        i ≤ h.idx ∧ imps[h.idx - i]? = some imp := by
  induction imps with
  | nil =>
    intro i _ imp hm
    exact absurd hm (by simp)
  | cons x imps ih =>
    intro i hall imp hm hmod
    have hrest : (linkImports create (i + 1) imps).2 = true → imp ∈ imps →
        (create imp.name).isSome = true ∧ ∃ h ∈ (linkImports create (i + 1) imps).1,
          i ≤ h.idx ∧ (x :: imps)[h.idx - i]? = some imp := by
      intro hall hm
      obtain ⟨hsome, h, hh, hle, hget⟩ := ih (i + 1) hall imp hm hmod
      have hsucc : h.idx - i = h.idx - (i + 1) + 1 := by omega
      refine ⟨hsome, h, hh, by omega, ?_⟩
      rw [hsucc, List.getElem?_cons_succ]
      exact hget
    rw [linkImports] at hall ⊢
    split at hall
    · rename_i hx
      rw [if_pos hx]
      rcases List.mem_cons.mp hm with rfl | hm
      · exact absurd hmod hx
      · exact hrest hall hm
    · rename_i hx
      rw [if_neg hx]
      cases hc : create x.name with
      | none =>
        rw [hc] at hall
        exact absurd hall (by simp)
      | some f =>
        rw [hc] at hall
        simp only at hall ⊢
        rcases List.mem_cons.mp hm with rfl | hm
        · exact ⟨by rw [hc]; rfl, _, List.mem_cons_self .., le_rfl, by simp⟩
        · obtain ⟨hsome, h, hh, hspec⟩ := hrest hall hm
          exact ⟨hsome, h, List.mem_cons_of_mem _ hh, hspec⟩

/-! ### The linker -/

theorem wrtModuleLink_from (imports : List Import) (define : ℕ → Bool) (hs : List Hfunc) :
    ∀ (j : ℕ) (l : Linker) (name : Bytes) (f : Hfunc),
      (wrtModuleLink imports define j hs l).1 name = some f →
        l name = some f ∨ f ∈ hs ∧ ∃ imp, imports[f.idx]? = some imp ∧ imp.name = name := by
  induction hs with
  | nil =>
    intro j l name f h
    exact Or.inl h
  | cons x hs ih =>
    intro j l name f h
    have hrest : ∀ l', (wrtModuleLink imports define (j + 1) hs l').1 name = some f →
        l' name = some f ∨ f ∈ x :: hs ∧ ∃ imp, imports[f.idx]? = some imp ∧ imp.name = name := by
      intro l' h
      rcases ih (j + 1) l' name f h with h | ⟨hm, himp⟩
      · exact Or.inl h
      · exact Or.inr ⟨List.mem_cons_of_mem _ hm, himp⟩
    rw [wrtModuleLink] at h
    cases himp : imports[x.idx]? with
    | none =>
      rw [himp] at h
      exact Or.inl h
    | some imp =>
      rw [himp] at h
      simp only at h
      split at h
      · exact hrest l h
      split at h
      · rcases hrest _ h with h | h
        · by_cases hn : name = imp.name
          · subst hn
            rw [Function.update_self] at h
            have hx := Option.some.inj h
            subst hx
            exact Or.inr ⟨List.mem_cons_self .., imp, himp, rfl⟩
          · rw [Function.update_of_ne hn] at h
            exact Or.inl h
        · exact Or.inr h
      · exact Or.inl h

theorem wrtModuleLink_mono (imports : List Import) (define : ℕ → Bool) (hs : List Hfunc) :
    ∀ (j : ℕ) (l : Linker) (name : Bytes), (l name).isSome = true →
      ((wrtModuleLink imports define j hs l).1 name).isSome = true := by
  induction hs with
  | nil =>
    intro j l name h
    exact h
  | cons x hs ih =>
    intro j l name h
    rw [wrtModuleLink]
    split
    · exact h
    split
    · exact ih _ _ name h
    split
    · apply ih
      rename_i imp _ _ _
      by_cases hn : name = imp.name
      · rw [hn, Function.update_self]
        rfl
      · rw [Function.update_of_ne hn]
        exact h
    · exact h

theorem wrtModuleLink_defines (imports : List Import) (define : ℕ → Bool) (hs : List Hfunc) :
    ∀ (j : ℕ) (l : Linker), (wrtModuleLink imports define j hs l).2 = true →
      ∀ h ∈ hs, ∀ imp, imports[h.idx]? = some imp → imp.module = env →
        ((wrtModuleLink imports define j hs l).1 imp.name).isSome = true := by
  induction hs with
  | nil =>
    intro j l _ h hm
    exact absurd hm (by simp)
  | cons x hs ih =>
    intro j l hall h hm imp himp hmod
    rw [wrtModuleLink] at hall ⊢
    cases hx : imports[x.idx]? with
    | none =>
      rw [hx] at hall
      exact absurd hall (by simp)
    | some imp' =>
      rw [hx] at hall
      simp only at hall ⊢
      split at hall
      · rename_i hother
        rw [if_pos hother]
        rcases List.mem_cons.mp hm with rfl | hm
        · rw [hx] at himp
          exact absurd ((Option.some.inj himp) ▸ hmod) hother
        · exact ih _ _ hall h hm imp himp hmod
      · rename_i hown
        rw [if_neg hown]
        split at hall
        · rename_i hdef
          rw [if_pos hdef]
          rcases List.mem_cons.mp hm with rfl | hm
          · apply wrtModuleLink_mono
            rw [hx] at himp
            rw [Option.some.inj himp, Function.update_self]
            rfl
          · exact ih _ _ hall h hm imp himp hmod
        · exact absurd hall (by simp)

end NgxWasm.Wavm
