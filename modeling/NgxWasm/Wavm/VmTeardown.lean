import NgxWasm.Wavm.VmLinks

/-!
# The end of the VM

The engine and the compiled modules of the runtime over a whole run and `ngx_wavm_destroy`
(ngx_wavm.c 284-319, 789-854). A module that was compiled and then refused for an import that is no
function is not marked as loaded, so `ngx_wavm_module_destroy` passes it over.
-/

namespace NgxWasm.Wavm

open NgxWasm NgxWasm.Lib NgxWasm.Lib.SearchTree
open NgxWasm.Http.Headers (ascii)
open NgxWasm.Lib.Ledger (Proper held)

variable {rb : StrOps} {rt : Runtime} {hosts : ℕ → HostDef}

/-- Every module that compiles has only functions among its imports. -/
def FuncImports (rt : Runtime) : Prop :=
  ∀ bytes imports exports, rt.moduleInit bytes = some (imports, exports) →
    ∀ i ∈ imports, i.kind = .func

/-! ### The module loads of a run -/

/-- The loads of the loop over the modules, each with the VM before it. -/
def eachLoad (rb : StrOps) (rt : Runtime) : List ℕ → Vm → List (Vm × ℕ)
  | [], _ => []
  | a :: as, vm =>
    (vm, a) :: match moduleLoad rb rt vm a with
      | (vm, .ok, _) => eachLoad rb rt as vm
      | _ => []

def stepLoads (rb : StrOps) (rt : Runtime) (vm : Vm) : VmOp → List (Vm × ℕ)
  | .load ok =>
    match engineInit vm ok with
    | (vm, .ok, _) => eachLoad rb rt vm.tree.toList vm
    | _ => []
  | _ => []

def runLoads (rb : StrOps) (rt : Runtime) (hosts : ℕ → HostDef) : Vm → List VmOp → List (Vm × ℕ)
  | _, [] => []
  | vm, op :: ops => stepLoads rb rt vm op ++ runLoads rb rt hosts (vmStep rb rt hosts vm op).1 ops

/-- The load of a module that is compiled and has an import that is no function. -/
def Refused (rt : Runtime) (x : Vm × ℕ) : Prop :=
  (x.1.module x.2).loaded = false ∧ (x.1.module x.2).loadedBytes = true ∧
    ∃ imports exports, rt.moduleInit (x.1.module x.2).bytes = some (imports, exports) ∧
      ∃ i ∈ imports, i.kind ≠ .func

/-- The compiled modules of the refused loads. -/
def RefusedModule (rt : Runtime) (loads : List (Vm × ℕ)) (n : ℕ) : Prop :=
  ∃ x ∈ loads, Refused rt x ∧ x.1.objects = n

theorem refusedModule_append {loads more : List (Vm × ℕ)} {n : ℕ} :
    RefusedModule rt (loads ++ more) n ↔ RefusedModule rt loads n ∨ RefusedModule rt more n := by
  simp only [RefusedModule, List.mem_append, or_and_right, exists_or]

theorem refusedModule_singleton {x : Vm × ℕ} {n : ℕ} :
    RefusedModule rt [x] n ↔ Refused rt x ∧ x.1.objects = n := by
  simp [RefusedModule]

theorem not_refused {rt : Runtime} (h : FuncImports rt) (x : Vm × ℕ) : ¬Refused rt x := by
  rintro ⟨-, -, imports, exports, hinit, i, hi, hkind⟩
  exact hkind (h _ imports exports hinit i hi)

/-! ### What the VM owns -/

def Res.number : Res → ℕ
  | .engine n => n
  | .module n => n

/-- `l` is what is held after the loads. -/
structure Owned (rt : Runtime) (vm : Vm) (loads : List (Vm × ℕ)) (l : List Res) : Prop where
  nodup : l.Nodup
  made : ∀ r ∈ l, r.number < vm.objects
  engine : ∀ n, .engine n ∈ l ↔ vm.initialised = true ∧ n = vm.wrtEngine
  modules : ∀ a ∈ vm.tree.toList, (vm.module a).loaded = true →
    .module (vm.module a).wrtModule ∈ l
  distinct : ∀ a ∈ vm.tree.toList, ∀ b ∈ vm.tree.toList, (vm.module a).loaded = true →
    (vm.module b).loaded = true → (vm.module a).wrtModule = (vm.module b).wrtModule → a = b
  apart : ∀ a ∈ vm.tree.toList, (vm.module a).loaded = true →
    ¬RefusedModule rt loads (vm.module a).wrtModule
  kept : ∀ n, .module n ∈ l ↔
    (∃ a ∈ vm.tree.toList, (vm.module a).loaded = true ∧ (vm.module a).wrtModule = n) ∨
      RefusedModule rt loads n

theorem Owned.fresh {vm : Vm} {loads : List (Vm × ℕ)} {l : List Res}
    (h : Owned rt vm loads l) {r : Res}
    (hr : r.number = vm.objects) : r ∉ l := by
  intro hm
  have := h.made r hm
  omega

/-- From what `vm` holds the calls `acts` lead to what `vm'` holds after the loads `more`. -/
def Balances (rt : Runtime) (vm vm' : Vm) (acts : Acts) (more : List (Vm × ℕ)) : Prop :=
  ∀ loads l, Owned rt vm loads l →
    Proper l acts ∧ Owned rt vm' (loads ++ more) (held l acts)

theorem balances_nil {vm vm' : Vm}
    (h : ∀ loads l, Owned rt vm loads l → Owned rt vm' loads l) : Balances rt vm vm' [] [] := by
  intro loads l hl
  rw [List.append_nil]
  exact ⟨trivial, h loads l hl⟩

theorem Balances.refl (vm : Vm) : Balances rt vm vm [] [] := balances_nil fun _ _ h => h

theorem Balances.trans {vm vm' vm'' : Vm} {t u : Acts} {ms ns : List (Vm × ℕ)}
    (h : Balances rt vm vm' t ms) (h' : Balances rt vm' vm'' u ns) :
    Balances rt vm vm'' (t ++ u) (ms ++ ns) := by
  intro loads l hl
  obtain ⟨hp, hmid⟩ := h loads l hl
  obtain ⟨hp', hend⟩ := h' _ _ hmid
  rw [Ledger.proper_append, Ledger.held_append, ← List.append_assoc]
  exact ⟨⟨hp, hp'⟩, hend⟩

/-! ### One module changes -/

/-- The flag and the handle of the module stay. -/
theorem owned_set {vm vm' : Vm} {loads : List (Vm × ℕ)} {l : List Res}
    (h : Owned rt vm loads l) (htree : vm'.tree = vm.tree)
    (hmod : vm'.module = vm.module) (hinit : vm'.initialised = vm.initialised)
    (hengine : vm'.wrtEngine = vm.wrtEngine) (hobj : vm.objects ≤ vm'.objects) {a : ℕ} {m : Module}
    (hload : m.loaded = (vm.module a).loaded)
    (hwrt : m.loaded = true → m.wrtModule = (vm.module a).wrtModule) :
    Owned rt (setModule vm' a m) loads l := by
  have hloads : ∀ b, ((setModule vm' a m).module b).loaded = (vm.module b).loaded := by
    intro b
    by_cases hb : b = a
    · rw [hb, setModule_self, hload]
    · rw [setModule_of_ne vm' m hb, hmod]
  have hwrts : ∀ b, (vm.module b).loaded = true →
      ((setModule vm' a m).module b).wrtModule = (vm.module b).wrtModule := by
    intro b hb
    by_cases hba : b = a
    · rw [hba, setModule_self]
      exact hwrt (hload.trans (hba ▸ hb))
    · rw [setModule_of_ne vm' m hba, hmod]
  have hmem : (setModule vm' a m).tree = vm.tree := htree
  constructor
  · exact h.nodup
  · exact fun r hr => lt_of_lt_of_le (h.made r hr) hobj
  · intro n
    rw [h.engine n, ← hinit, ← hengine]
    exact Iff.rfl
  · intro b hb hl
    rw [hmem] at hb
    rw [hloads] at hl
    rw [hwrts b hl]
    exact h.modules b hb hl
  · intro b hb c hc hlb hlc heq
    rw [hmem] at hb hc
    rw [hloads] at hlb hlc
    rw [hwrts b hlb, hwrts c hlc] at heq
    exact h.distinct b hb c hc hlb hlc heq
  · intro b hb hl
    rw [hmem] at hb
    rw [hloads] at hl
    rw [hwrts b hl]
    exact h.apart b hb hl
  · intro n
    rw [h.kept n, hmem]
    refine or_congr_left (exists_congr fun b => and_congr_right fun _ => ?_)
    rw [hloads]
    exact and_congr_right fun hl => by rw [hwrts b hl]

/-- One more load that is not refused. -/
theorem owned_load {vm : Vm} {loads : List (Vm × ℕ)} {l : List Res} (h : Owned rt vm loads l)
    {x : Vm × ℕ} (hx : ¬Refused rt x) : Owned rt vm (loads ++ [x]) l := by
  have hsame : ∀ n, RefusedModule rt (loads ++ [x]) n ↔ RefusedModule rt loads n := by
    intro n
    rw [refusedModule_append, refusedModule_singleton]
    exact or_iff_left fun hn => hx hn.1
  refine ⟨h.nodup, h.made, h.engine, h.modules, h.distinct, ?_, ?_⟩
  · intro a ha hl
    rw [hsame]
    exact h.apart a ha hl
  · intro n
    rw [hsame]
    exact h.kept n

/-- A compiled module that no module of the tree is loaded with. -/
theorem owned_refused {vm : Vm} {loads : List (Vm × ℕ)} {l : List Res} (h : Owned rt vm loads l)
    {x : Vm × ℕ} (hx : Refused rt x) (hn : x.1.objects < vm.objects)
    (hnew : .module x.1.objects ∉ l) :
    Owned rt vm (loads ++ [x]) (.module x.1.objects :: l) := by
  constructor
  · exact List.nodup_cons.mpr ⟨hnew, h.nodup⟩
  · intro r hr
    rcases List.mem_cons.mp hr with rfl | hr
    · exact hn
    · exact h.made r hr
  · intro k
    rw [← h.engine k]
    simp
  · exact fun a ha hl => List.mem_cons_of_mem _ (h.modules a ha hl)
  · exact h.distinct
  · intro a ha hl
    rw [refusedModule_append, refusedModule_singleton]
    rintro (hr | ⟨-, heq⟩)
    · exact h.apart a ha hl hr
    · exact hnew (heq ▸ h.modules a ha hl)
  · intro n
    rw [refusedModule_append, refusedModule_singleton, List.mem_cons, h.kept n, Res.module.injEq,
      and_iff_right hx, eq_comm, or_comm, or_assoc]

theorem owned_loaded {vm vm' : Vm} {loads : List (Vm × ℕ)} {l : List Res}
    (h : Owned rt vm loads l) (htree : vm'.tree = vm.tree)
    (hmod : vm'.module = vm.module) (hinit : vm'.initialised = vm.initialised)
    (hengine : vm'.wrtEngine = vm.wrtEngine) (hobj : vm'.objects = vm.objects + 1) {a : ℕ}
    {m : Module} (ha : a ∈ vm.tree.toList) (hold : (vm.module a).loaded = false)
    (hload : m.loaded = true) (hwrt : m.wrtModule = vm.objects) :
    Owned rt (setModule vm' a m) loads (.module vm.objects :: l) := by
  have hmem : (setModule vm' a m).tree = vm.tree := htree
  have hself : (setModule vm' a m).module a = m := setModule_self vm' a m
  have hother : ∀ b, b ≠ a → (setModule vm' a m).module b = vm.module b := by
    intro b hb
    rw [setModule_of_ne vm' m hb, hmod]
  have hbefore : ∀ b ∈ vm.tree.toList, (vm.module b).loaded = true →
      (vm.module b).wrtModule ≠ vm.objects := by
    intro b hb hl heq
    have := h.made _ (h.modules b hb hl)
    simp only [Res.number] at this
    omega
  constructor
  · exact List.nodup_cons.mpr ⟨h.fresh rfl, h.nodup⟩
  · intro r hr
    show r.number < vm'.objects
    rw [hobj]
    rcases List.mem_cons.mp hr with rfl | hr
    · exact Nat.lt_succ_self _
    · exact Nat.lt_succ_of_lt (h.made r hr)
  · intro n
    show Res.engine n ∈ _ ↔ vm'.initialised = true ∧ n = vm'.wrtEngine
    rw [hinit, hengine, ← h.engine n]
    simp
  · intro b hb hl
    rw [hmem] at hb
    by_cases hba : b = a
    · rw [hba, hself, hwrt]
      exact List.mem_cons_self ..
    · rw [hother b hba] at hl ⊢
      exact List.mem_cons_of_mem _ (h.modules b hb hl)
  · intro b hb c hc hlb hlc heq
    rw [hmem] at hb hc
    by_cases hba : b = a
    · by_cases hca : c = a
      · rw [hba, hca]
      · rw [hother c hca] at hlc heq
        rw [hba, hself, hwrt] at heq
        exact absurd heq.symm (hbefore c hc hlc)
    · rw [hother b hba] at hlb heq
      by_cases hca : c = a
      · rw [hca, hself, hwrt] at heq
        exact absurd heq (hbefore b hb hlb)
      · rw [hother c hca] at hlc heq
        exact h.distinct b hb c hc hlb hlc heq
  · intro b hb hl
    rw [hmem] at hb
    by_cases hba : b = a
    · rw [hba, hself, hwrt]
      intro hr
      exact h.fresh (r := .module vm.objects) rfl ((h.kept _).mpr (.inr hr))
    · rw [hother b hba] at hl ⊢
      exact h.apart b hb hl
  · intro n
    rw [hmem, List.mem_cons, h.kept n, ← or_assoc]
    refine or_congr_left ?_
    constructor
    · rintro (heq | ⟨b, hb, hl, heq⟩)
      · exact ⟨a, ha, by rw [hself, hload], by rw [hself, hwrt, Res.module.inj heq]⟩
      · have hba : b ≠ a := by
          rintro rfl
          exact absurd hl (by simp [hold])
        exact ⟨b, hb, by rw [hother b hba, hl], by rw [hother b hba, heq]⟩
    · rintro ⟨b, hb, hl, heq⟩
      by_cases hba : b = a
      · rw [hba, hself, hwrt] at heq
        exact .inl (congrArg Res.module heq.symm)
      · rw [hother b hba] at hl heq
        exact .inr ⟨b, hb, hl, heq⟩

/-! ### The operations -/

theorem moduleLoad_balances (rb : StrOps) (vm : Vm) {a : ℕ} (ha : a ∈ vm.tree.toList) :
    Balances rt vm (moduleLoad rb rt vm a).1 (moduleLoad rb rt vm a).2.2 [(vm, a)] := by
  have hspec := moduleLoad_spec rb rt vm a
  generalize moduleLoad rb rt vm a = r at hspec ⊢
  intro loads l hl
  cases hspec with
  | already h => exact ⟨trivial, owned_load hl fun hx => absurd hx.1 (by simp [h])⟩
  | noBytes h hbytes =>
    exact ⟨trivial, owned_load hl fun hx => absurd hx.2.1 (by simp [hbytes])⟩
  | failed h hinit =>
    have hx : ¬Refused rt (vm, a) := by
      rintro ⟨-, -, imports, exports, hsome, -⟩
      rw [hinit] at hsome
      cases hsome
    refine ⟨trivial, owned_load ?_ hx⟩
    exact owned_set hl rfl rfl rfl rfl le_rfl rfl fun _ => rfl
  | refused h imports exports hinit hkind hbytes =>
    have hset : Owned rt (setModule { vm with objects := vm.objects + 1 } a
        { readModule vm a imports exports with invalid := true }) loads l := by
      apply owned_set hl (by rfl) (by rfl) (by rfl) (by rfl) (Nat.le_succ _) (by rfl)
      intro hload
      exact absurd hload (by simp [readModule, h])
    exact ⟨⟨hl.fresh rfl, trivial⟩,
      owned_refused (x := (vm, a)) hset ⟨h, hbytes, imports, exports, hinit, hkind⟩
        (Nat.lt_succ_self vm.objects) (hl.fresh rfl)⟩
  | done h imports exports hinit hkind =>
    have hx : ¬Refused rt (vm, a) := by
      rintro ⟨-, -, imports', exports', hsome, i, hi, hno⟩
      rw [hinit] at hsome
      cases hsome
      exact hno (hkind i hi)
    refine ⟨⟨hl.fresh rfl, trivial⟩, owned_load ?_ hx⟩
    exact owned_loaded hl (by rfl) (by rfl) (by rfl) (by rfl) (by rfl) ha h (by rfl) (by rfl)

theorem loadBytesOf_balances (files : Bytes → Option Bytes) (vm : Vm) (a : ℕ) :
    Balances rt vm (loadBytesOf rt files vm a).1 (loadBytesOf rt files vm a).2.2 [] := by
  obtain ⟨bytes, got, heq⟩ := moduleLoadBytes_same rt (files (vm.module a).path) (vm.module a)
  apply balances_nil
  intro loads l hl
  simp only [loadBytesOf, heq]
  exact owned_set hl rfl rfl rfl rfl le_rfl rfl fun _ => rfl

theorem eachBytes_balances (files : Bytes → Option Bytes) (as : List ℕ) {vm : Vm} :
    Balances rt vm (eachModule (loadBytesOf rt files) as vm).1
      (eachModule (loadBytesOf rt files) as vm).2.2 [] := by
  induction as generalizing vm with
  | nil => exact Balances.refl vm
  | cons a as ih =>
    have hone : Balances rt vm (loadBytesOf rt files vm a).1 (loadBytesOf rt files vm a).2.2 [] :=
      loadBytesOf_balances files vm a
    rcases hfa : loadBytesOf rt files vm a with ⟨vm', rc, acts⟩
    rw [hfa] at hone
    simp only [eachModule, hfa]
    split
    · rename_i vm'' acts' heq
      obtain ⟨rfl, hrest⟩ := Prod.ext_iff.mp heq
      obtain rfl : acts = acts' := (Prod.ext_iff.mp hrest).2
      exact hone.trans ih
    · exact hone

theorem eachModule_balances (rb : StrOps) (as : List ℕ) {vm : Vm}
    (has : ∀ a ∈ as, a ∈ vm.tree.toList) :
    Balances rt vm (eachModule (moduleLoad rb rt) as vm).1
      (eachModule (moduleLoad rb rt) as vm).2.2 (eachLoad rb rt as vm) := by
  induction as generalizing vm with
  | nil => exact Balances.refl vm
  | cons a as ih =>
    have hone : Balances rt vm (moduleLoad rb rt vm a).1 (moduleLoad rb rt vm a).2.2 [(vm, a)] :=
      moduleLoad_balances rb vm (has a (List.mem_cons_self ..))
    have hsame := moduleLoad_tree rb rt vm a
    rcases hfa : moduleLoad rb rt vm a with ⟨vm', rc, acts⟩
    rw [hfa] at hone hsame
    simp only [eachModule, eachLoad, hfa]
    cases rc with
    | ok =>
      refine hone.trans (ih fun b hb => ?_)
      rw [show vm'.tree = vm.tree from hsame]
      exact has b (List.mem_cons_of_mem _ hb)
    | _ => exact hone

theorem engineInit_balances (vm : Vm) (ok : Bool) :
    Balances rt vm (engineInit vm ok).1 (engineInit vm ok).2.2 [] := by
  unfold engineInit
  split
  · exact Balances.refl vm
  rename_i hinit
  split
  · intro loads l hl
    rw [List.append_nil]
    refine ⟨⟨hl.fresh rfl, trivial⟩, ?_⟩
    constructor
    · exact List.nodup_cons.mpr ⟨hl.fresh rfl, hl.nodup⟩
    · intro r hr
      rcases List.mem_cons.mp hr with rfl | hr
      · exact Nat.lt_succ_self _
      · exact Nat.lt_succ_of_lt (hl.made r hr)
    · intro n
      have hnone : Res.engine n ∉ l := fun hm => hinit ((hl.engine n).mp hm).1
      simp [hnone, held]
    · exact fun a ha hload => List.mem_cons_of_mem _ (hl.modules a ha hload)
    · exact hl.distinct
    · exact hl.apart
    · intro n
      rw [← hl.kept n]
      simp [held]
  · exact Balances.refl vm

theorem engineDestroy_balances (vm : Vm) :
    Balances rt vm (engineDestroy vm).1 (engineDestroy vm).2 [] := by
  unfold engineDestroy
  split
  · rename_i hinit
    intro loads l hl
    rw [List.append_nil]
    refine ⟨⟨(hl.engine _).mpr ⟨hinit, rfl⟩, trivial⟩, ?_⟩
    have herase : ∀ r, r ∈ l.erase (.engine vm.wrtEngine) ↔ r ≠ .engine vm.wrtEngine ∧ r ∈ l :=
      fun r => hl.nodup.mem_erase_iff
    constructor
    · exact hl.nodup.erase _
    · exact fun r hr => hl.made r ((herase r).mp hr).2
    · intro n
      constructor
      · intro hn
        obtain ⟨hne, hm⟩ := (herase _).mp hn
        exact absurd (congrArg Res.engine ((hl.engine n).mp hm).2) hne
      · intro hn
        exact absurd hn.1 (by simp)
    · exact fun a ha hload => (herase _).mpr ⟨by simp, hl.modules a ha hload⟩
    · exact hl.distinct
    · exact hl.apart
    · intro n
      rw [← hl.kept n]
      simp [held, herase]
  · exact Balances.refl vm

theorem moduleAdd_owned {vm : Vm} (hreg : Registry vm) {loads : List (Vm × ℕ)} {l : List Res}
    (h : Owned rt vm loads l) (name path : Bytes) (config : Option Bytes) :
    Owned rt (moduleAdd rb vm name path config).1 loads l := by
  unfold moduleAdd
  split
  · exact h
  split
  · exact h
  have hperm := rb.modules.insert_perm
    (fun a => (Function.update vm.module vm.next (newModule name path config) a).name)
    vm.tree vm.next
  have hself : (insertModule rb vm (newModule name path config)).module vm.next =
      newModule name path config := insertModule_self rb vm _
  -- the new module is not loaded
  have hold : ∀ a ∈ (insertModule rb vm (newModule name path config)).tree.toList,
      ((insertModule rb vm (newModule name path config)).module a).loaded = true →
      a ∈ vm.tree.toList ∧
        (insertModule rb vm (newModule name path config)).module a = vm.module a := by
    intro a ha hl
    rcases List.mem_cons.mp (hperm.mem_iff.mp ha) with rfl | ha
    · rw [hself] at hl
      exact absurd hl (by simp [newModule, blankModule])
    · have := hreg.used a ha
      exact ⟨ha, insertModule_of_ne rb vm _ (by omega)⟩
  constructor
  · exact h.nodup
  · exact h.made
  · exact h.engine
  · intro a ha hl
    obtain ⟨hm, heq⟩ := hold a ha hl
    rw [heq] at hl ⊢
    exact h.modules a hm hl
  · intro a ha b hb hla hlb heq
    obtain ⟨hma, hea⟩ := hold a ha hla
    obtain ⟨hmb, heb⟩ := hold b hb hlb
    rw [hea] at hla heq
    rw [heb] at hlb heq
    exact h.distinct a hma b hmb hla hlb heq
  · intro a ha hl
    obtain ⟨hm, heq⟩ := hold a ha hl
    rw [heq] at hl ⊢
    exact h.apart a hm hl
  · intro n
    rw [h.kept n]
    refine or_congr_left ⟨?_, ?_⟩
    · rintro ⟨a, ha, hl, heq⟩
      have := hreg.used a ha
      have hsame : (insertModule rb vm (newModule name path config)).module a = vm.module a :=
        insertModule_of_ne rb vm _ (by omega)
      refine ⟨a, hperm.mem_iff.mpr (List.mem_cons_of_mem _ ha), ?_, ?_⟩
      · rw [hsame, hl]
      · rw [hsame, heq]
    · rintro ⟨a, ha, hl, heq⟩
      obtain ⟨hm, hsame⟩ := hold a ha hl
      exact ⟨a, hm, hsame ▸ hl, hsame ▸ heq⟩

theorem moduleLink_owned {vm : Vm} {loads : List (Vm × ℕ)} {l : List Res}
    (h : Owned rt vm loads l) (a host : ℕ) (define : ℕ → Bool) :
    Owned rt (moduleLink hosts vm a host define).1 loads l := by
  have hspec := moduleLink_spec hosts define vm a host
  generalize moduleLink hosts vm a host define = r at hspec ⊢
  cases hspec with
  | unchanged rc => exact h
  | missing hload hlink =>
    exact owned_set h (by rfl) (by rfl) (by rfl) (by rfl) (by rfl) (by rfl) fun _ => rfl
  | undefined hload hlink linker hdef =>
    exact owned_set h (by rfl) (by rfl) (by rfl) (by rfl) (by rfl) (by rfl) fun _ => rfl
  | done hvalid hload hlink hall linker hdef =>
    exact owned_set h (by rfl) (by rfl) (by rfl) (by rfl) (by rfl) (by rfl) fun _ => rfl

theorem vmInit_balances (vm : Vm) (files : Bytes → Option Bytes) (ok : Bool) :
    Balances rt vm (vmInit rt vm files ok).1 (vmInit rt vm files ok).2.2 [] := by
  have hstart : Balances rt vm (engineInit vm ok).1 (engineInit vm ok).2.2 [] :=
    engineInit_balances vm ok
  rcases hinit : engineInit vm ok with ⟨vm', rc, acts⟩
  rw [hinit] at hstart
  simp only [vmInit, hinit]
  split
  · rename_i vm'' acts' heq
    obtain ⟨rfl, hrest⟩ := Prod.ext_iff.mp heq
    obtain rfl : acts = acts' := (Prod.ext_iff.mp hrest).2
    exact (hstart.trans (eachBytes_balances files vm'.tree.toList)).trans (engineDestroy_balances _)
  · rename_i vm'' rc' acts' _ heq
    obtain ⟨rfl, hrest⟩ := Prod.ext_iff.mp heq
    obtain rfl : acts = acts' := (Prod.ext_iff.mp hrest).2
    exact hstart.trans (engineDestroy_balances _)

/-- Being ready owns nothing. -/
theorem owned_ready {vm : Vm} {loads : List (Vm × ℕ)} {l : List Res} (h : Owned rt vm loads l) :
    Owned rt { vm with ready := true } loads l :=
  ⟨h.nodup, h.made, h.engine, h.modules, h.distinct, h.apart, h.kept⟩

theorem vmLoad_balances (rb : StrOps) (vm : Vm) (ok : Bool) :
    Balances rt vm (vmLoad rb rt vm ok).1 (vmLoad rb rt vm ok).2.2
      (stepLoads rb rt vm (.load ok)) := by
  have hstart : Balances rt vm (engineInit vm ok).1 (engineInit vm ok).2.2 [] :=
    engineInit_balances vm ok
  rcases hinit : engineInit vm ok with ⟨vm', rc, acts⟩
  rw [hinit] at hstart
  simp only [vmLoad, stepLoads, hinit]
  cases rc with
  | ok =>
    have hloop : Balances rt vm' (eachModule (moduleLoad rb rt) vm'.tree.toList vm').1
        (eachModule (moduleLoad rb rt) vm'.tree.toList vm').2.2
        (eachLoad rb rt vm'.tree.toList vm') :=
      eachModule_balances rb vm'.tree.toList fun _ ha => ha
    rcases heach : eachModule (moduleLoad rb rt) vm'.tree.toList vm' with ⟨v, rc', more⟩
    rw [heach] at hloop
    have hall := hstart.trans hloop
    simp only [heach]
    cases rc' with
    | ok =>
      intro loads l hl
      obtain ⟨hp, hown⟩ := hall loads l hl
      exact ⟨hp, owned_ready hown⟩
    | _ => exact hall
  | _ => exact hstart

theorem vmStep_balances (rb : StrOps) (hosts : ℕ → HostDef) {vm : Vm} (hreg : Registry vm)
    (op : VmOp) :
    Balances rt vm (vmStep rb rt hosts vm op).1 (vmStep rb rt hosts vm op).2.2
      (stepLoads rb rt vm op) := by
  cases op with
  | add name path config =>
    exact balances_nil fun _ _ hl => moduleAdd_owned hreg hl name path config
  | init files ok => exact vmInit_balances vm files ok
  | load ok => exact vmLoad_balances rb vm ok
  | link name host define =>
    simp only [vmStep]
    cases moduleLookup vm name with
    | none => exact Balances.refl vm
    | some a => exact balances_nil fun _ _ hl => moduleLink_owned hl a host define

/-! ### Runs -/

theorem exec_balances (rb : StrOps) (hosts : ℕ → HostDef) (ops : List VmOp) {vm : Vm}
    (hreg : Registry vm) :
    Balances rt vm (Run.exec (vmStep rb rt hosts) vm ops).1
      ((Run.exec (vmStep rb rt hosts) vm ops).2.flatMap Prod.snd)
      (runLoads rb rt hosts vm ops) := by
  induction ops generalizing vm with
  | nil => exact Balances.refl vm
  | cons op ops ih =>
    rw [Run.exec_cons, List.flatMap_cons]
    exact (vmStep_balances rb hosts hreg op).trans (ih (vmStep_registry rb rt hosts hreg op).1)

/-- The modules that `ngx_wavm_destroy` goes over. -/
theorem modules_released {vm : Vm} {as : List ℕ} :
    as.flatMap (fun a => moduleDestroy (vm.module a)) =
      ((as.filter fun a => (vm.module a).loaded).map
        fun a => Res.module (vm.module a).wrtModule).map .release := by
  induction as with
  | nil => rfl
  | cons a as ih =>
    rw [List.flatMap_cons, ih, moduleDestroy]
    cases hl : (vm.module a).loaded with
    | false => simp [hl]
    | true => simp [hl]

/-- The handles of the loaded modules. -/
def moduleHandles (vm : Vm) : List Res :=
  (vm.tree.toList.filter fun a => (vm.module a).loaded).map
    fun a => Res.module (vm.module a).wrtModule

theorem mem_moduleHandles {vm : Vm} {r : Res} : r ∈ moduleHandles vm ↔
    ∃ a ∈ vm.tree.toList, (vm.module a).loaded = true ∧
      Res.module (vm.module a).wrtModule = r := by
  simp only [moduleHandles, List.mem_map, List.mem_filter, and_assoc]

theorem vmDestroy_releases {vm : Vm} (hreg : Registry vm) {loads : List (Vm × ℕ)} {l : List Res}
    (h : Owned rt vm loads l) :
    Proper l (vmDestroy vm) ∧ (held l (vmDestroy vm)).Nodup ∧
      ∀ r, r ∈ held l (vmDestroy vm) ↔ ∃ n, r = .module n ∧ RefusedModule rt loads n := by
  have hnd : (moduleHandles vm).Nodup := by
    apply List.Nodup.map_on _ (hreg.nodup.filter _)
    intro a ha b hb heq
    obtain ⟨ha, hla⟩ := List.mem_filter.mp ha
    obtain ⟨hb, hlb⟩ := List.mem_filter.mp hb
    exact h.distinct a ha b hb hla hlb (Res.module.inj heq)
  have hin : ∀ r ∈ moduleHandles vm, r ∈ l := by
    intro r hr
    obtain ⟨a, ha, hl, rfl⟩ := mem_moduleHandles.mp hr
    exact h.modules a ha hl
  obtain ⟨hp, hheld⟩ := Ledger.release_all hnd hin
  have hleft : ∀ r, r ∈ l.diff (moduleHandles vm) ↔ r ∈ l ∧ r ∉ moduleHandles vm :=
    fun r => h.nodup.mem_sdiff_iff
  have hnodup : (l.diff (moduleHandles vm)).Nodup := h.nodup.diff
  have hengine : ∀ n, Res.engine n ∈ l.diff (moduleHandles vm) ↔
      vm.initialised = true ∧ n = vm.wrtEngine := by
    intro n
    rw [hleft, h.engine n]
    refine and_iff_left ?_
    intro hm
    obtain ⟨a, _, _, heq⟩ := mem_moduleHandles.mp hm
    exact absurd heq (by simp)
  have hmodule : ∀ n, Res.module n ∈ l.diff (moduleHandles vm) ↔ RefusedModule rt loads n := by
    intro n
    rw [hleft, h.kept n, mem_moduleHandles]
    constructor
    · rintro ⟨⟨a, ha, hl, heq⟩ | hr, hnot⟩
      · exact absurd ⟨a, ha, hl, congrArg Res.module heq⟩ hnot
      · exact hr
    · intro hr
      refine ⟨.inr hr, ?_⟩
      rintro ⟨a, ha, hl, heq⟩
      exact h.apart a ha hl (Res.module.inj heq ▸ hr)
  have hmods : vm.tree.toList.flatMap (fun a => moduleDestroy (vm.module a)) =
      (moduleHandles vm).map .release := modules_released
  rw [vmDestroy, hmods, Ledger.proper_append, Ledger.held_append, hheld]
  generalize l.diff (moduleHandles vm) = rest at hengine hnodup hmodule ⊢
  -- of the engine and the refused modules only the engine is released
  have hshape : ∀ r, (∃ n, r = Res.module n ∧ RefusedModule rt loads n) ↔
      r ∈ rest ∧ ∀ n, r ≠ .engine n := by
    intro r
    cases r with
    | engine n => simp
    | module n => simp [hmodule n]
  unfold engineDestroy
  cases hinit : vm.initialised with
  | false =>
    refine ⟨⟨hp, trivial⟩, hnodup, fun r => ?_⟩
    rw [hshape, if_neg (by simp)]
    refine (and_iff_left_of_imp fun hr n heq => ?_).symm
    subst heq
    exact absurd ((hengine n).mp hr).1 (by simp [hinit])
  | true =>
    refine ⟨⟨hp, (hengine _).mpr ⟨hinit, rfl⟩, trivial⟩, hnodup.erase _, fun r => ?_⟩
    rw [hshape]
    change r ∈ rest.erase (.engine vm.wrtEngine) ↔ _
    rw [hnodup.mem_erase_iff, and_comm]
    refine and_congr_right fun hr => ⟨fun hne n heq => ?_, fun hne => hne _⟩
    subst heq
    exact hne (congrArg Res.engine ((hengine n).mp hr).2)

/-- In every run that ends with the VM's destruction nothing of the runtime is released that is
not held, and what is left is each compiled module whose load was refused for an import that is
no function; without such imports nothing is left. -/
theorem vmAfter_teardown (rb : StrOps) (rt : Runtime) (hosts : ℕ → HostDef)
    (coreHost : Option ℕ) (ops : List VmOp) :
    let acts := (Run.exec (vmStep rb rt hosts) (vmCreate coreHost) ops).2.flatMap Prod.snd ++
      vmDestroy (vmAfter rb rt hosts coreHost ops)
    Proper [] acts ∧ (held [] acts).Nodup ∧
      (∀ r, r ∈ held [] acts ↔
        ∃ n, r = .module n ∧ RefusedModule rt (runLoads rb rt hosts (vmCreate coreHost) ops) n) ∧
      (FuncImports rt → held [] acts = []) := by
  have hstart : Owned rt (vmCreate coreHost) [] [] :=
    ⟨List.nodup_nil, fun r hr => absurd hr (by simp), fun n => by simp [vmCreate],
      fun a ha => absurd ha (by simp [vmCreate, SearchTree.Tree.toList]),
      fun a ha => absurd ha (by simp [vmCreate, SearchTree.Tree.toList]),
      fun a ha => absurd ha (by simp [vmCreate, SearchTree.Tree.toList]),
      fun n => by simp [vmCreate, SearchTree.Tree.toList, RefusedModule]⟩
  obtain ⟨hp, hown⟩ := exec_balances rb hosts ops (vmCreate_registry coreHost) [] [] hstart
  obtain ⟨hp', hnodup, hall⟩ := vmDestroy_releases
    (vmAfter_registry rb rt hosts coreHost ops) hown
  dsimp only
  rw [Ledger.proper_append, Ledger.held_append]
  refine ⟨⟨hp, hp'⟩, hnodup, hall, ?_⟩
  intro hf
  refine List.eq_nil_iff_forall_not_mem.mpr fun r hr => ?_
  obtain ⟨n, -, x, -, hx, -⟩ := (hall r).mp hr
  exact not_refused hf x hx

theorem vmAfter_teardown_one :
    held [] ((Run.exec (vmStep listTrees oneRuntime fun _ => oneHost) (vmCreate none)
      oneModule).2.flatMap Prod.snd ++
        vmDestroy (vmAfter listTrees oneRuntime (fun _ => oneHost) none oneModule)) = [] := by
  apply (vmAfter_teardown listTrees oneRuntime (fun _ => oneHost) none oneModule).2.2.2
  intro bytes imports exports h i hi
  cases h
  rw [List.mem_singleton.mp hi]

end NgxWasm.Wavm
