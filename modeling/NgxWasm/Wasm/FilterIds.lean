import NgxWasm.Wasm.Plans
import Mathlib.Data.List.Induction

/-!
# Which filter a directive runs

A filter is looked up by the checksum of its module's name, its configuration and the address of
its op, written one after the other. The chains of the locations are the filters of their
directives as long as no two directives share a checksum.
-/

namespace NgxWasm.Wasm.FilterIds

set_option maxRecDepth 8192

open NgxWasm NgxWasm.ProxyWasm NgxWasm.Lib.SearchTree NgxWasm.Wasm.Plans
open NgxWasm.Shm.Kv (crc32)

def checksum (d : Directive) : ℕ := crc32 (d.module ++ d.config ++ sprintfLd d.addr)

theorem getFilterId_eq (d : Directive) : getFilterId d.module d.config d.addr = checksum d := by
  rw [checksum, crc32, List.foldl_append, List.foldl_append]
  rfl

/-! ### The configuration -/

/-- The filter of a directive as the configuration leaves it. -/
def configured (d : Directive) : Filter := ⟨some d.module, d.config, d.addr, 0, false⟩

/-- What adding the items of a location leaves. -/
structure Added (w : Root) (loc : List Item) (s : Root × Plan) : Prop where
  tree : s.1.tree = w.tree
  own : ∀ d ∈ directives loc, s.1.filter d.filter = configured d
  other : ∀ f, (∀ d ∈ directives loc, d.filter ≠ f) → s.1.filter f = w.filter f
  pipelines : ∀ p, s.2.pipelines p = (loc.map Item.op).filter fun op => op.on p
  notLoaded : s.2.loaded = false

theorem addFilter_root (s : Root × Plan) (d : Directive) :
    (addFilter s d).1 = s.1.set d.filter (configured d) := by
  simp only [addFilter, planAdd, Item.op, Root.set, Function.update_self, Function.update_idem, configured]

theorem directives_append (loc : List Item) (item : Item) :
    directives (loc ++ [item]) = directives loc ++ item.directive.toList := by
  simp only [directives, List.filterMap_append]
  cases item <;> rfl

/-- By induction on the items, from the last one. -/
theorem added (w : Root) (loc : List Item)
    (hfresh : ((directives loc).map Directive.filter).Nodup) :
    Added w loc (loc.foldl addItem (w, planNew)) := by
  induction loc using List.reverseRec with
  | nil =>
    exact ⟨rfl, fun d hd => absurd hd List.not_mem_nil, fun f _ => rfl, fun p => rfl, rfl⟩
  | append_singleton loc item ih =>
    rw [directives_append, List.map_append, List.nodup_append] at hfresh
    obtain ⟨htree, hown, hother, hpipes, hloaded⟩ := ih hfresh.1
    rw [List.foldl_append, List.foldl_cons, List.foldl_nil]
    generalize loc.foldl addItem (w, planNew) = s at htree hown hother hpipes hloaded ⊢
    have hpipe : ∀ p, (addItem s item).2.pipelines p =
        ((loc ++ [item]).map Item.op).filter fun op => op.on p := by
      intro p
      have hstep : (addItem s item).2.pipelines p =
          if (Item.op item).on p then s.2.pipelines p ++ [Item.op item] else s.2.pipelines p := by
        cases item <;> rfl
      rw [hstep, hpipes, List.map_append, List.map_cons, List.map_nil, List.filter_append,
        List.filter_singleton]
      cases (Item.op item).on p <;> simp
    cases item with
    | wasmCall phase func =>
      have hsame : directives (loc ++ [.wasmCall phase func]) = directives loc := by
        rw [directives_append]
        exact List.append_nil _
      refine ⟨htree, ?_, ?_, hpipe, hloaded⟩
      · rw [hsame]
        exact hown
      · rw [hsame]
        exact hother
    | proxyWasm d =>
      have hsame : directives (loc ++ [.proxyWasm d]) = directives loc ++ [d] :=
        directives_append loc _
      have hroot := addFilter_root s d
      refine ⟨?_, ?_, ?_, hpipe, hloaded⟩
      · show (addFilter s d).1.tree = w.tree
        rw [hroot]
        exact htree
      · intro e he
        show (addFilter s d).1.filter e.filter = configured e
        rw [hroot]
        show Function.update s.1.filter d.filter (configured d) e.filter = configured e
        rw [hsame, List.mem_append, List.mem_singleton] at he
        rcases he with he | rfl
        · have hne : e.filter ≠ d.filter :=
            hfresh.2.2 _ (List.mem_map_of_mem he) _ (List.mem_singleton_self _)
          rw [Function.update_of_ne hne]
          exact hown e he
        · exact Function.update_self _ _ _
      · intro f hf
        show (addFilter s d).1.filter f = w.filter f
        rw [hsame] at hf
        rw [hroot]
        have hne := (hf d (List.mem_append_right _ (List.mem_singleton_self _))).symm
        exact (Function.update_of_ne hne _ _).trans
          (hother f fun e he => hf e (List.mem_append_left _ he))

/-- The plan of a location after its directives were read. -/
structure PlanOf (loc : List Item) (plan : Plan) : Prop where
  pipelines : ∀ p, plan.pipelines p = (loc.map Item.op).filter fun op => op.on p
  notLoaded : plan.loaded = false

theorem configured_all (locs : List (List Item)) : ∀ w : Root,
    ((locs.flatMap directives).map Directive.filter).Nodup →
    (configure locs w).1.tree = w.tree ∧
      (∀ d ∈ locs.flatMap directives, (configure locs w).1.filter d.filter = configured d) ∧
      (∀ f, (∀ d ∈ locs.flatMap directives, d.filter ≠ f) →
        (configure locs w).1.filter f = w.filter f) ∧
      List.Forall₂ PlanOf locs (configure locs w).2 := by
  induction locs with
  | nil => intro w _; exact ⟨rfl, fun d hd => absurd hd List.not_mem_nil, fun _ _ => rfl, .nil⟩
  | cons loc locs ih =>
    intro w hfresh
    rw [List.flatMap_cons, List.map_append, List.nodup_append] at hfresh
    obtain ⟨htree, hown, hother, hpipes, hloaded⟩ := added w loc hfresh.1
    obtain ⟨htree', hown', hother', hplans⟩ := ih (loc.foldl addItem (w, planNew)).1 hfresh.2.1
    refine ⟨htree'.trans htree, ?_, ?_, .cons ⟨hpipes, hloaded⟩ hplans⟩
    · intro d hd
      rcases List.mem_append.mp hd with hd | hd
      · have hapart : ∀ e ∈ locs.flatMap directives, e.filter ≠ d.filter := by
          intro e he heq
          exact hfresh.2.2 _ (List.mem_map_of_mem hd) _ (List.mem_map_of_mem he) heq.symm
        exact (hother' d.filter hapart).trans (hown d hd)
      · exact hown' d hd
    · intro f hf
      rw [List.flatMap_cons] at hf
      have hlate := hother' f fun d hd => hf d (List.mem_append_right _ hd)
      exact hlate.trans (hother f fun d hd => hf d (List.mem_append_left _ hd))

/-! ### Loading -/

/-- The filters `fs` are in the tree under their checksums. -/
structure Inserted (all : List Directive) (w : Root) (fs : List ℕ) : Prop where
  nodup : fs.Nodup
  perm : w.tree.toList.Perm fs
  ordered : Ordered (fun f => (w.filter f).id) w.tree
  known : ∀ f ∈ fs, ∃ d ∈ all, d.filter = f
  own : ∀ d ∈ all, (w.filter d.filter).module = some d.module ∧
    (w.filter d.filter).config = d.config ∧ (w.filter d.filter).data = d.addr
  loaded : ∀ d ∈ all, ((w.filter d.filter).loaded = true ↔ d.filter ∈ fs)
  id : ∀ d ∈ all, d.filter ∈ fs → (w.filter d.filter).id = checksum d

theorem proxyWasmLoad_new {rb : FilterOps} {abi : ℕ → Bool} {w : Root} {d : Directive}
    (hloaded : ¬ (w.filter d.filter).loaded = true)
    (hmodule : (w.filter d.filter).module = some d.module)
    (hconfig : (w.filter d.filter).config = d.config)
    (hdata : (w.filter d.filter).data = d.addr) :
    proxyWasmLoad rb abi w d.filter =
      if abi d.filter then
        let keyed := w.set d.filter { w.filter d.filter with id := checksum d }
        some ⟨Function.update w.filter d.filter
            { w.filter d.filter with id := checksum d, loaded := true },
          rb.insert keyed.filter w.tree d.filter⟩
      else none := by
  have hid : getFilterId d.module (w.filter d.filter).config (w.filter d.filter).data =
      checksum d := by
    rw [hconfig, hdata, getFilterId_eq]
  rw [proxyWasmLoad, if_neg hloaded, hmodule]
  simp only [hid, Root.set, Function.update_self, Function.update_idem]

/-- A filter that is loaded stays, and one that is not is put in the tree. -/
theorem inserted_load {all : List Directive} {rb : FilterOps} {abi : ℕ → Bool} {w w' : Root}
    {fs : List ℕ} {d : Directive} (hd : d ∈ all) (hall : (all.map Directive.filter).Nodup)
    (h : Inserted all w fs) (hrun : proxyWasmLoad rb abi w d.filter = some w') :
    ∃ fs', Inserted all w' fs' ∧ d.filter ∈ fs' ∧ fs ⊆ fs' := by
  obtain ⟨hmodule, hconfig, hdata⟩ := h.own d hd
  by_cases hloaded : (w.filter d.filter).loaded = true
  · rw [proxyWasmLoad, if_pos hloaded] at hrun
    rw [← Option.some.inj hrun]
    exact ⟨fs, h, (h.loaded d hd).mp hloaded, List.Subset.refl _⟩
  · rw [proxyWasmLoad_new hloaded hmodule hconfig hdata] at hrun
    have hnew : d.filter ∉ fs := fun hmem => hloaded ((h.loaded d hd).mpr hmem)
    split_ifs at hrun with habi
    have hw' := Option.some.inj hrun
    have hother (f : ℕ) (hf : f ≠ d.filter) : w'.filter f = w.filter f := by
      rw [← hw']
      exact Function.update_of_ne hf _ _
    have hself : w'.filter d.filter =
        { w.filter d.filter with id := checksum d, loaded := true } := by
      rw [← hw']
      exact Function.update_self _ _ _
    have htree : w'.tree = rb.insert (w.set d.filter { w.filter d.filter with id := checksum d }).filter
        w.tree d.filter := by
      rw [← hw']
    have hkeys (f : ℕ) : (w'.filter f).id =
        ((w.set d.filter { w.filter d.filter with id := checksum d }).filter f).id := by
      by_cases hf : f = d.filter
      · rw [hf, hself]
        simp only [Root.set, Function.update_self]
      · rw [hother f hf]
        simp only [Root.set, Function.update_of_ne hf]
    have hold : ∀ f ∈ w.tree.toList, f ≠ d.filter := fun f hf heq =>
      hnew (heq ▸ h.perm.mem_iff.mp hf)
    have hordered : Ordered (fun f => (w'.filter f).id) w'.tree := by
      rw [htree]
      refine ordered_congr (fun f _ => (hkeys f).symm) (rb.insert_ordered _ _ _ ?_)
      refine ordered_congr (fun f hf => ?_) h.ordered
      rw [← hkeys f, hother f (hold f hf)]
    have hsame (e : Directive) (he : e ∈ all) (heq : e.filter = d.filter) : e = d :=
      List.inj_on_of_nodup_map hall he hd heq
    refine ⟨d.filter :: fs, ⟨List.nodup_cons.mpr ⟨hnew, h.nodup⟩, ?_, hordered, ?_, ?_, ?_, ?_⟩,
      List.mem_cons_self .., List.subset_cons_self _ _⟩
    · rw [htree]
      exact (rb.insert_perm _ _ _).trans (h.perm.cons _)
    · intro f hf
      rcases List.mem_cons.mp hf with rfl | hf
      · exact ⟨d, hd, rfl⟩
      · exact h.known f hf
    · intro e he
      by_cases heq : e.filter = d.filter
      · rw [hsame e he heq, hself]
        exact ⟨hmodule, hconfig, hdata⟩
      · rw [hother _ heq]
        exact h.own e he
    · intro e he
      by_cases heq : e.filter = d.filter
      · rw [heq, hself]
        exact iff_of_true rfl (List.mem_cons_self ..)
      · rw [hother _ heq, h.loaded e he, List.mem_cons]
        exact ⟨.inr, fun hmem => hmem.resolve_left heq⟩
    · intro e he hmem
      by_cases heq : e.filter = d.filter
      · rw [hsame e he heq, hself]
      · rw [hother _ heq]
        exact h.id e he ((List.mem_cons.mp hmem).resolve_left heq)

/-- A plan's ops, by induction on them. -/
theorem inserted_ops {all : List Directive} {rb : FilterOps} {link : Op → Bool} {abi : ℕ → Bool}
    (hall : (all.map Directive.filter).Nodup) (ops : List Op) :
    ∀ (w w' : Root) (fs : List ℕ), Inserted all w fs →
      (∀ f addr, Op.proxyWasm f addr ∈ ops → ∃ d ∈ all, d.filter = f) →
      ops.foldlM (loadOp rb link abi) w = some w' →
      ∃ fs', Inserted all w' fs' ∧ fs ⊆ fs' ∧ ∀ f addr, Op.proxyWasm f addr ∈ ops → f ∈ fs' := by
  induction ops with
  | nil =>
    intro w w' fs h _ hrun
    rw [List.foldlM_nil] at hrun
    rw [← Option.some.inj hrun]
    exact ⟨fs, h, List.Subset.refl _, fun f addr hf => absurd hf List.not_mem_nil⟩
  | cons op ops ih =>
    intro w w' fs h hknown hrun
    rw [List.foldlM_cons] at hrun
    obtain ⟨mid, hop, hrest⟩ := Option.bind_eq_some_iff.mp hrun
    have hlater : ∀ f addr, Op.proxyWasm f addr ∈ ops → ∃ d ∈ all, d.filter = f :=
      fun f addr hf => hknown f addr (List.mem_cons_of_mem _ hf)
    unfold loadOp at hop
    split_ifs at hop
    cases op with
    | call phase func =>
      have hmid : w = mid := Option.some.inj hop
      obtain ⟨fs', h', hsub, hops⟩ := ih mid w' fs (hmid ▸ h) hlater hrest
      refine ⟨fs', h', hsub, ?_⟩
      intro f addr hf
      exact hops f addr ((List.mem_cons.mp hf).resolve_left (by simp))
    | proxyWasm f addr =>
      obtain ⟨d, hd, rfl⟩ := hknown f addr (List.mem_cons_self ..)
      obtain ⟨fs₁, h₁, hmem, hsub₁⟩ := inserted_load hd hall h hop
      obtain ⟨fs', h', hsub, hops⟩ := ih mid w' fs₁ h₁ hlater hrest
      refine ⟨fs', h', List.Subset.trans hsub₁ hsub, ?_⟩
      intro g a hg
      rcases List.mem_cons.mp hg with heq | hg
      · injection heq with hfilter haddr
        rw [hfilter]
        exact hsub hmem
      · exact hops g a hg

/-- The ids that a plan keeps are the checksums of its directives. -/
theorem filterIds_eq {all : List Directive} {w : Root} {fs : List ℕ} (h : Inserted all w fs)
    (loc : List Item) (hloc : ∀ d ∈ directives loc, d ∈ all ∧ d.filter ∈ fs) :
    ((loc.map Item.op).filter fun op => op.on .rewrite).filterMap (filterId w) =
      (directives loc).map checksum := by
  induction loc with
  | nil => rfl
  | cons item loc ih =>
    cases item with
    | wasmCall phase func =>
      have ih := ih hloc
      rw [List.map_cons, List.filter_cons]
      split_ifs
      · rw [List.filterMap_cons]
        exact ih
      · exact ih
    | proxyWasm d =>
      have hcons : directives (.proxyWasm d :: loc) = d :: directives loc := rfl
      rw [hcons] at hloc ⊢
      rw [List.forall_mem_cons] at hloc
      have ih := ih hloc.2
      have hid : filterId w (Item.op (.proxyWasm d)) = some (checksum d) :=
        congrArg some (h.id d hloc.1.1 hloc.1.2)
      have hon : (Item.op (.proxyWasm d)).on .rewrite = true := by rfl
      rw [List.map_cons, List.filter_cons, if_pos hon, List.filterMap_cons, hid, ih]
      rfl

theorem mem_directives {loc : List Item} {f : ℕ} {addr : BitVec 64} :
    Op.proxyWasm f addr ∈ loc.map Item.op → ∃ d ∈ directives loc, d.filter = f := by
  intro h
  obtain ⟨item, hitem, heq⟩ := List.mem_map.mp h
  cases item with
  | wasmCall phase func => exact absurd heq (by simp [Item.op])
  | proxyWasm d =>
    injection heq with hfilter _
    exact ⟨d, List.mem_filterMap.mpr ⟨_, hitem, rfl⟩, hfilter⟩

theorem inserted_plans {all : List Directive} {rb : FilterOps} {link : Op → Bool} {abi : ℕ → Bool}
    (hall : (all.map Directive.filter).Nodup) (locs : List (List Item)) (plans : List Plan)
    (hplans : List.Forall₂ PlanOf locs plans) :
    ∀ (w w' : Root) (fs : List ℕ) (plans' : List Plan), Inserted all w fs →
      (∀ loc ∈ locs, ∀ d ∈ directives loc, d ∈ all) →
      initProcess rb link abi plans w = some (w', plans') →
      ∃ fs', Inserted all w' fs' ∧ fs ⊆ fs' ∧
        (∀ loc ∈ locs, ∀ d ∈ directives loc, d.filter ∈ fs') ∧
        plans'.map Plan.filterIds = locs.map fun loc => (directives loc).map checksum := by
  induction hplans with
  | nil =>
    intro w w' fs plans' h _ hrun
    have heq := Option.some.inj hrun
    rw [Prod.mk.injEq] at heq
    rw [← heq.1, ← heq.2]
    exact ⟨fs, h, List.Subset.refl _, fun loc hloc => absurd hloc List.not_mem_nil, rfl⟩
  | @cons loc plan locs plans hplan hplans ih =>
    intro w w' fs plans' h hknown hrun
    rw [List.forall_mem_cons] at hknown
    rw [initProcess, planLoad, if_neg (by rw [hplan.notLoaded]; decide)] at hrun
    cases hops : (phases.flatMap plan.pipelines).foldlM (loadOp rb link abi) w with
    | none =>
      rw [hops] at hrun
      exact absurd hrun (by simp)
    | some mid =>
      rw [hops] at hrun
      have hmem (f : ℕ) (addr : BitVec 64) :
          Op.proxyWasm f addr ∈ phases.flatMap plan.pipelines →
            ∃ d ∈ directives loc, d.filter = f := by
        intro hf
        obtain ⟨p, _, hp⟩ := List.mem_flatMap.mp hf
        rw [hplan.pipelines p] at hp
        exact mem_directives (List.mem_filter.mp hp).1
      obtain ⟨fs₁, h₁, hsub₁, hall₁⟩ := inserted_ops hall _ w mid fs h
        (fun f addr hf => by
          obtain ⟨d, hd, hfilter⟩ := hmem f addr hf
          exact ⟨d, hknown.1 d hd, hfilter⟩) hops
      have hloc : ∀ d ∈ directives loc, d.filter ∈ fs₁ := by
        intro d hd
        apply hall₁ d.filter d.addr
        obtain ⟨item, hitem, heq⟩ := List.mem_filterMap.mp hd
        refine List.mem_flatMap.mpr ⟨.rewrite, List.mem_cons_self .., ?_⟩
        rw [hplan.pipelines]
        refine List.mem_filter.mpr ⟨?_, rfl⟩
        cases item with
        | wasmCall phase func => exact absurd heq (by simp [Item.directive])
        | proxyWasm e =>
          rw [← Option.some.inj heq]
          exact List.mem_map_of_mem hitem
      simp only at hrun
      obtain ⟨⟨w₂, rest⟩, hinit, heq⟩ := Option.map_eq_some_iff.mp hrun
      rw [Prod.mk.injEq] at heq
      obtain ⟨rfl, rfl⟩ := heq
      obtain ⟨fs', h', hsub, hlocs, hids⟩ := ih mid w₂ fs₁ rest h₁ hknown.2 hinit
      refine ⟨fs', h', List.Subset.trans hsub₁ hsub, ?_, ?_⟩
      · rw [List.forall_mem_cons]
        exact ⟨fun d hd => hsub (hloc d hd), hlocs⟩
      · rw [List.map_cons, List.map_cons, hids, hplan.pipelines,
          filterIds_eq h₁ loc fun d hd => ⟨hknown.1 d hd, hloc d hd⟩]

/-! ### Chains -/

theorem pwCtx_iff (w : Root) (ids : List ℕ) : ∀ fs : List ℕ,
    pwCtx w ids = some fs ↔ ids.map (lookupFilter w) = fs.map some := by
  induction ids with
  | nil =>
    intro fs
    cases fs <;> simp [pwCtx]
  | cons id ids ih =>
    intro fs
    rw [pwCtx, List.map_cons]
    cases hid : lookupFilter w id with
    | none =>
      refine iff_of_false (by simp) ?_
      cases fs <;> simp
    | some f =>
      cases fs with
      | nil => simp
      | cons g fs =>
        simp only [Option.map_eq_some_iff, List.cons.injEq, List.map_cons, Option.some.injEq]
        constructor
        · intro ⟨gs, hgs, hfg, heq⟩
          exact ⟨hfg, (ih fs).mp (heq ▸ hgs)⟩
        · intro ⟨hfg, hrest⟩
          exact ⟨fs, (ih fs).mpr hrest, hfg, rfl⟩

/-- The chain of each location, in order. -/
def chains (w : Root) (plans : List Plan) : List (Option (List ℕ)) :=
  plans.map fun plan => pwCtx w plan.filterIds

/-- Each location runs the filters of its own directives. -/
def RunsOwn (conf : Conf) (w : Root) (plans : List Plan) : Prop :=
  chains w plans = conf.locations.map fun loc => some ((directives loc).map Directive.filter)

theorem runsOwn_iff (conf : Conf) (w : Root) (plans : List Plan)
    (hids : plans.map Plan.filterIds = conf.locations.map fun loc => (directives loc).map checksum) :
    RunsOwn conf w plans ↔ ∀ d ∈ conf.all, lookupFilter w (checksum d) = some d.filter := by
  have hchains : chains w plans =
      conf.locations.map fun loc => pwCtx w ((directives loc).map checksum) := by
    have hmap := congrArg (List.map (pwCtx w)) hids
    rw [List.map_map, List.map_map] at hmap
    exact hmap
  have hloc (loc : List Item) :
      pwCtx w ((directives loc).map checksum) = some ((directives loc).map Directive.filter) ↔
        ∀ d ∈ directives loc, lookupFilter w (checksum d) = some d.filter := by
    rw [pwCtx_iff, List.map_map, List.map_map]
    exact List.map_inj_left
  rw [RunsOwn, hchains, List.map_inj_left]
  simp only [hloc, Conf.all, List.mem_flatMap]
  constructor
  · intro h d ⟨loc, hmem, hd⟩
    exact h loc hmem d hd
  · intro h loc hmem d hd
    exact h d ⟨loc, hmem, hd⟩

/-- After loading succeeded every location runs the filters of its own directives exactly when
no two directives have the same checksum. -/
theorem own_filters_iff (conf : Conf) (rb : FilterOps) (link : Op → Bool) (abi : ℕ → Bool)
    (w : Root) (plans : List Plan)
    (hload : initProcess rb link abi (configure conf.locations emptyRoot).2
      (configure conf.locations emptyRoot).1 = some (w, plans)) :
    RunsOwn conf w plans ↔ (conf.all.map checksum).Nodup := by
  obtain ⟨htree, hown, -, hplans⟩ := configured_all conf.locations emptyRoot conf.fresh
  have hstart : Inserted conf.all (configure conf.locations emptyRoot).1 [] := by
    refine ⟨List.nodup_nil, ?_, ?_, fun f hf => absurd hf List.not_mem_nil, ?_, ?_,
      fun d _ hmem => absurd hmem List.not_mem_nil⟩
    · rw [htree]
      exact List.Perm.refl _
    · rw [htree]
      exact List.Pairwise.nil
    · intro d hd
      rw [hown d hd]
      exact ⟨rfl, rfl, rfl⟩
    · intro d hd
      rw [hown d hd]
      exact iff_of_false (by simp [configured]) List.not_mem_nil
  obtain ⟨fs, h, -, hall, hids⟩ := inserted_plans conf.fresh conf.locations _ hplans _ w [] plans
    hstart (fun loc hloc d hd => List.mem_flatMap.mpr ⟨loc, hloc, hd⟩) hload
  have hin : ∀ d ∈ conf.all, d.filter ∈ fs := by
    intro d hd
    obtain ⟨loc, hloc, hd⟩ := List.mem_flatMap.mp hd
    exact hall loc hloc d hd
  rw [runsOwn_iff conf w plans hids]
  constructor
  · intro hlookup
    have hsome : ((conf.all.map checksum).map (lookupFilter w)).Nodup := by
      have hmap : (conf.all.map checksum).map (lookupFilter w) =
          (conf.all.map Directive.filter).map some := by
        rw [List.map_map, List.map_map]
        exact List.map_congr_left hlookup
      rw [hmap]
      exact conf.fresh.map (Option.some_injective ℕ)
    exact hsome.of_map _
  · intro hnodup d hd
    have hmem : d.filter ∈ w.tree.toList := h.perm.mem_iff.mpr (hin d hd)
    have hkeys : (w.tree.toList.map fun f => (w.filter f).id).Nodup := by
      refine List.Nodup.map_on ?_ (h.perm.nodup_iff.mpr h.nodup)
      intro f hf g hg heq
      obtain ⟨d₁, hd₁, rfl⟩ := h.known f (h.perm.mem_iff.mp hf)
      obtain ⟨d₂, hd₂, rfl⟩ := h.known g (h.perm.mem_iff.mp hg)
      rw [h.id d₁ hd₁ (hin d₁ hd₁), h.id d₂ hd₂ (hin d₂ hd₂)] at heq
      rw [List.inj_on_of_nodup_map hnodup hd₁ hd₂ heq]
    have hfound := lookup_eq_some (fun f => (w.filter f).id) w.tree d.filter h.ordered hkeys hmem
    rw [h.id d hd (hin d hd)] at hfound
    exact hfound

theorem two_filters_fresh : ([1, 2] : List ℕ).Nodup := by decide

/-- Two locations of one module; the configurations are those of the caller. -/
def twoLocations (config config' : Bytes) : Conf where
  locations := [[.proxyWasm ⟨1, 94025550001104, [102], config⟩],
    [.wasmCall .rewrite [103], .proxyWasm ⟨2, 94025550003216, [102], config'⟩]]
  fresh := two_filters_fresh

theorem two_locations_own :
    ∃ w plans, initProcess (listOps ℕ Filter.id) (fun _ => true) (fun _ => true)
        (configure (twoLocations [97] [98]).locations emptyRoot).2
        (configure (twoLocations [97] [98]).locations emptyRoot).1 = some (w, plans) ∧
      RunsOwn (twoLocations [97] [98]) w plans := by
  have hload : (initProcess (listOps ℕ Filter.id) (fun _ => true) (fun _ => true)
      (configure (twoLocations [97] [98]).locations emptyRoot).2
      (configure (twoLocations [97] [98]).locations emptyRoot).1).isSome = true := by
    decide
  obtain ⟨⟨w, plans⟩, hrun⟩ := Option.isSome_iff_exists.mp hload
  have hiff := own_filters_iff (twoLocations [97] [98]) (listOps ℕ Filter.id) (fun _ => true)
    (fun _ => true) w plans hrun
  exact ⟨w, plans, hrun, hiff.mpr (by decide)⟩

/-- The configurations `k=988898` and `k=47046442` at these two addresses have one checksum: both
locations run the same filter. -/
theorem one_checksum_for_two :
    ¬ ∀ (conf : Conf) (rb : FilterOps) (link : Op → Bool) (abi : ℕ → Bool) (w : Root)
      (plans : List Plan), initProcess rb link abi (configure conf.locations emptyRoot).2
        (configure conf.locations emptyRoot).1 = some (w, plans) → RunsOwn conf w plans := by
  intro h
  let conf := twoLocations [107, 61, 57, 56, 56, 56, 57, 56] [107, 61, 52, 55, 48, 52, 54, 52, 52, 50]
  have hchains : ((initProcess (listOps ℕ Filter.id) (fun _ => true) (fun _ => true)
      (configure conf.locations emptyRoot).2 (configure conf.locations emptyRoot).1).map
        fun r => chains r.1 r.2) = some [some [2], some [2]] := by
    decide
  obtain ⟨⟨w, plans⟩, hrun, hsame⟩ := Option.map_eq_some_iff.mp hchains
  have hown := h conf (listOps ℕ Filter.id) (fun _ => true) (fun _ => true) w plans hrun
  rw [RunsOwn, hsame] at hown
  exact absurd hown (by decide)

end NgxWasm.Wasm.FilterIds
