import NgxWasm.ProxyWasm.HostProperties
import NgxWasm.Lib.Run

/-!
# The host properties as a map

What a request may rely on: a map from dotted paths to optional values in which
an entry that is const stays as it is.
-/

namespace NgxWasm.ProxyWasm.HostPropertyMap
open NgxWasm NgxWasm.Lib NgxWasm.Lib.SearchTree NgxWasm.Lib.Run
open NgxWasm.ProxyWasm.HostProperties
open NgxWasm.Http.Headers (ascii)

/-! ### The map -/

structure Entry where
  value : Option Bytes
  isConst : Bool
  deriving Repr, DecidableEq

abbrev PropMap := Bytes → Option Entry

def PropMap.get (m : PropMap) (path : Bytes) : Answer :=
  match m path with
  | some ⟨some v, _⟩ => ⟨.ok, some v⟩
  | _ => ⟨.declined, none⟩

def PropMap.set (m : PropMap) (path : Bytes) (value : Option Bytes) (isConst granted : Bool) :
    PropMap × Rc :=
  match m path with
  | some ⟨_, true⟩ => (m, .declined)
  | _ =>
    if value.isNone && !isConst then (Function.update m path none, .ok)
    else if granted then (Function.update m path (some ⟨value, isConst⟩), .ok)
    else (m, .error)

/-- A path that is not in the map needs a node, a value needs a copy. -/
def PropMap.granted (m : PropMap) (path : Bytes) (value : Option Bytes) (grant : Grant) : Bool :=
  ((m path).isSome || grant.node) && (value.isNone || grant.dup)

def mapSet (m : PropMap) (path : Bytes) (value : Option Bytes) (isConst retrieve : Bool)
    (grant : Grant) : PropMap × Answer :=
  let r := m.set path value isConst (m.granted path value grant)
  (r.1, ⟨r.2, if retrieve && r.2 == .ok then value else none⟩)

def mapStep (m : PropMap) : Call → PropMap × Answer
  | .get path => (m, m.get (replaceNullsByDots path))
  | .set path value grant => mapSet m (replaceNullsByDots path) value false false grant
  | .setHost path value isConst retrieve grant =>
    mapSet m (replaceNullsByDots path) value isConst retrieve grant

/-! ### The store seen as a map -/

def view (ctx : Ctx) : PropMap := fun path =>
  (lookupNode ctx path).map fun a => ⟨readData ctx (ctx.node a), (ctx.node a).isConst⟩

/-- A value stands in a block of the pool, or is a const NULL. -/
def Stored (pool : Pool) (n : Node) : Prop :=
  (n.isConstNull = true ∧ n.isConst = true ∧ n.data = none) ∨
    (n.isConstNull = false ∧ ∃ d v, n.data = some d ∧ d < pool.next ∧ pool.block d = some v)

structure Sound (ctx : Ctx) : Prop where
  request : ctx.request = true
  ordered : Ordered (fun a => strKey (ctx.node a).str) ctx.tree
  distinct : (ctx.tree.toList.map fun a => strKey (ctx.node a).str).Nodup
  below : ∀ a ∈ ctx.tree.toList, a < ctx.pool.next
  stored : ∀ a ∈ ctx.tree.toList, Stored ctx.pool (ctx.node a)
  apart : ∀ a ∈ ctx.tree.toList, ∀ b ∈ ctx.tree.toList, ∀ d,
    (ctx.node a).data = some d → (ctx.node b).data = some d → a = b

theorem strKey_injective : Function.Injective strKey := by
  intro s t h
  have hbytes : s.map UInt8.toNat = t.map UInt8.toNat := congrArg (fun k : StrKey => k.2.2) h
  exact List.map_injective_iff.mpr (fun _ _ => UInt8.toNat_inj.mp) hbytes

theorem newCtx_sound (max : ℕ) : Sound (newCtx max) where
  request := rfl
  ordered := List.Pairwise.nil
  distinct := List.nodup_nil
  below := by intro a ha; cases ha
  stored := by intro a ha; cases ha
  apart := by intro a ha; cases ha

theorem lookupNode_mem {ctx : Ctx} {path : Bytes} {a : ℕ} (h : lookupNode ctx path = some a) :
    a ∈ ctx.tree.toList ∧ (ctx.node a).str = path := by
  obtain ⟨hm, hk⟩ := lookup_some _ _ _ _ h
  exact ⟨hm, strKey_injective hk⟩

/-! ### Freeing and copying -/

@[simp] theorem pfree_next (pool : Pool) (p : Option ℕ) : (pool.pfree p).next = pool.next := by
  unfold Pool.pfree
  split
  · rfl
  · split
    · rfl
    · split <;> rfl

@[simp] theorem pfree_max (pool : Pool) (p : Option ℕ) : (pool.pfree p).max = pool.max := by
  unfold Pool.pfree
  split
  · rfl
  · split
    · rfl
    · split <;> rfl

theorem pfree_block_ne (pool : Pool) {p : Option ℕ} {d : ℕ} (h : p ≠ some d) :
    (pool.pfree p).block d = pool.block d := by
  unfold Pool.pfree
  split
  · rfl
  · rename_i a
    have hd : d ≠ a := fun e => h (by rw [e])
    split
    · rfl
    · split
      · exact Function.update_of_ne hd _ _
      · rfl

/-- A block that the pool did not take from the system stays where it is. -/
theorem pfree_small (pool : Pool) {a : ℕ} (h : ∀ v, pool.block a = some v → v.length ≤ pool.max) :
    pool.pfree (some a) = pool := by
  simp only [Pool.pfree]
  split
  · rfl
  · rename_i v hv
    rw [if_neg (Nat.not_lt.mpr (h v hv))]

/-- What a node is given: a NULL, which is const, or a copy in a new block. -/
structure Gives (pool pool' : Pool) (value : Option Bytes) (n : Node) : Prop where
  next : pool.next ≤ pool'.next
  keeps : ∀ d < pool.next, pool'.block d = pool.block d
  stored : Stored pool' n
  fresh : ∀ d, n.data = some d → pool.next ≤ d
  reads : n.data.bind pool'.block = value

theorem setHpnValue_gives {pool pool' : Pool} {n n' : Node} {value : Option Bytes}
    {isConst dup : Bool} (hn : n.isConstNull = false) (hv : value = none → isConst = true)
    (h : setHpnValue pool n value isConst dup = some (pool', n')) :
    Gives pool pool' value n' ∧ n'.str = n.str ∧ n'.isConst = isConst := by
  cases value with
  | none =>
    obtain ⟨rfl, rfl⟩ := Prod.mk.inj (Option.some.inj h)
    refine ⟨⟨Nat.le_refl _, fun _ _ => rfl, Or.inl ⟨rfl, hv rfl, rfl⟩, ?_, rfl⟩, rfl, rfl⟩
    intro d hd
    cases hd
  | some v =>
    simp only [setHpnValue] at h
    split at h
    · obtain ⟨rfl, rfl⟩ := Prod.mk.inj (Option.some.inj h)
      have hblock : (pool.pstrdup v).2.block pool.next = some v := Function.update_self ..
      refine ⟨⟨Nat.le_succ _, ?_, Or.inr ⟨hn, pool.next, v, rfl, Nat.lt_succ_self _, hblock⟩, ?_,
        hblock⟩, rfl, rfl⟩
      · intro d hd
        exact Function.update_of_ne (Nat.ne_of_lt hd) _ _
      · intro d hd
        exact Nat.le_of_eq (Option.some.inj hd)
    · cases h

theorem setHpnValue_isSome (pool : Pool) (n : Node) (value : Option Bytes) (isConst dup : Bool) :
    (setHpnValue pool n value isConst dup).isSome = (value.isNone || dup) := by
  cases value with
  | none => rfl
  | some v => cases dup <;> rfl

/-! ### What a call does to the store -/

/-- Memory taken for a node that is not linked in the end. -/
theorem Sound.pcalloc {ctx : Ctx} (h : Sound ctx) : Sound { ctx with pool := ctx.pool.pcalloc.2 } :=
  ⟨h.request, h.ordered, h.distinct, fun a ha => Nat.lt_succ_of_lt (h.below a ha), by
    intro a ha
    rcases h.stored a ha with hnull | ⟨hc, d, v, hd, hlt, hv⟩
    · exact Or.inl hnull
    · exact Or.inr ⟨hc, d, v, hd, Nat.lt_succ_of_lt hlt, hv⟩, h.apart⟩

/-- A node keeps its path and is given a value. -/
theorem Sound.replace {ctx : Ctx} (h : Sound ctx) {a : ℕ} (ha : a ∈ ctx.tree.toList)
    {pool' : Pool} {n' : Node} {value : Option Bytes}
    (hg : Gives (ctx.pool.pfree (ctx.node a).data) pool' value n')
    (hstr : n'.str = (ctx.node a).str) :
    Sound { ctx with pool := pool', node := Function.update ctx.node a n' } ∧
      view { ctx with pool := pool', node := Function.update ctx.node a n' } =
        Function.update (view ctx) (ctx.node a).str (some ⟨value, n'.isConst⟩) := by
  have hkey : (fun b => strKey (Function.update ctx.node a n' b).str) =
      fun b => strKey (ctx.node b).str := by
    funext b
    by_cases hb : b = a
    · rw [hb, Function.update_self, hstr]
    · rw [Function.update_of_ne hb]
  have hnext : ctx.pool.next ≤ pool'.next := by
    have hle := hg.next
    rwa [pfree_next] at hle
  -- what another node holds is not freed and not overwritten
  have hblock : ∀ b ∈ ctx.tree.toList, b ≠ a → ∀ d, (ctx.node b).data = some d →
      d < ctx.pool.next → pool'.block d = ctx.pool.block d := by
    intro b hb hba d hd hlt
    rw [hg.keeps d (by rwa [pfree_next])]
    exact pfree_block_ne _ fun hda => hba (h.apart b hb a ha d hd hda)
  have hother : ∀ b ∈ ctx.tree.toList, b ≠ a → ∀ d, (ctx.node b).data = some d →
      d < ctx.pool.next := by
    intro b hb _ d hd
    rcases h.stored b hb with ⟨_, _, hnone⟩ | ⟨_, d', v, hd', hlt, _⟩
    · rw [hd] at hnone
      cases hnone
    · rw [hd] at hd'
      rwa [Option.some.inj hd']
  constructor
  · refine ⟨h.request, ?_, ?_, ?_, ?_, ?_⟩
    · show Ordered (fun b => strKey (Function.update ctx.node a n' b).str) ctx.tree
      rw [hkey]
      exact h.ordered
    · show (ctx.tree.toList.map fun b => strKey (Function.update ctx.node a n' b).str).Nodup
      rw [hkey]
      exact h.distinct
    · intro b hb
      exact Nat.lt_of_lt_of_le (h.below b hb) hnext
    · intro b hb
      show Stored pool' (Function.update ctx.node a n' b)
      by_cases hba : b = a
      · rw [hba, Function.update_self]
        exact hg.stored
      · rw [Function.update_of_ne hba]
        rcases h.stored b hb with hnull | ⟨hc, d, v, hd, hlt, hv⟩
        · exact Or.inl hnull
        · exact Or.inr ⟨hc, d, v, hd, Nat.lt_of_lt_of_le hlt hnext,
            by rw [hblock b hb hba d hd hlt, hv]⟩
    · intro b hb c hc d hdb hdc
      have hfresh : ∀ d, n'.data = some d → ctx.pool.next ≤ d := by
        intro d hd
        have hle := hg.fresh d hd
        rwa [pfree_next] at hle
      simp only [] at hdb hdc
      by_cases hba : b = a <;> by_cases hca : c = a
      · rw [hba, hca]
      · rw [hba, Function.update_self] at hdb
        rw [Function.update_of_ne hca] at hdc
        exact absurd (hother c hc hca d hdc) (Nat.not_lt.mpr (hfresh d hdb))
      · rw [hca, Function.update_self] at hdc
        rw [Function.update_of_ne hba] at hdb
        exact absurd (hother b hb hba d hdb) (Nat.not_lt.mpr (hfresh d hdc))
      · rw [Function.update_of_ne hba] at hdb
        rw [Function.update_of_ne hca] at hdc
        exact h.apart b hb c hc d hdb hdc
  · funext q
    have hlookup : lookupNode { ctx with pool := pool', node := Function.update ctx.node a n' } q =
        lookupNode ctx q := by
      show lookup (fun b => strKey (Function.update ctx.node a n' b).str) _ _ = _
      rw [hkey]
      rfl
    rw [view, hlookup]
    by_cases hq : q = (ctx.node a).str
    · have hfound : lookupNode ctx q = some a := by
        rw [hq]
        exact lookup_eq_some _ _ _ h.ordered h.distinct ha
      rw [hfound, hq, Function.update_self]
      simp only [Option.map_some, Function.update_self, readData, hg.reads]
    · rw [Function.update_of_ne hq, view]
      cases hf : lookupNode ctx q with
      | none => rfl
      | some b =>
        obtain ⟨hb, hbq⟩ := lookupNode_mem hf
        have hba : b ≠ a := fun e => hq (by rw [← hbq, e])
        simp only [Option.map_some, Function.update_of_ne hba, readData]
        congr 2
        cases hd : (ctx.node b).data with
        | none => rfl
        | some d => exact hblock b hb hba d hd (hother b hb hba d hd)

theorem Sound.remove (ops : StrRbtreeOps) {ctx : Ctx} (h : Sound ctx) {a : ℕ}
    (ha : a ∈ ctx.tree.toList) :
    Sound { ctx with
        pool := ctx.pool.pfree (ctx.node a).data, tree := ops.delete ctx.tree a } ∧
      view { ctx with
          pool := ctx.pool.pfree (ctx.node a).data, tree := ops.delete ctx.tree a } =
        Function.update (view ctx) (ctx.node a).str none := by
  have hlist := ops.delete_toList ctx.tree a ha
  have hn : ctx.tree.toList.Nodup := List.Nodup.of_map _ h.distinct
  have hsub : (ops.delete ctx.tree a).toList.Sublist ctx.tree.toList := by
    rw [hlist]
    exact List.erase_sublist
  have hmem : ∀ b ∈ (ops.delete ctx.tree a).toList, b ∈ ctx.tree.toList ∧ b ≠ a := by
    intro b hb
    rw [hlist, hn.mem_erase_iff] at hb
    exact ⟨hb.2, hb.1⟩
  have hblock : ∀ b ∈ ctx.tree.toList, b ≠ a → ∀ d, (ctx.node b).data = some d →
      (ctx.pool.pfree (ctx.node a).data).block d = ctx.pool.block d := by
    intro b hb hba d hd
    exact pfree_block_ne _ fun hda => hba (h.apart b hb a ha d hd hda)
  constructor
  · refine ⟨h.request, List.Pairwise.sublist hsub h.ordered, h.distinct.sublist (hsub.map _),
      ?_, ?_, ?_⟩
    · intro b hb
      rw [pfree_next]
      exact h.below b (hmem b hb).1
    · intro b hb
      rcases h.stored b (hmem b hb).1 with hnull | ⟨hc, d, v, hd, hlt, hv⟩
      · exact Or.inl hnull
      · exact Or.inr ⟨hc, d, v, hd, by rwa [pfree_next],
          by rw [hblock b (hmem b hb).1 (hmem b hb).2 d hd, hv]⟩
    · intro b hb c hc d hdb hdc
      exact h.apart b (hmem b hb).1 c (hmem c hc).1 d hdb hdc
  · funext q
    have hlookup : lookupNode { ctx with
        pool := ctx.pool.pfree (ctx.node a).data, tree := ops.delete ctx.tree a } q =
          if q = (ctx.node a).str then none else lookupNode ctx q := by
      refine (lookup_delete ops h.ordered h.distinct ha (strKey q)).trans ?_
      by_cases hq : q = (ctx.node a).str
      · rw [if_pos hq, if_pos (congrArg strKey hq)]
      · rw [if_neg hq, if_neg fun e => hq (strKey_injective e)]
        rfl
    rw [view, hlookup]
    by_cases hq : q = (ctx.node a).str
    · rw [if_pos hq, hq, Function.update_self]
      rfl
    · rw [if_neg hq, Function.update_of_ne hq, view]
      cases hf : lookupNode ctx q with
      | none => rfl
      | some b =>
        obtain ⟨hb, hbq⟩ := lookupNode_mem hf
        have hba : b ≠ a := fun e => hq (by rw [← hbq, e])
        simp only [Option.map_some, readData]
        congr 2
        cases hd : (ctx.node b).data with
        | none => rfl
        | some d => exact hblock b hb hba d hd

/-- A new node is linked under a path that had none. -/
theorem Sound.insert (ops : StrRbtreeOps) {ctx : Ctx} (h : Sound ctx) {path : Bytes}
    (hnew : lookupNode ctx path = none) {pool' : Pool} {n' : Node} {value : Option Bytes}
    (hg : Gives ctx.pool.pcalloc.2 pool' value n') (hstr : n'.str = path) :
    let node := Function.update ctx.node ctx.pool.next n'
    let ctx' : Ctx :=
      { ctx with pool := pool', node := node, tree := ops.insert node ctx.tree ctx.pool.next }
    Sound ctx' ∧ view ctx' = Function.update (view ctx) path (some ⟨value, n'.isConst⟩) := by
  intro node ctx'
  have hnext : ctx.pool.next < pool'.next := Nat.lt_of_succ_le hg.next
  have hself : node ctx.pool.next = n' := Function.update_self ..
  have hold : ∀ b ∈ ctx.tree.toList, node b = ctx.node b := by
    intro b hb
    exact Function.update_of_ne (Nat.ne_of_lt (h.below b hb)) _ _
  have hkeys : ∀ b ∈ ctx.tree.toList, strKey (ctx.node b).str = strKey (node b).str := by
    intro b hb
    rw [hold b hb]
  have ho : Ordered (fun b => strKey (node b).str) ctx.tree := ordered_congr hkeys h.ordered
  have hd : (ctx.tree.toList.map fun b => strKey (node b).str).Nodup := by
    rw [← List.map_congr_left hkeys]
    exact h.distinct
  have hfree : ∀ b ∈ ctx.tree.toList, strKey (node b).str ≠ strKey (node ctx.pool.next).str := by
    intro b hb
    rw [hself, hstr, ← hkeys b hb]
    exact lookup_none _ _ _ h.ordered hnew b hb
  have hperm := ops.insert_perm node ctx.tree ctx.pool.next
  have hmem : ∀ b ∈ ctx'.tree.toList, b = ctx.pool.next ∨ b ∈ ctx.tree.toList := by
    intro b hb
    exact List.mem_cons.mp (hperm.mem_iff.mp hb)
  have hdata : ∀ b ∈ ctx.tree.toList, ∀ d, (ctx.node b).data = some d → d < ctx.pool.next := by
    intro b hb d hdb
    rcases h.stored b hb with ⟨_, _, hnone⟩ | ⟨_, d', v, hd', hlt, _⟩
    · rw [hdb] at hnone
      cases hnone
    · rw [hdb] at hd'
      rwa [Option.some.inj hd']
  have hblock : ∀ d < ctx.pool.next, pool'.block d = ctx.pool.block d := by
    intro d hlt
    exact hg.keeps d (Nat.lt_succ_of_lt hlt)
  have hfresh : ∀ d, n'.data = some d → ctx.pool.next < d := hg.fresh
  constructor
  · refine ⟨h.request, ops.insert_ordered _ _ _ ho, ?_, ?_, ?_, ?_⟩
    · show (((ops.insert node ctx.tree ctx.pool.next).toList).map fun b =>
        strKey (node b).str).Nodup
      rw [(hperm.map _).nodup_iff, List.map_cons, List.nodup_cons, List.mem_map]
      refine ⟨?_, hd⟩
      intro hex
      obtain ⟨b, hb, heq⟩ := hex
      exact hfree b hb heq
    · intro b hb
      rcases hmem b hb with hb | hb
      · rw [hb]
        exact hnext
      · exact Nat.lt_trans (h.below b hb) hnext
    · intro b hb
      show Stored pool' (node b)
      rcases hmem b hb with hb | hb
      · rw [hb, hself]
        exact hg.stored
      · rw [hold b hb]
        rcases h.stored b hb with hnull | ⟨hc, d, v, hdb, hlt, hv⟩
        · exact Or.inl hnull
        · exact Or.inr ⟨hc, d, v, hdb, Nat.lt_trans hlt hnext, by rw [hblock d hlt, hv]⟩
    · intro b hb c hc d hdb hdc
      have hb' : (node b).data = some d := hdb
      have hc' : (node c).data = some d := hdc
      rcases hmem b hb with hb | hb <;> rcases hmem c hc with hc | hc
      · rw [hb, hc]
      · rw [hb, hself] at hb'
        rw [hold c hc] at hc'
        exact absurd (hdata c hc d hc') (Nat.not_lt.mpr (Nat.le_of_lt (hfresh d hb')))
      · rw [hc, hself] at hc'
        rw [hold b hb] at hb'
        exact absurd (hdata b hb d hb') (Nat.not_lt.mpr (Nat.le_of_lt (hfresh d hc')))
      · rw [hold b hb] at hb'
        rw [hold c hc] at hc'
        exact h.apart b hb c hc d hb' hc'
  · funext q
    have hlookup : lookupNode ctx' q =
        if q = path then some ctx.pool.next else lookupNode ctx q := by
      refine (lookup_insert ops ho hd hfree (strKey q)).trans ?_
      rw [hself, hstr]
      by_cases hq : q = path
      · rw [if_pos hq, if_pos (congrArg strKey hq)]
      · rw [if_neg hq, if_neg fun e => hq (strKey_injective e)]
        exact (lookup_congr (strKey q) hkeys).symm
    rw [view, hlookup]
    by_cases hq : q = path
    · rw [if_pos hq, hq, Function.update_self]
      show some (Entry.mk ((node ctx.pool.next).data.bind pool'.block)
        (node ctx.pool.next).isConst) = _
      rw [hself, hg.reads]
    · rw [if_neg hq, Function.update_of_ne hq, view]
      show (lookupNode ctx q).map (fun b => Entry.mk ((node b).data.bind pool'.block)
        (node b).isConst) = _
      cases hf : lookupNode ctx q with
      | none => rfl
      | some b =>
        obtain ⟨hb, _⟩ := lookupNode_mem hf
        simp only [Option.map_some, hold b hb, readData]
        congr 2
        cases hdb : (ctx.node b).data with
        | none => rfl
        | some d => exact hblock d (hdata b hb d hdb)

/-! ### Calls -/

/-- A value that is replaced stays in its block where its successor is refused a copy. -/
def Affords (ctx : Ctx) (path : Bytes) (value : Option Bytes) (grant : Grant) : Prop :=
  ∀ e ∈ view ctx path, ∀ old ∈ e.value, e.isConst = false → value.isSome = true →
    grant.dup = false → old.length ≤ ctx.pool.max

/-- The path of a call given in dots, as the host functions give it. -/
def Kept (ctx : Ctx) : Call → Prop
  | .get _ => True
  | .set path value grant => Affords ctx (replaceNullsByDots path) value grant
  | .setHost path value _ _ grant => 0 ∉ path ∧ Affords ctx path value grant

instance (ctx : Ctx) (path : Bytes) (value : Option Bytes) (grant : Grant) :
    Decidable (Affords ctx path value grant) := by
  unfold Affords
  infer_instance

instance (ctx : Ctx) (c : Call) : Decidable (Kept ctx c) := by
  cases c <;> unfold Kept <;> infer_instance

def callPath : Call → Bytes
  | .get path => path
  | .set path _ _ => path
  | .setHost path _ _ _ _ => path

/-- The path of the call is in the host namespace. -/
def HostCall (c : Call) : Prop := hasPrefix hostPrefix (replaceNullsByDots (callPath c)) = true

instance (c : Call) : Decidable (HostCall c) := by
  unfold HostCall
  infer_instance

theorem replaceNullsByDots_of_dotted {path : Bytes} (h : 0 ∉ path) :
    replaceNullsByDots path = path := by
  induction path with
  | nil => rfl
  | cons b path ih =>
    have hb : b ≠ 0 := fun e => h (by rw [e]; exact List.mem_cons_self ..)
    have hrest := ih fun hm => h (List.mem_cons_of_mem _ hm)
    simp only [replaceNullsByDots, List.map_cons, if_neg hb] at hrest ⊢
    rw [hrest]

/-- The store after a call is sound, shows the map after it, and both answered the same. -/
structure Agrees (r : Ctx × Answer) (m : PropMap × Answer) : Prop where
  sound : Sound r.1
  shows : view r.1 = m.1
  answer : r.2 = m.2

theorem setHost_found (ops : StrRbtreeOps) {ctx : Ctx} (h : Sound ctx) {path : Bytes} {a : ℕ}
    (hl : lookupNode ctx path = some a) {value : Option Bytes} {isConst : Bool} (retrieve : Bool)
    {grant : Grant} (hafford : Affords ctx path value grant) :
    Agrees (propertiesSetHost ops ctx path value isConst retrieve grant)
      (mapSet (view ctx) path value isConst retrieve grant) := by
  obtain ⟨ha, hstr⟩ := lookupNode_mem hl
  have hview : view ctx path = some ⟨readData ctx (ctx.node a), (ctx.node a).isConst⟩ := by
    rw [view, hl]
    rfl
  simp only [propertiesSetHost, hl]
  cases hconst : (ctx.node a).isConst with
  | true =>
    rw [hconst] at hview
    simp only [mapSet, PropMap.set, hview, if_true]
    exact ⟨h, rfl, by simp⟩
  | false =>
    rw [hconst] at hview
    simp only [mapSet, PropMap.set, PropMap.granted, hview, Option.isSome_some, Bool.true_or,
      Bool.true_and, Bool.false_eq_true, if_false]
    by_cases hgone : (value.isNone && !isConst) = true
    · simp only [hgone, if_true]
      obtain ⟨hs, hv⟩ := h.remove ops ha
      rw [hstr] at hv
      have hnone : value = none := Option.isNone_iff_eq_none.mp (Bool.and_eq_true_iff.mp hgone).1
      exact ⟨hs, hv, by simp [hnone]⟩
    · rw [Bool.not_eq_true] at hgone
      simp only [hgone, Bool.false_eq_true, if_false]
      have hnull : (ctx.node a).isConstNull = false := by
        rcases h.stored a ha with ⟨_, hc, _⟩ | ⟨hc, _⟩
        · rw [hconst] at hc
          cases hc
        · exact hc
      have hgranted := setHpnValue_isSome (ctx.pool.pfree (ctx.node a).data) (ctx.node a) value
        isConst grant.dup
      cases hset : setHpnValue (ctx.pool.pfree (ctx.node a).data) (ctx.node a) value isConst
          grant.dup with
      | none =>
        rw [hset] at hgranted
        obtain ⟨hsome, hdup⟩ := Bool.or_eq_false_iff.mp hgranted.symm
        -- the old value was not given back
        have hpool : ctx.pool.pfree (ctx.node a).data = ctx.pool := by
          cases hd : (ctx.node a).data with
          | none => rfl
          | some d =>
            refine pfree_small _ ?_
            intro old hold
            refine hafford _ hview old ?_ rfl (by rw [← Option.not_isNone, hsome]; rfl) hdup
            show (ctx.node a).data.bind ctx.pool.block = some old
            rw [hd]
            exact hold
        simp only [hpool, hsome, hdup, Bool.or_false, Bool.false_eq_true, if_false]
        exact ⟨h, rfl, by simp⟩
      | some r =>
        obtain ⟨pool', n'⟩ := r
        rw [hset] at hgranted
        obtain ⟨hg, hstr', hconst'⟩ := setHpnValue_gives hnull (by
          intro hv
          rw [hv] at hgone
          simpa using hgone) hset
        obtain ⟨hs, hv⟩ := h.replace ha hg hstr'
        rw [hconst', hstr] at hv
        simp only [← hgranted, Option.isSome_some, if_true]
        refine ⟨hs, hv, ?_⟩
        have hread : n'.data.bind pool'.block = value := hg.reads
        simp [readData, hread]

theorem setHost_missing (ops : StrRbtreeOps) {ctx : Ctx} (h : Sound ctx) {path : Bytes}
    (hl : lookupNode ctx path = none) (value : Option Bytes) (isConst retrieve : Bool)
    (grant : Grant) :
    Agrees (propertiesSetHost ops ctx path value isConst retrieve grant)
      (mapSet (view ctx) path value isConst retrieve grant) := by
  have hview : view ctx path = none := by
    rw [view, hl]
    rfl
  simp only [propertiesSetHost, hl, mapSet, PropMap.set, PropMap.granted, hview,
    Option.isSome_none, Bool.false_or]
  by_cases hgone : (value.isNone && !isConst) = true
  · simp only [hgone, if_true]
    have hnone : value = none := Option.isNone_iff_eq_none.mp (Bool.and_eq_true_iff.mp hgone).1
    refine ⟨h, ?_, by simp [hnone]⟩
    show view ctx = Function.update (view ctx) path none
    rw [← hview, Function.update_eq_self]
  · rw [Bool.not_eq_true] at hgone
    simp only [hgone, Bool.false_eq_true, if_false]
    cases hnode : grant.node with
    | false => exact ⟨h, rfl, by simp⟩
    | true =>
      have hgranted := setHpnValue_isSome ctx.pool.pcalloc.2 ⟨path, none, false, false⟩ value
        isConst grant.dup
      simp only [Bool.not_true, Bool.false_eq_true, if_false, Bool.true_and]
      cases hset : setHpnValue ctx.pool.pcalloc.2 ⟨path, none, false, false⟩ value isConst
          grant.dup with
      | none =>
        rw [hset] at hgranted
        simp only [← hgranted, Option.isSome_none, Bool.false_eq_true, if_false]
        exact ⟨h.pcalloc, rfl, by simp⟩
      | some r =>
        obtain ⟨pool', n'⟩ := r
        rw [hset] at hgranted
        obtain ⟨hg, hstr', hconst'⟩ := setHpnValue_gives rfl (by
          intro hv
          rw [hv] at hgone
          simpa using hgone) hset
        obtain ⟨hs, hv⟩ := h.insert ops hl hg hstr'
        rw [hconst'] at hv
        simp only [← hgranted, Option.isSome_some, if_true]
        refine ⟨hs, hv, ?_⟩
        have hread : n'.data.bind pool'.block = value := hg.reads
        simp [readData, hread]

theorem setHost_agrees (ops : StrRbtreeOps) {ctx : Ctx} (h : Sound ctx) {path : Bytes}
    {value : Option Bytes} (isConst retrieve : Bool) {grant : Grant}
    (hafford : Affords ctx path value grant) :
    Agrees (propertiesSetHost ops ctx path value isConst retrieve grant)
      (mapSet (view ctx) path value isConst retrieve grant) := by
  cases hl : lookupNode ctx path with
  | some a => exact setHost_found ops h hl retrieve hafford
  | none => exact setHost_missing ops h hl value isConst retrieve grant

theorem get_agrees (attrs : Attributes) {ctx : Ctx} (h : Sound ctx) {path : Bytes}
    (hp : hasPrefix hostPrefix (replaceNullsByDots path) = true) :
    propertiesGet noFfiHandlers attrs ctx path =
      (ctx, (view ctx).get (replaceNullsByDots path)) := by
  simp only [propertiesGet, h.request, Bool.not_true, Bool.false_and, Bool.false_eq_true, if_false,
    findCombined_host hp, not_ngxPrefix_of_host hp, hp, if_true, propertiesGetHost, noFfiHandlers,
    Option.isSome_none]
  cases hl : lookupNode ctx (replaceNullsByDots path) with
  | none => simp [PropMap.get, view, hl]
  | some a =>
    obtain ⟨ha, _⟩ := lookupNode_mem hl
    rcases h.stored a ha with ⟨hnull, _, hd⟩ | ⟨hnull, d, v, hd, _, hv⟩
    · simp [PropMap.get, view, hl, hnull, readData, hd]
    · simp [PropMap.get, view, hl, hnull, readData, hd, hv]

theorem step_agrees (ops : StrRbtreeOps) (attrs : Attributes) {ctx : Ctx} (h : Sound ctx)
    {c : Call} (hhost : HostCall c) (hc : Kept ctx c) :
    Agrees (step ops noFfiHandlers attrs ctx c) (mapStep (view ctx) c) := by
  cases c with
  | get path =>
    have hget := get_agrees attrs h hhost
    rw [show step ops noFfiHandlers attrs ctx (.get path) = _ from hget]
    exact ⟨h, rfl, rfl⟩
  | set path value grant =>
    have hp : hasPrefix hostPrefix (replaceNullsByDots path) = true := hhost
    have hset : step ops noFfiHandlers attrs ctx (.set path value grant) =
        propertiesSetHost ops ctx (replaceNullsByDots path) value false false grant := by
      simp only [step, propertiesSet, h.request, Bool.not_true, Bool.false_and, Bool.false_eq_true,
        if_false, not_ngxPrefix_of_host hp, findCombined_host hp, hp, if_true, noFfiHandlers]
    rw [hset]
    exact setHost_agrees ops h false false hc
  | setHost path value isConst retrieve grant =>
    obtain ⟨hdots, hafford⟩ := hc
    simp only [step, mapStep, replaceNullsByDots_of_dotted hdots]
    exact setHost_agrees ops h isConst retrieve hafford

/-! ### Runs -/

theorem host_store_refines_map (ops : StrRbtreeOps) (attrs : Attributes) (max : ℕ)
    (calls : List Call) (hhost : ∀ c ∈ calls, HostCall c)
    (hkept : Meets (step ops noFfiHandlers attrs) Kept (newCtx max) calls) :
    let s := exec (step ops noFfiHandlers attrs) (newCtx max) calls
    let m := exec mapStep (fun _ => none) calls
    s.2 = m.2 ∧ ∀ path, hasPrefix hostPrefix (replaceNullsByDots path) = true →
      propertiesGet noFfiHandlers attrs s.1 path = (s.1, m.1.get (replaceNullsByDots path)) := by
  intro s m
  have hstep : ∀ ctx m c, Sound ctx ∧ view ctx = m → HostCall c ∧ Kept ctx c →
      (Sound (step ops noFfiHandlers attrs ctx c).1 ∧
        view (step ops noFfiHandlers attrs ctx c).1 = (mapStep m c).1) ∧
      (step ops noFfiHandlers attrs ctx c).2 = (mapStep m c).2 := by
    intro ctx m c hr hc
    obtain ⟨hs, rfl⟩ := hr
    have ha := step_agrees ops attrs hs hc.1 hc.2
    exact ⟨⟨ha.sound, ha.shows⟩, ha.answer⟩
  have hmeets := meets_and (step ops noFfiHandlers attrs) calls (newCtx max)
    (meets_of_forall _ HostCall calls _ hhost) hkept
  obtain ⟨hend, hanswers⟩ := exec_simulates (step ops noFfiHandlers attrs) mapStep _
    (fun ctx m => Sound ctx ∧ view ctx = m) hstep calls (newCtx max) (fun _ => none)
    ⟨newCtx_sound max, rfl⟩ hmeets
  refine ⟨hanswers, ?_⟩
  intro path hp
  rw [get_agrees attrs hend.1 hp, hend.2]

/-- `wasmx.b` is const NULL; a call on `wasmx.a` is refused its copy. -/
def twoPaths : List Call :=
  [.setHost (ascii "wasmx.a") (some [65]) false false ⟨true, true⟩,
    .setHost (ascii "wasmx.b") none true true ⟨true, true⟩,
    .setHost (ascii "wasmx.b") (some [67]) false false ⟨true, true⟩,
    .set [119, 97, 115, 109, 120, 0, 97] (some [66]) ⟨true, false⟩]

def noAttributes : Attributes :=
  ⟨fun _ _ => ⟨.declined, none⟩, fun _ _ _ => .declined, fun _ _ _ => ⟨.declined, none⟩⟩

def listRbtree : StrRbtreeOps := listOps ℕ fun n : Node => strKey n.str

def listStep : Ctx → Call → Ctx × Answer := step listRbtree noFfiHandlers noAttributes

theorem host_store_refines_map_two_paths :
    let s := exec listStep (newCtx 432) twoPaths
    let m := exec mapStep (fun _ => none) twoPaths
    s.2 = m.2 ∧ ∀ path, hasPrefix hostPrefix (replaceNullsByDots path) = true →
      propertiesGet noFfiHandlers noAttributes s.1 path =
        (s.1, m.1.get (replaceNullsByDots path)) :=
  host_store_refines_map listRbtree noAttributes 432 twoPaths
    (by decide)
    ⟨by decide +kernel, by decide +kernel, by decide +kernel, by decide +kernel, trivial⟩

/-- A value longer than `pool->max` is replaced, and the copy is refused. -/
def refusedUpdate : List Call :=
  [.set (ascii "wasmx.a") (some (List.replicate 433 65)) ⟨true, true⟩,
    .set (ascii "wasmx.a") (some [66]) ⟨true, false⟩, .get (ascii "wasmx.a")]

/-- The refused call loses the value. -/
theorem refused_update_loses_value :
    (∀ c ∈ refusedUpdate, HostCall c) ∧
      (exec listStep (newCtx 432) refusedUpdate).2 =
        [⟨.ok, none⟩, ⟨.error, none⟩, ⟨.ok, none⟩] ∧
      (exec mapStep (fun _ => none) refusedUpdate).2 =
        [⟨.ok, none⟩, ⟨.error, none⟩, ⟨.ok, some (List.replicate 433 65)⟩] := by
  decide +kernel

end NgxWasm.ProxyWasm.HostPropertyMap
