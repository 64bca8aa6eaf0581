import NgxWasm.Wavm.VmLinks

/-!
# Instances

`ngx_wavm_instance_create` and `_destroy` (ngx_wavm.c 891-1066, 1346-1407) with
`ngx_wasmtime_init_extern` and `_destroy_extern`. The pool gives all memory that is asked for. A
failure on the way ends in `ngx_wavm_instance_destroy`, which frees the name of every export of the
module, also of those that the loop never came to, and leaves the arrays and the names of the
functions to the pool.
-/

namespace NgxWasm.Wavm

open NgxWasm NgxWasm.Lib
open NgxWasm.Http.Headers (ascii)
open NgxWasm.Lib.Ledger (Proper held)

/-- What an instance allocates; the numbers are those of exports. -/
inductive InstRes where
  | inst
  | funcs
  | log
  | store
  | wrtInstance
  | externs
  | externName (i : ℕ)
  | funcName (i : ℕ)
  | functype (i : ℕ)
  | args (i : ℕ)
  | rets (i : ℕ)
  deriving Repr, DecidableEq

abbrev InstActs := List (Ledger.Act InstRes)

/-- `ngx_wavm_instance_t`; `funcs` says which functions of the array have a type. -/
structure Instance where
  storeCreated : Bool
  instanceCreated : Bool
  externs : Bool
  exports : ℕ
  funcs : List Bool
  memory : Option ℕ
  deriving Repr, DecidableEq

/-- What the runtime answers while an instance is created; `start` is the result of the call of
`_start` or `_initialize`. -/
structure InstAnswers where
  storeInit : Bool
  instanceInit : Bool
  externInit : ℕ → Bool
  start : Rc

def funcOwned : ℕ → List Bool → List InstRes
  | _, [] => []
  | i, typed :: fs =>
    if typed then .args i :: .rets i :: .functype i :: funcOwned (i + 1) fs
    else funcOwned (i + 1) fs

/-- What `ngx_wavm_instance_destroy` frees, in order. -/
def instOwned (inst : Instance) : List InstRes :=
  funcOwned 0 inst.funcs ++
    (if inst.externs then (List.range inst.exports).map .externName else []) ++
    (.log :: (if inst.instanceCreated then [.wrtInstance] else []) ++
      (if inst.storeCreated then [.store] else []) ++ [.inst])

def instanceDestroy (inst : Instance) : InstActs := (instOwned inst).map .release

def cacheExport (i : ℕ) (kind : ExternKind) (inst : Instance) : Instance × List InstRes :=
  match kind with
  | .func =>
    ({ inst with funcs := inst.funcs ++ [true] },
      [.externName i, .funcName i, .functype i, .args i, .rets i])
  | .memory =>
    ({ inst with funcs := inst.funcs ++ [false], memory := some i }, [.externName i, .funcName i])
  | _ => ({ inst with funcs := inst.funcs ++ [false] }, [.externName i, .funcName i])

/-- The loop over the exports; `false` is a failure. -/
def cacheExports (externInit : ℕ → Bool) : ℕ → List ExternKind → Instance →
    Instance × Bool × List InstRes
  | _, [], inst => (inst, true, [])
  | i, kind :: kinds, inst =>
    if externInit i then
      let r := cacheExport i kind inst
      let rest := cacheExports externInit (i + 1) kinds r.1
      (rest.1, rest.2.1, r.2 ++ rest.2.2)
    else (inst, false, [])

def instanceCreate (m : Module) (ans : InstAnswers) : Option Instance × InstActs :=
  if !m.linked then (none, [])
  else
    let kinds := m.exports.map Export.kind
    let inst : Instance := ⟨false, false, false, kinds.length, [], none⟩
    let made := [.inst, .funcs, .log]
    let fail := fun (inst : Instance) (made : List InstRes) =>
      ((none : Option Instance), made.map Ledger.Act.acquire ++ instanceDestroy inst)
    if !ans.storeInit then fail inst made
    else
      let inst := { inst with storeCreated := true }
      let made := made ++ [.store]
      if !ans.instanceInit then fail inst made
      else
        let r := cacheExports ans.externInit 0 kinds
          { inst with instanceCreated := true, externs := true }
        let made := made ++ [.wrtInstance, .externs] ++ r.2.2
        if !r.2.1 then fail r.1 made
        else if m.fStart.isSome ∧ ans.start ≠ .ok then fail r.1 made
        else (some r.1, made.map .acquire)

/-! ### What the loop over the exports allocates -/

/-- The number of the export that something belongs to. -/
def InstRes.at : InstRes → Option ℕ
  | .externName i => some i
  | .funcName i => some i
  | .functype i => some i
  | .args i => some i
  | .rets i => some i
  | _ => none

/-- What only the end of the pool frees. -/
def InstRes.poolOnly : InstRes → Bool
  | .funcs | .externs | .funcName _ => true
  | _ => false

def kindRes (i : ℕ) (kind : ExternKind) : List InstRes :=
  .externName i :: .funcName i ::
    if kind = .func then [.functype i, .args i, .rets i] else []

def cachedRes : ℕ → List ExternKind → List InstRes
  | _, [] => []
  | i, kind :: kinds => kindRes i kind ++ cachedRes (i + 1) kinds

/-- Whether the exports `kinds` from the number `i` on give rise to `r`. -/
def Caches (i : ℕ) (kinds : List ExternKind) : InstRes → Prop
  | .externName n | .funcName n => i ≤ n ∧ n < i + kinds.length
  | .functype n => i ≤ n ∧ kinds[n - i]? = some .func
  | .args n => i ≤ n ∧ kinds[n - i]? = some .func
  | .rets n => i ≤ n ∧ kinds[n - i]? = some .func
  | _ => False

theorem getElem?_from {α : Type*} (x : α) (xs : List α) (y : α) (i n : ℕ) :
    (i ≤ n ∧ (x :: xs)[n - i]? = some y) ↔
      (n = i ∧ x = y) ∨ (i + 1 ≤ n ∧ xs[n - (i + 1)]? = some y) := by
  rcases Nat.lt_trichotomy n i with h | h | h
  · constructor
    · intro hc
      omega
    · intro hc
      omega
  · subst h
    simp
  · have hsub : n - i = n - (i + 1) + 1 := by omega
    have hne : n ≠ i := by omega
    rw [hsub, List.getElem?_cons_succ]
    simp [hne, Nat.le_of_lt h, Nat.succ_le_of_lt h]

theorem mem_kindRes (i : ℕ) (kind : ExternKind) (r : InstRes) :
    r ∈ kindRes i kind ↔ r = .externName i ∨ r = .funcName i ∨
      (kind = .func ∧ (r = .functype i ∨ r = .args i ∨ r = .rets i)) := by
  unfold kindRes
  split
  · rename_i h
    simp [h]
  · rename_i h
    simp [h]

theorem mem_cachedRes (kinds : List ExternKind) (i : ℕ) (r : InstRes) :
    r ∈ cachedRes i kinds ↔ Caches i kinds r := by
  induction kinds generalizing i with
  | nil =>
    cases r with
    | externName n | funcName n =>
      simp only [cachedRes, Caches, List.length_nil, List.not_mem_nil, false_iff]
      omega
    | _ => simp [cachedRes, Caches]
  | cons kind kinds ih =>
    rw [cachedRes, List.mem_append, ih (i + 1), mem_kindRes]
    cases r with
    | externName n | funcName n =>
      simp only [Caches, List.length_cons, reduceCtorEq, InstRes.externName.injEq,
        InstRes.funcName.injEq, false_or, or_false, and_false]
      omega
    | functype n | args n | rets n =>
      simp [Caches, getElem?_from, and_comm]
    | _ => simp [Caches]

theorem Caches.from {i : ℕ} {kinds : List ExternKind} {r : InstRes} (h : Caches i kinds r) :
    ∃ n, r.at = some n ∧ i ≤ n := by
  cases r with
  | externName n | funcName n | functype n | args n | rets n => exact ⟨n, rfl, h.1⟩
  | _ => exact absurd h id

theorem cachedRes_nodup (kinds : List ExternKind) (i : ℕ) : (cachedRes i kinds).Nodup := by
  induction kinds generalizing i with
  | nil => exact List.nodup_nil
  | cons kind kinds ih =>
    refine List.nodup_append'.mpr ⟨?_, ih (i + 1), ?_⟩
    · unfold kindRes
      split
      · simp
      · simp
    · intro r hr hrest
      obtain ⟨n, hat, hn⟩ := ((mem_cachedRes kinds (i + 1) r).mp hrest).from
      have hone : r.at = some i := by
        rcases (mem_kindRes i kind r).mp hr with rfl | rfl | ⟨-, rfl | rfl | rfl⟩
        · rfl
        · rfl
        · rfl
        · rfl
        · rfl
      rw [hone] at hat
      have := Option.some.inj hat
      omega

theorem mem_funcOwned (fs : List Bool) (i : ℕ) (r : InstRes) :
    r ∈ funcOwned i fs ↔
      ∃ n, (r = .args n ∨ r = .rets n ∨ r = .functype n) ∧ i ≤ n ∧ fs[n - i]? = some true := by
  induction fs generalizing i with
  | nil => simp [funcOwned]
  | cons typed fs ih =>
    simp only [getElem?_from, funcOwned]
    cases typed with
    | false =>
      rw [if_neg (by simp), ih (i + 1)]
      simp
    | true =>
      rw [if_pos rfl]
      simp only [List.mem_cons, ih (i + 1)]
      constructor
      · intro h
        rcases h with h | h | h | ⟨n, hr, hn⟩
        · exact ⟨i, Or.inl h, Or.inl ⟨rfl, trivial⟩⟩
        · exact ⟨i, Or.inr (Or.inl h), Or.inl ⟨rfl, trivial⟩⟩
        · exact ⟨i, Or.inr (Or.inr h), Or.inl ⟨rfl, trivial⟩⟩
        · exact ⟨n, hr, Or.inr hn⟩
      · intro h
        obtain ⟨n, hr, ⟨rfl, _⟩ | hn⟩ := h
        · rcases hr with h | h | h
          · exact Or.inl h
          · exact Or.inr (Or.inl h)
          · exact Or.inr (Or.inr (Or.inl h))
        · exact Or.inr (Or.inr (Or.inr ⟨n, hr, hn⟩))

theorem funcOwned_nodup (fs : List Bool) (i : ℕ) : (funcOwned i fs).Nodup := by
  induction fs generalizing i with
  | nil => exact List.nodup_nil
  | cons typed fs ih =>
    have hlater : ∀ r ∈ funcOwned (i + 1) fs, r ≠ .args i ∧ r ≠ .rets i ∧ r ≠ .functype i := by
      intro r hr
      obtain ⟨n, hr, hn, _⟩ := (mem_funcOwned fs (i + 1) r).mp hr
      rcases hr with rfl | rfl | rfl
      · simp
        omega
      · simp
        omega
      · simp
        omega
    simp only [funcOwned]
    split
    · refine List.nodup_cons.mpr ⟨?_, List.nodup_cons.mpr ⟨?_, List.nodup_cons.mpr ⟨?_, ih _⟩⟩⟩
      · simp only [List.mem_cons, reduceCtorEq, false_or]
        exact fun h => (hlater _ h).1 rfl
      · simp only [List.mem_cons, reduceCtorEq, false_or]
        exact fun h => (hlater _ h).2.1 rfl
      · exact fun h => (hlater _ h).2.2 rfl
    · exact ih _

/-- The exports `done` are cached, the next one is not. -/
theorem cacheExports_spec (externInit : ℕ → Bool) (kinds : List ExternKind) (i : ℕ)
    (inst : Instance) :
    ∃ done rest, kinds = done ++ rest ∧
      (cacheExports externInit i kinds inst).1.funcs =
        inst.funcs ++ done.map (fun kind => decide (kind = .func)) ∧
      (cacheExports externInit i kinds inst).1.storeCreated = inst.storeCreated ∧
      (cacheExports externInit i kinds inst).1.instanceCreated = inst.instanceCreated ∧
      (cacheExports externInit i kinds inst).1.externs = inst.externs ∧
      (cacheExports externInit i kinds inst).1.exports = inst.exports ∧
      (cacheExports externInit i kinds inst).2.2 = cachedRes i done ∧
      ((cacheExports externInit i kinds inst).2.1 = true ↔ rest = []) ∧
      (∀ j < done.length, externInit (i + j) = true) ∧
      (rest ≠ [] → externInit (i + done.length) = false) := by
  induction kinds generalizing i inst with
  | nil => exact ⟨[], [], by simp [cacheExports, cachedRes]⟩
  | cons kind kinds ih =>
    simp only [cacheExports]
    split
    · rename_i hok
      obtain ⟨done, rest, hkinds, hfuncs, hstore, hinst, hexterns, hexports, hres, hall, hgood,
        hbad⟩ := ih (i + 1) (cacheExport i kind inst).1
      have hone : (cacheExport i kind inst).1.funcs = inst.funcs ++ [decide (kind = .func)] ∧
          (cacheExport i kind inst).1.storeCreated = inst.storeCreated ∧
          (cacheExport i kind inst).1.instanceCreated = inst.instanceCreated ∧
          (cacheExport i kind inst).1.externs = inst.externs ∧
          (cacheExport i kind inst).1.exports = inst.exports ∧
          (cacheExport i kind inst).2 = kindRes i kind := by
        cases kind with
        | func => exact ⟨rfl, rfl, rfl, rfl, rfl, rfl⟩
        | global => exact ⟨rfl, rfl, rfl, rfl, rfl, rfl⟩
        | table => exact ⟨rfl, rfl, rfl, rfl, rfl, rfl⟩
        | memory => exact ⟨rfl, rfl, rfl, rfl, rfl, rfl⟩
      obtain ⟨h1, h2, h3, h4, h5, h6⟩ := hone
      refine ⟨kind :: done, rest, ?_, ?_, ?_, ?_, ?_, ?_, ?_, hall, ?_, ?_⟩
      · rw [hkinds, List.cons_append]
      · rw [hfuncs, h1]
        simp
      · rw [hstore, h2]
      · rw [hinst, h3]
      · rw [hexterns, h4]
      · rw [hexports, h5]
      · rw [hres, h6, cachedRes]
      · intro j hj
        cases j with
        | zero => exact hok
        | succ j =>
          have := hgood j (by simpa using hj)
          rwa [Nat.add_right_comm] at this
      · intro hne
        have := hbad hne
        rw [List.length_cons]
        rwa [Nat.add_right_comm] at this
    · rename_i hbad
      refine ⟨[], kind :: kinds, rfl, by simp, rfl, rfl, rfl, rfl, rfl, by simp, by simp, ?_⟩
      intro _
      simpa using hbad

/-! ### What an instance owns -/

theorem mem_instOwned (inst : Instance) (r : InstRes) :
    r ∈ instOwned inst ↔ r ∈ funcOwned 0 inst.funcs ∨
      (inst.externs = true ∧ ∃ n < inst.exports, r = .externName n) ∨ r = .log ∨
      (inst.instanceCreated = true ∧ r = .wrtInstance) ∨
      (inst.storeCreated = true ∧ r = .store) ∨ r = .inst := by
  have hnames : r ∈ (if inst.externs then (List.range inst.exports).map .externName else []) ↔
      inst.externs = true ∧ ∃ n < inst.exports, r = .externName n := by
    split
    · rename_i h
      simp [h, eq_comm]
    · rename_i h
      simp [h]
  have hopt : ∀ (b : Bool) (x : InstRes), r ∈ (if b then [x] else []) ↔ b = true ∧ r = x := by
    intro b x
    cases b with
    | false => simp
    | true => simp
  simp only [instOwned, List.mem_append, List.mem_cons, hnames, hopt,
    List.not_mem_nil, or_false, or_assoc]

theorem instOwned_nodup (inst : Instance) : (instOwned inst).Nodup := by
  have hnames : (if inst.externs then (List.range inst.exports).map InstRes.externName
      else []).Nodup := by
    split
    · exact (List.nodup_map_iff fun _ _ h => InstRes.externName.inj h).mpr List.nodup_range
    · exact List.nodup_nil
  have hlast : (InstRes.log :: (if inst.instanceCreated then [InstRes.wrtInstance] else []) ++
      (if inst.storeCreated then [InstRes.store] else []) ++ [InstRes.inst]).Nodup := by
    cases inst.instanceCreated with
    | false =>
      cases inst.storeCreated with
      | false => decide
      | true => decide
    | true =>
      cases inst.storeCreated with
      | false => decide
      | true => decide
  have hat : ∀ r ∈ (InstRes.log :: (if inst.instanceCreated then [InstRes.wrtInstance] else []) ++
      (if inst.storeCreated then [InstRes.store] else []) ++ [InstRes.inst]), r.at = none := by
    intro r hr
    cases r with
    | externName n | funcName n | functype n | args n | rets n =>
      split at hr <;> split at hr <;> exact absurd hr (by simp)
    | _ => rfl
  have hname : ∀ r ∈ (if inst.externs then (List.range inst.exports).map InstRes.externName
      else []), ∃ n, r = .externName n := by
    intro r hr
    split at hr
    · obtain ⟨n, _, rfl⟩ := List.mem_map.mp hr
      exact ⟨n, rfl⟩
    · exact absurd hr (by simp)
  refine List.nodup_append'.mpr ⟨List.nodup_append'.mpr ⟨funcOwned_nodup _ _, hnames, ?_⟩, hlast, ?_⟩
  · intro r hr hrest
    obtain ⟨n, rfl⟩ := hname r hrest
    obtain ⟨_, hr, _⟩ := (mem_funcOwned _ _ _).mp hr
    simp at hr
  · intro r hr hrest
    have hnone := hat r hrest
    rcases List.mem_append.mp hr with hr | hr
    · obtain ⟨n, hr, _⟩ := (mem_funcOwned _ _ _).mp hr
      rcases hr with rfl | rfl | rfl
      · exact absurd hnone (by simp [InstRes.at])
      · exact absurd hnone (by simp [InstRes.at])
      · exact absurd hnone (by simp [InstRes.at])
    · obtain ⟨n, rfl⟩ := hname r hr
      exact absurd hnone (by simp [InstRes.at])

/-- What was made once the exports `done` are cached. -/
def madeRes (done : List ExternKind) : List InstRes :=
  [.inst, .funcs, .log] ++ [.store] ++ [.wrtInstance, .externs] ++ cachedRes 0 done

theorem madeRes_nodup (done : List ExternKind) : (madeRes done).Nodup := by
  refine List.nodup_append'.mpr ⟨by decide, cachedRes_nodup done 0, ?_⟩
  intro r hr hc
  obtain ⟨n, hat, _⟩ := ((mem_cachedRes done 0 r).mp hc).from
  have hnone : r.at = none := by
    simp only [List.cons_append, List.nil_append, List.mem_cons, List.not_mem_nil, or_false] at hr
    rcases hr with rfl | rfl | rfl | rfl | rfl | rfl <;> rfl
  rw [hnone] at hat
  cases hat

theorem getElem?_isFunc (done : List ExternKind) (n : ℕ) :
    (done.map fun kind => decide (kind = .func))[n]? = some true ↔ done[n]? = some .func := by
  rw [List.getElem?_map]
  cases done[n]? with
  | none => simp
  | some kind => simp

/-- An instance frees what was made, the pool's own apart, and the names of exports that were not
reached. -/
theorem mem_instOwned_cached {inst : Instance} {done : List ExternKind}
    (hstore : inst.storeCreated = true) (hinst : inst.instanceCreated = true)
    (hexterns : inst.externs = true)
    (hfuncs : inst.funcs = done.map fun kind => decide (kind = .func)) (r : InstRes) :
    r ∈ instOwned inst ↔
      (r ∈ madeRes done ∧ r.poolOnly = false ∧ ∀ n, r ≠ .externName n) ∨
        ∃ n < inst.exports, r = .externName n := by
  rw [mem_instOwned, mem_funcOwned, madeRes, List.mem_append, mem_cachedRes, hfuncs]
  simp only [hstore, hinst, hexterns, true_and, Nat.sub_zero, Nat.zero_le, getElem?_isFunc]
  cases r with
  | functype n | args n | rets n => simp [Caches, InstRes.poolOnly]
  | _ => simp [InstRes.poolOnly]

theorem externName_mem_madeRes (done : List ExternKind) (n : ℕ) :
    .externName n ∈ madeRes done ↔ n < done.length := by
  rw [madeRes, List.mem_append, mem_cachedRes, Caches]
  simp

/-- Of what was made for all exports. -/
theorem poolOnly_mem_madeRes (done : List ExternKind) (r : InstRes) :
    r ∈ madeRes done ∧ r.poolOnly = true ↔
      r = .funcs ∨ r = .externs ∨ ∃ n < done.length, r = .funcName n := by
  rw [madeRes, List.mem_append, mem_cachedRes]
  cases r with
  | funcName n => simp [Caches, InstRes.poolOnly]
  | _ => simp [InstRes.poolOnly]

/-! ### From creation to destruction -/

/-- An export is not found in the instance. -/
def ExternFails (m : Module) (ans : InstAnswers) : Prop :=
  m.linked = true ∧ ans.storeInit = true ∧ ans.instanceInit = true ∧
    ∃ i < m.exports.length, ans.externInit i = false

/-- Nothing is freed that is not there, and what is left is the pool's own. -/
def LeftToPool (acts : InstActs) : Prop :=
  Proper [] acts ∧ ∀ r, r ∈ held [] acts ↔ .acquire r ∈ acts ∧ r.poolOnly = true

theorem mem_acquired (made : List InstRes) (inst : Instance) (r : InstRes) :
    .acquire r ∈ made.map Ledger.Act.acquire ++ instanceDestroy inst ↔ r ∈ made := by
  simp [instanceDestroy]

/-- What a failure or a destruction does to the ledger. -/
theorem owned_balance {inst : Instance} {made : List InstRes} (hmade : made.Nodup)
    (h : ∀ r, r ∈ instOwned inst ↔ r ∈ made ∧ r.poolOnly = false) :
    LeftToPool (made.map .acquire ++ instanceDestroy inst) := by
  obtain ⟨hproper, hheld⟩ := Ledger.acquire_release hmade (instOwned_nodup inst)
  have hsub : ∀ r ∈ instOwned inst, r ∈ made := fun r hr => ((h r).mp hr).1
  refine ⟨hproper.mpr hsub, fun r => ?_⟩
  rw [mem_acquired]
  refine (hheld hsub r).trans (and_congr_right fun hr => ?_)
  rw [h r]
  simp [hr]

/-- What is left of a creation that was answered `r`. -/
def Lifecycle (m : Module) (ans : InstAnswers) (r : Option Instance × InstActs) : Prop :=
  (∀ inst, r.1 = some inst →
    inst.funcs = m.exports.map (fun e => decide (e.kind = .func)) ∧
    Proper [] (r.2 ++ instanceDestroy inst) ∧
    ∀ x, x ∈ held [] (r.2 ++ instanceDestroy inst) ↔
      x = .funcs ∨ x = .externs ∨ ∃ n < m.exports.length, x = .funcName n) ∧
  (r.1 = none →
    (Proper [] r.2 ↔ ¬ExternFails m ans) ∧
    (¬ExternFails m ans → ∀ x, x ∈ held [] r.2 ↔ .acquire x ∈ r.2 ∧ x.poolOnly = true))

section
variable {m : Module} {ans : InstAnswers} {inst : Instance} {done : List ExternKind}

theorem lifecycle_failed (hno : ¬ExternFails m ans) {made : List InstRes} (hmade : made.Nodup)
    (hsame : ∀ r, r ∈ instOwned inst ↔ r ∈ made ∧ r.poolOnly = false) :
    Lifecycle m ans (none, made.map .acquire ++ instanceDestroy inst) := by
  obtain ⟨hproper, hheld⟩ := owned_balance hmade hsame
  refine ⟨fun inst h => absurd h (by simp), fun _ => ⟨?_, fun _ => hheld⟩⟩
  simpa only [hno, not_false_eq_true, iff_true] using hproper

/-- Once all exports are cached, what the instance frees is what was made. -/
theorem instOwned_complete (howned : ∀ r, r ∈ instOwned inst ↔
      (r ∈ madeRes done ∧ r.poolOnly = false ∧ ∀ n, r ≠ .externName n) ∨
        ∃ n < inst.exports, r = .externName n)
    (hlen : inst.exports = done.length) (r : InstRes) :
    r ∈ instOwned inst ↔ r ∈ madeRes done ∧ r.poolOnly = false := by
  rw [howned r, hlen]
  cases r with
  | externName n => simp [externName_mem_madeRes, InstRes.poolOnly]
  | _ => simp

theorem lifecycle_returned (hdone : done.length = m.exports.length)
    (hfuncs : inst.funcs = m.exports.map fun e => decide (e.kind = .func))
    (hsame : ∀ r, r ∈ instOwned inst ↔ r ∈ madeRes done ∧ r.poolOnly = false) :
    Lifecycle m ans (some inst, (madeRes done).map .acquire) := by
  obtain ⟨hproper, hheld⟩ := owned_balance (madeRes_nodup done) hsame
  refine ⟨fun x heq => ?_, fun h => absurd h (by simp)⟩
  rw [← Option.some.inj heq]
  refine ⟨hfuncs, hproper, fun r => ?_⟩
  rw [hheld r, mem_acquired, poolOnly_mem_madeRes, hdone]

/-- The name of the export that was not found is freed but was never made. -/
theorem lifecycle_missing (hfail : ExternFails m ans)
    (hname : .externName done.length ∈ instOwned inst) :
    Lifecycle m ans (none, (madeRes done).map .acquire ++ instanceDestroy inst) := by
  refine ⟨fun inst h => absurd h (by simp), fun _ => ⟨?_, fun hno => absurd hfail hno⟩⟩
  refine ⟨fun hp => ?_, fun hno => absurd hfail hno⟩
  have hin := (Ledger.acquire_release (madeRes_nodup done) (instOwned_nodup inst)).1.mp hp
  have hmade := (externName_mem_madeRes done _).mp (hin _ hname)
  exact absurd hmade (Nat.lt_irrefl _)

end

/-- An instance that was created has its functions numbered as the exports, and its destruction
frees everything but the two arrays and the names of the functions. A creation that fails frees
what it made but these, unless an export is not found: then it frees names that were never made. -/
theorem instance_lifecycle (m : Module) (ans : InstAnswers) :
    (∀ inst, (instanceCreate m ans).1 = some inst →
      inst.funcs = m.exports.map (fun e => decide (e.kind = .func)) ∧
      Proper [] ((instanceCreate m ans).2 ++ instanceDestroy inst) ∧
      ∀ r, r ∈ held [] ((instanceCreate m ans).2 ++ instanceDestroy inst) ↔
        r = .funcs ∨ r = .externs ∨ ∃ n < m.exports.length, r = .funcName n) ∧
    ((instanceCreate m ans).1 = none →
      (Proper [] (instanceCreate m ans).2 ↔ ¬ExternFails m ans) ∧
      (¬ExternFails m ans → ∀ r, r ∈ held [] (instanceCreate m ans).2 ↔
        .acquire r ∈ (instanceCreate m ans).2 ∧ r.poolOnly = true)) := by
  change Lifecycle m ans (instanceCreate m ans)
  unfold instanceCreate
  cases hlink : m.linked with
  | false =>
    have hno : ¬ExternFails m ans := fun h => absurd h.1 (by simp [hlink])
    exact ⟨fun inst h => absurd h (by simp), fun _ => ⟨by simp [Proper, hno], by simp [held]⟩⟩
  | true =>
  rw [if_neg (by simp)]
  cases hstore : ans.storeInit with
  | false =>
    have hno : ¬ExternFails m ans := fun h => absurd h.2.1 (by simp [hstore])
    rw [if_pos (by simp)]
    refine lifecycle_failed hno (by decide) ?_
    intro r
    cases r <;> simp [mem_instOwned, funcOwned, InstRes.poolOnly]
  | true =>
  rw [if_neg (by simp)]
  cases hinst : ans.instanceInit with
  | false =>
    have hno : ¬ExternFails m ans := fun h => absurd h.2.2.1 (by simp [hinst])
    rw [if_pos (by simp)]
    refine lifecycle_failed hno (by decide) ?_
    intro r
    cases r <;> simp [mem_instOwned, funcOwned, InstRes.poolOnly]
  | true =>
  rw [if_neg (by simp)]
  obtain ⟨done, rest, hkinds, hfuncs, hs, hi, hx, hn, hres, hall, hgood, hbad⟩ :=
    cacheExports_spec ans.externInit (m.exports.map Export.kind) 0
      ⟨true, true, true, (m.exports.map Export.kind).length, [], none⟩
  dsimp only
  generalize cacheExports ans.externInit 0 (m.exports.map Export.kind)
    ⟨true, true, true, (m.exports.map Export.kind).length, [], none⟩ = r at *
  rw [hres]
  have hmade : [InstRes.inst, .funcs, .log] ++ [.store] ++ [.wrtInstance, .externs] ++
      cachedRes 0 done = madeRes done := rfl
  rw [hmade]
  have howned := mem_instOwned_cached hs hi hx (by simpa using hfuncs)
  by_cases hrest : rest = []
  · subst hrest
    have hdone : done.length = m.exports.length := by
      rw [← List.append_nil done, ← hkinds, List.length_map]
    have hno : ¬ExternFails m ans := by
      intro h
      obtain ⟨i, hlt, hfail⟩ := h.2.2.2
      rw [← Nat.zero_add i, hgood i (hdone ▸ hlt)] at hfail
      exact absurd hfail (by simp)
    have hsame := instOwned_complete howned (by rw [hn, hkinds, List.append_nil])
    have htrue : r.2.1 = true := hall.mpr rfl
    rw [if_neg (by simp [htrue])]
    by_cases hstart : m.fStart.isSome = true ∧ ans.start ≠ .ok
    · rw [if_pos hstart]
      exact lifecycle_failed hno (madeRes_nodup done) hsame
    · rw [if_neg hstart]
      refine lifecycle_returned hdone ?_ hsame
      rw [hfuncs, List.nil_append, ← List.append_nil done, ← hkinds, List.map_map]
      rfl
  · have hlt : done.length < m.exports.length := by
      have hlen := congrArg List.length hkinds
      rw [List.length_map, List.length_append] at hlen
      have := List.length_pos_iff.mpr hrest
      omega
    have hfail : ExternFails m ans :=
      ⟨hlink, hstore, hinst, done.length, hlt, by simpa using hbad hrest⟩
    have hfalse : r.2.1 ≠ true := fun h => hrest (hall.mp h)
    rw [if_pos (by simpa using hfalse)]
    refine lifecycle_missing hfail ((howned _).mpr (Or.inr ⟨done.length, ?_, rfl⟩))
    rw [hn, List.length_map]
    exact hlt

end NgxWasm.Wavm
