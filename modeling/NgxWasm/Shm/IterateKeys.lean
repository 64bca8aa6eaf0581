import NgxWasm.Lib.Run
import NgxWasm.Shm.KvInvariant

/-!
# Iterating the keys of a zone (ngx_wasm_lua_ffi.c, lib/resty/wasmx/shm.lua)

`retrieve_keys`, `ngx_wa_ffi_shm_iterate_keys` and, in Lua, `key_iterator` and
`shm_iterate_keys`. All iterators of a worker fill one buffer of 500 pointers: the
constructor of an iterator reads a global `page_size`, which is nil, where it means
`opts.page_size`. A call of `key_iterator` that fetches a page sleeps first; nothing of
its own iterator changes meanwhile.
-/

namespace NgxWasm.Shm.IterateKeys
open NgxWasm NgxWasm.Lib NgxWasm.Lib.Run SearchTree NgxWasm.Shm.Kv

/-! ### Zones -/

def preorder {α : Type*} : SearchTree.Tree α → List α
  | .leaf => []
  | .node l a r => a :: (preorder l ++ preorder r)

theorem preorder_perm {α : Type*} (t : SearchTree.Tree α) : (preorder t).Perm t.toList := by
  induction t with
  | leaf => exact .refl _
  | node l a r ihl ihr =>
    exact ((ihl.append ihr).cons a).trans List.perm_middle.symm

/-- A store of `nelts` keys. A worker addresses less than `2 ^ 53` nodes. -/
structure Table where
  store : KvStore
  counted : store.nelts = store.tree.toList.length
  distinct : (store.tree.toList.map fun n => (store.node n).key).Nodup
  small : store.nelts < 2 ^ 53

/-- The stores that the calls of `ngx_wa_shm_kv.c` keep sound are tables. -/
def Table.ofSound {zone : Zone} (s : KvStore) (h : KvInvariant.Sound zone 0 s)
    (hs : s.nelts < 2 ^ 53) : Table where
  store := s
  counted := h.counted
  distinct := by
    refine List.Nodup.of_map crc32 ?_
    rw [List.map_map]
    rw [show s.tree.toList.map (crc32 ∘ fun n => (s.node n).key) =
      s.tree.toList.map fun n => (s.node n).hash from
        List.map_congr_left fun n hn => (h.hashed n hn).symm]
    exact h.distinct
  small := hs

namespace Table

/-- The keys in the order of the walk. -/
def keys (t : Table) : List Bytes := (preorder t.store.tree).map fun n => (t.store.node n).key

theorem keys_length (t : Table) : t.keys.length = t.store.nelts := by
  rw [keys, List.length_map, (preorder_perm _).length_eq, t.counted]

theorem keys_nodup (t : Table) : t.keys.Nodup :=
  ((preorder_perm _).map _).nodup_iff.mpr t.distinct

end Table

structure WaShm where
  table : Table
  locked : Bool

/-! ### `ngx_wa_ffi_shm_iterate_keys` -/

/-- Difference of two `ngx_uint_t`. -/
def sub64 (a b : ℕ) : ℕ := (a + (2 ^ 64 - b)) % 2 ^ 64

/-- `*cur_idx`, and the slots of `keys` that were written with the node in each. -/
structure Walk where
  cur : ℕ
  writes : List (ℕ × ℕ)

def retrieveKeys (limit start : ℕ) : SearchTree.Tree ℕ → Walk → Walk
  | .leaf, w => w
  | .node l a r, w =>
    if sub64 w.cur start = limit then w
    else
      let writes := if start ≤ w.cur then w.writes ++ [(w.cur - start, a)] else w.writes
      retrieveKeys limit start r (retrieveKeys limit start l ⟨(w.cur + 1) % 2 ^ 64, writes⟩)

/-- The page that is fetched; `cur` and `last` are `*cur_idx` and `*clast_idx` afterwards. -/
structure Page where
  rc : Rc
  last : ℕ
  cur : ℕ
  writes : List (ℕ × ℕ)

def iterateKeys (shm : WaShm) (pageSize last cur : ℕ) : Page :=
  if !shm.locked then ⟨.abort, last, cur, []⟩
  else if shm.table.store.nelts ≤ last then ⟨.done, last, cur, []⟩
  else
    let w := retrieveKeys pageSize last shm.table.store.tree ⟨cur, []⟩
    let cur := sub64 w.cur last
    ⟨.ok, (last + cur) % 2 ^ 64, cur, w.writes⟩

/-! ### Iterators -/

def defaultKeysPageSize : ℕ := 500

/-- `ctx` of an iterator. `out` is not in the source: what its calls returned. -/
structure Iter where
  zone : ℕ
  pageSize : ℕ
  i : ℕ := 0
  last : ℕ := 0
  cur : ℕ := 0
  out : List (Option Bytes) := []

/-- The iterators of a worker and `_kbuf`, which holds a zone and a node for each pointer.
`overrun` records a write behind its end. -/
structure State where
  iters : List Iter := []
  kbuf : ℕ → Option (ℕ × ℕ) := fun _ => none
  overrun : Bool := false

inductive Event where
  | iterate (zone : ℕ) (pageSize : Option ℕ)
  | call (k : ℕ)
  deriving Repr, DecidableEq

section
variable (zones : ℕ → WaShm)

/-- `ctx.ckeys` is `_kbuf` for every page size. -/
def shmIterateKeys (zone : ℕ) (pageSize : Option ℕ) (st : State) : State :=
  match pageSize with
  | none => { st with iters := st.iters ++ [{ zone := zone, pageSize := defaultKeysPageSize }] }
  | some 0 => st  -- "opts.page_size must be > 0"
  | some n => { st with iters := st.iters ++ [{ zone := zone, pageSize := n }] }

def writeKeys (zone : ℕ) (writes : List (ℕ × ℕ)) (kbuf : ℕ → Option (ℕ × ℕ)) :
    ℕ → Option (ℕ × ℕ) :=
  writes.foldl (fun kbuf w => Function.update kbuf w.1 (some (zone, w.2))) kbuf

def keyAt (p : ℕ × ℕ) : Bytes := ((zones p.1).table.store.node p.2).key

/-- The end of `key_iterator`; `none` where a null pointer is read. -/
def yieldKey (k : ℕ) (it : Iter) (st : State) : Option State :=
  (st.kbuf it.i).map fun p => { st with
    iters := st.iters.set k { it with i := it.i + 1, out := it.out ++ [some (keyAt zones p)] } }

def keyIterator (k : ℕ) (st : State) : Option State :=
  match st.iters[k]? with
  | none => some st
  | some it =>
    if it.i = it.cur then
      let page := iterateKeys (zones it.zone) (it.pageSize % 2 ^ 64) it.last 0
      let it := { it with i := 0, cur := page.cur, last := page.last }
      let st := { st with
        iters := st.iters.set k it
        kbuf := writeKeys it.zone page.writes st.kbuf
        overrun := st.overrun || page.writes.any fun w => decide (defaultKeysPageSize ≤ w.1) }
      match page.rc with
      | .ok => yieldKey zones k it st
      | .done => some { st with iters := st.iters.set k { it with out := it.out ++ [none] } }
      -- "attempt to call iterate_keys() but the shm zone is not locked"
      | _ => some st
    else yieldKey zones k it st

def next (st : State) : Event → Option State
  | .iterate zone pageSize => some (shmIterateKeys zone pageSize st)
  | .call k => keyIterator zones k st

def step (st : Option State) (e : Event) : Option State × Unit := (st.bind (next zones · e), ())

end

/-! ### The walk -/

/-- What the walk does with the node of number `p.2`. -/
def slot (limit start : ℕ) (p : ℕ × ℕ) : Option (ℕ × ℕ) :=
  if start ≤ p.2 ∧ p.2 < start + limit then some (p.2 - start, p.1) else none

theorem slots_full {limit start base : ℕ} (h : start + limit ≤ base) (xs : List ℕ) :
    (xs.zipIdx base).filterMap (slot limit start) = [] := by
  rw [List.filterMap_eq_nil_iff]
  intro p hp
  have hle := List.le_snd_of_mem_zipIdx hp
  rw [slot, if_neg (by omega)]

theorem retrieveKeys_eq {limit start : ℕ} (hlimit : limit < 2 ^ 64)
    (hwrap : start = 0 ∨ start + limit < 2 ^ 64) (t : SearchTree.Tree ℕ) :
    ∀ w : Walk, w.cur ≤ start + limit → w.cur + (preorder t).length < 2 ^ 64 → start < 2 ^ 64 →
      retrieveKeys limit start t w =
        ⟨min (w.cur + (preorder t).length) (start + limit),
          w.writes ++ ((preorder t).zipIdx w.cur).filterMap (slot limit start)⟩ := by
  induction t with
  | leaf =>
    intro w hw _ _
    simp [retrieveKeys, preorder, Nat.min_eq_left hw]
  | node l a r ihl ihr =>
    intro w hw hn hs
    obtain ⟨cur, writes⟩ := w
    simp only at hw hn ⊢
    rw [preorder, List.length_cons, List.length_append] at hn
    rw [retrieveKeys]
    by_cases hstop : cur = start + limit
    · have hsub : sub64 cur start = limit := by
        rw [sub64, hstop]
        omega
      rw [if_pos hsub, slots_full (by omega), List.append_nil, hstop]
      congr 1
      omega
    · have hsub : sub64 cur start ≠ limit := by
        rw [sub64]
        rcases hwrap with h0 | hle
        · subst h0
          omega
        · by_cases hle' : start ≤ cur <;> omega
      rw [if_neg hsub]
      have hwrites : (if start ≤ cur then writes ++ [(cur - start, a)] else writes) =
          writes ++ [(a, cur)].filterMap (slot limit start) := by
        by_cases hle : start ≤ cur
        · have hin : start ≤ cur ∧ cur < start + limit := ⟨hle, by omega⟩
          simp [slot, hle, hin.2]
        · simp [slot, hle]
      simp only [hwrites]
      rw [Nat.mod_eq_of_lt (show cur + 1 < 2 ^ 64 by omega)]
      rw [ihl _ (by simp only; omega) (by simp only; omega) hs]
      rw [ihr _ (by simp only; omega) (by simp only; omega) hs]
      -- behind a full page the right subtree adds nothing
      have hright : ((preorder r).zipIdx (min (cur + 1 + (preorder l).length) (start + limit))).filterMap
          (slot limit start) =
            ((preorder r).zipIdx (cur + 1 + (preorder l).length)).filterMap (slot limit start) := by
        by_cases hle : cur + 1 + (preorder l).length ≤ start + limit
        · rw [Nat.min_eq_left hle]
        · rw [slots_full (by omega), slots_full (by omega)]
      simp only [hright, preorder, List.zipIdx_cons, List.zipIdx_append, List.length_cons,
        List.length_append, List.append_assoc]
      congr 1
      · omega
      · rw [← List.filterMap_append, ← List.filterMap_append]
        rfl

/-! ### Pages -/

def pageLength (t : Table) (pageSize last : ℕ) : ℕ := min pageSize (t.store.nelts - last)

theorem preorder_length (t : Table) : (preorder t.store.tree).length = t.store.nelts := by
  rw [← t.keys_length, Table.keys, List.length_map]

/-- A page holds the nodes of the walk from `last` on. -/
theorem iterateKeys_page {shm : WaShm} {pageSize last : ℕ} (hlocked : shm.locked = true)
    (hlast : last < shm.table.store.nelts) (hsize : pageSize < 2 ^ 64)
    (hwrap : last = 0 ∨ pageSize ≤ last) :
    ∃ writes, iterateKeys shm pageSize last 0 =
        ⟨.ok, last + pageLength shm.table pageSize last, pageLength shm.table pageSize last, writes⟩ ∧
      ∀ s a, (s, a) ∈ writes ↔ s < pageLength shm.table pageSize last ∧
        (preorder shm.table.store.tree)[last + s]? = some a := by
  have hsmall := shm.table.small
  have hlength := preorder_length shm.table
  have hw := retrieveKeys_eq hsize
    (by rcases hwrap with h | h <;> [exact .inl h; exact .inr (by omega)])
    shm.table.store.tree ⟨0, []⟩ (Nat.zero_le _) (by rw [hlength]; simp only; omega) (by omega)
  rw [hlength] at hw
  simp only [Nat.zero_add, List.nil_append] at hw
  have hcur : sub64 (min shm.table.store.nelts (last + pageSize)) last =
      pageLength shm.table pageSize last := by
    rw [sub64, pageLength]
    omega
  refine ⟨((preorder shm.table.store.tree).zipIdx).filterMap (slot pageSize last), ?_, ?_⟩
  · have hmod : (last + pageLength shm.table pageSize last) % 2 ^ 64 =
        last + pageLength shm.table pageSize last := Nat.mod_eq_of_lt (by rw [pageLength]; omega)
    rw [iterateKeys, hlocked, if_neg (by simp), if_neg (by omega)]
    simp only [hw, hcur, hmod]
  · intro s a
    simp only [List.mem_filterMap, List.mem_zipIdx_iff_getElem?, slot, Prod.exists]
    constructor
    · intro h
      obtain ⟨b, idx, hget, hslot⟩ := h
      split at hslot
      next hin =>
        rw [Option.some.injEq, Prod.mk.injEq] at hslot
        obtain ⟨rfl, rfl⟩ := hslot
        have hlt := (List.getElem?_eq_some_iff.mp hget).1
        rw [hlength] at hlt
        rw [show last + (idx - last) = idx by omega]
        exact ⟨by rw [pageLength]; omega, hget⟩
      next => simp at hslot
    · intro h
      obtain ⟨hs, hget⟩ := h
      rw [pageLength] at hs
      exact ⟨a, last + s, hget, by rw [if_pos (by omega)]; simp⟩

theorem writeKeys_other {zone s : ℕ} {writes : List (ℕ × ℕ)} {kbuf : ℕ → Option (ℕ × ℕ)}
    (h : ∀ w ∈ writes, w.1 ≠ s) : writeKeys zone writes kbuf s = kbuf s := by
  induction writes generalizing kbuf with
  | nil => rfl
  | cons w writes ih =>
    rw [writeKeys, List.foldl_cons]
    rw [← writeKeys, ih fun w' hw' => h w' (List.mem_cons_of_mem _ hw')]
    exact Function.update_of_ne (Ne.symm (h w (List.mem_cons_self ..))) _ _

theorem writeKeys_slot {zone s a : ℕ} {writes : List (ℕ × ℕ)} {kbuf : ℕ → Option (ℕ × ℕ)}
    (hmem : (s, a) ∈ writes) (hall : ∀ b, (s, b) ∈ writes → b = a) :
    writeKeys zone writes kbuf s = some (zone, a) := by
  induction writes generalizing kbuf with
  | nil => simp at hmem
  | cons w writes ih =>
    have hrest : ∀ b, (s, b) ∈ writes → b = a := fun b hb => hall b (List.mem_cons_of_mem _ hb)
    rw [writeKeys, List.foldl_cons, ← writeKeys]
    by_cases hin : (s, a) ∈ writes
    · exact ih hin hrest
    · obtain rfl : (s, a) = w := (List.mem_cons.mp hmem).resolve_right hin
      rw [writeKeys_other]
      · exact Function.update_self ..
      · intro w hw heq
        obtain ⟨s', b⟩ := w
        simp only at heq
        subst heq
        rw [hrest b hw] at hw
        exact hin hw

/-! ### Runs -/

section
variable {zones : ℕ → WaShm} {st : State} {it : Iter} {k : ℕ}

/-- The event makes an iterator. -/
def opens : Event → Bool
  | .iterate _ pageSize => pageSize != some 0
  | .call _ => false

/-- The calls of iterator `k`, which is one of the iterators from the event on before which there
are more than `k`. -/
def callsFrom (k : ℕ) : ℕ → List Event → ℕ
  | _, [] => 0
  | made, e :: es =>
    (if e = .call k ∧ k < made then 1 else 0) +
      callsFrom k (if opens e then made + 1 else made) es

def calls (k : ℕ) (es : List Event) : ℕ := callsFrom k 0 es

/-- Of `n` calls the first ones returned the keys in some order, each key once, and those after
them nil. -/
def Exact (keys : List Bytes) (n : ℕ) (out : List (Option Bytes)) : Prop :=
  ∃ order : List Bytes, order.Perm keys ∧ out = (List.range n).map fun i => order[i]?

def AllExact (zones : ℕ → WaShm) (es : List Event) (st : Option State) : Prop :=
  ∃ s, st = some s ∧ s.overrun = false ∧ s.iters.length = es.countP opens ∧
    ∀ k it, s.iters[k]? = some it → Exact (zones it.zone).table.keys (calls k es) it.out

/-- A page of `c` keys leaves the keys that an iterator still has to read. -/
def Keeps (zones : ℕ → WaShm) (st : State) (it : Iter) (c : ℕ) (other : Iter) : Prop :=
  ∀ s < other.cur, other.i ≤ s → s < c →
    (st.kbuf s).map (keyAt zones) = (zones it.zone).table.keys[it.last + s]?

instance (zones : ℕ → WaShm) (st : State) (it : Iter) (c : ℕ) (other : Iter) :
    Decidable (Keeps zones st it c other) := Nat.decidableBallLT _ _

/-- Pages have keys, fit into the buffer and keep what other iterators read. -/
def Fits (zones : ℕ → WaShm) (st : State) : Event → Prop
  | .iterate _ _ => True
  | .call k => ∀ it ∈ st.iters[k]?, it.i = it.cur → it.last < (zones it.zone).table.store.nelts →
      it.pageSize % 2 ^ 64 ≠ 0 ∧
      pageLength (zones it.zone).table (it.pageSize % 2 ^ 64) it.last ≤ defaultKeysPageSize ∧
      ∀ j < st.iters.length, j ≠ k → ∀ other ∈ st.iters[j]?, Keeps zones st it
        (pageLength (zones it.zone).table (it.pageSize % 2 ^ 64) it.last) other

instance (zones : ℕ → WaShm) (st : State) (e : Event) : Decidable (Fits zones st e) := by
  cases e <;> unfold Fits <;> infer_instance

structure Walking (zones : ℕ → WaShm) (kbuf : ℕ → Option (ℕ × ℕ)) (it : Iter) : Prop where
  i_le : it.i ≤ it.cur
  cur_le : it.cur ≤ it.last
  last_le : it.last ≤ (zones it.zone).table.store.nelts
  whole : it.last = 0 ∨ it.pageSize % 2 ^ 64 ≤ it.last ∨
    it.last = (zones it.zone).table.store.nelts
  page : ∀ s < it.cur, it.i ≤ s →
    (kbuf s).map (keyAt zones) = (zones it.zone).table.keys[it.last - it.cur + s]?
  out : ∃ m, it.out = ((zones it.zone).table.keys.take (it.last - it.cur + it.i)).map some ++
      List.replicate m none ∧
    (0 < m → it.i = it.cur ∧ it.last = (zones it.zone).table.store.nelts)

def Inv (zones : ℕ → WaShm) (st : State) : Prop :=
  st.overrun = false ∧ ∀ it ∈ st.iters, Walking zones st.kbuf it

theorem getElem?_range_map {α : Type*} (xs : List α) (n m : ℕ)
    (h : 0 < m → xs.length ≤ n) :
    (xs.take n).map some ++ List.replicate m none =
      (List.range ((xs.take n).length + m)).map fun i => xs[i]? := by
  apply List.ext_getElem?
  intro i
  rw [List.getElem?_map, List.getElem?_append, List.length_map]
  by_cases hi : i < (xs.take n).length
  · have hn : i < n := by
      rw [List.length_take] at hi
      omega
    have hx : i < xs.length := by
      rw [List.length_take] at hi
      omega
    rw [if_pos hi, List.getElem?_map, List.getElem?_take_of_lt hn,
      List.getElem?_range (Nat.lt_add_right m hi), Option.map_some, List.getElem?_eq_getElem hx,
      Option.map_some]
  · rw [if_neg hi, List.getElem?_replicate]
    by_cases hm : i - (xs.take n).length < m
    · have hall := h (Nat.zero_lt_of_lt hm)
      have hx : xs[i]? = none := by
        rw [List.take_of_length_le hall] at hi
        exact List.getElem?_eq_none (Nat.le_of_not_lt hi)
      rw [if_pos hm, List.getElem?_range (by omega), Option.map_some, hx]
    · rw [if_neg hm, List.getElem?_eq_none (by rw [List.length_range]; omega)]
      rfl

/-- The keys come in the order of the walk. -/
theorem Walking.exact {kbuf : ℕ → Option (ℕ × ℕ)} (h : Walking zones kbuf it) :
    Exact (zones it.zone).table.keys it.out.length it.out := by
  obtain ⟨m, hout, hm⟩ := h.out
  refine ⟨_, .refl _, ?_⟩
  have hle := h.cur_le
  have hall : 0 < m → (zones it.zone).table.keys.length ≤ it.last - it.cur + it.i := by
    intro hpos
    obtain ⟨hi, hlast⟩ := hm hpos
    rw [Table.keys_length]
    omega
  have hlen : it.out.length =
      ((zones it.zone).table.keys.take (it.last - it.cur + it.i)).length + m := by
    rw [hout, List.length_append, List.length_map, List.length_replicate]
  rw [hlen, ← getElem?_range_map _ _ _ hall]
  exact hout

theorem Walking.congr {kbuf kbuf' : ℕ → Option (ℕ × ℕ)} (h : Walking zones kbuf it)
    (hpage : ∀ s < it.cur, it.i ≤ s →
      (kbuf' s).map (keyAt zones) = (kbuf s).map (keyAt zones)) : Walking zones kbuf' it :=
  ⟨h.i_le, h.cur_le, h.last_le, h.whole, fun s hs hi => (hpage s hs hi).trans (h.page s hs hi),
    h.out⟩

/-- The iterators other than `k` keep on walking. -/
def Others (zones : ℕ → WaShm) (k : ℕ) (st : State) (kbuf : ℕ → Option (ℕ × ℕ)) : Prop :=
  ∀ j it, j ≠ k → st.iters[j]? = some it → Walking zones kbuf it

theorem walking_set {kbuf : ℕ → Option (ℕ × ℕ)} (hother : Others zones k st kbuf)
    (h : Walking zones kbuf it) : ∀ it' ∈ st.iters.set k it, Walking zones kbuf it' := by
  intro it' hit'
  obtain ⟨j, hj⟩ := List.mem_iff_getElem?.mp hit'
  rw [List.getElem?_set] at hj
  split at hj
  next =>
    split at hj
    next =>
      rw [Option.some.injEq] at hj
      exact hj ▸ h
    next => cases hj
  next hkj => exact hother j it' (fun heq => hkj heq.symm) hj

/-- A slot of the own page is read. -/
theorem yieldKey_inv (hover : st.overrun = false) (hother : Others zones k st st.kbuf)
    (h : Walking zones st.kbuf it) (hi : it.i < it.cur) :
    ∃ st', yieldKey zones k it st = some st' ∧ Inv zones st' := by
  have hle := h.cur_le
  have hlast := h.last_le
  have hlt : it.last - it.cur + it.i < (zones it.zone).table.keys.length := by
    rw [Table.keys_length]
    omega
  have hpage := h.page it.i hi (Nat.le_refl _)
  rw [List.getElem?_eq_getElem hlt] at hpage
  obtain ⟨p, hp, hkey⟩ := Option.map_eq_some_iff.mp hpage
  simp only [yieldKey, hp, Option.map_some]
  refine ⟨_, rfl, hover, walking_set hother ?_⟩
  obtain ⟨m, hout, hm⟩ := h.out
  have hzero : m = 0 := by
    by_contra hne
    have := (hm (Nat.pos_of_ne_zero hne)).1
    omega
  subst hzero
  rw [List.replicate_zero, List.append_nil] at hout
  refine ⟨hi, h.cur_le, h.last_le, h.whole, ?_, 0, ?_, fun h0 => absurd h0 (by simp)⟩
  · intro s hs hle'
    exact h.page s hs (Nat.le_of_succ_le hle')
  · simp only [hout, hkey, List.replicate_zero, List.append_nil]
    rw [← Nat.add_assoc, List.take_add_one, List.getElem?_eq_getElem hlt, List.map_append]
    rfl

/-- A page that fits is fetched. -/
theorem fetch_walking (h : Walking zones st.kbuf it) (hi : it.i = it.cur)
    (hlocked : (zones it.zone).locked = true)
    (hlast : it.last < (zones it.zone).table.store.nelts)
    (hsize : it.pageSize % 2 ^ 64 ≠ 0)
    (hfit : pageLength (zones it.zone).table (it.pageSize % 2 ^ 64) it.last ≤ defaultKeysPageSize) :
    ∃ page, iterateKeys (zones it.zone) (it.pageSize % 2 ^ 64) it.last 0 = page ∧ page.rc = .ok ∧
      (page.writes.any fun w => decide (defaultKeysPageSize ≤ w.1)) = false ∧ 0 < page.cur ∧
      Walking zones (writeKeys it.zone page.writes st.kbuf)
        { it with i := 0, cur := page.cur, last := page.last } ∧
      (∀ s, page.cur ≤ s → writeKeys it.zone page.writes st.kbuf s = st.kbuf s) ∧
      page.cur = pageLength (zones it.zone).table (it.pageSize % 2 ^ 64) it.last ∧
      ∀ s < page.cur, (writeKeys it.zone page.writes st.kbuf s).map (keyAt zones) =
        (zones it.zone).table.keys[it.last + s]? := by
  have hwhole : it.last = 0 ∨ it.pageSize % 2 ^ 64 ≤ it.last := by
    rcases h.whole with hw | hw | hw <;> [exact .inl hw; exact .inr hw; omega]
  obtain ⟨writes, hpage, hwrites⟩ := iterateKeys_page hlocked hlast (Nat.mod_lt _ (by simp)) hwhole
  generalize hc : pageLength (zones it.zone).table (it.pageSize % 2 ^ 64) it.last = c at *
  have hcle : c ≤ it.pageSize % 2 ^ 64 ∧ c ≤ (zones it.zone).table.store.nelts - it.last := by
    rw [← hc, pageLength]
    omega
  have hpos : 0 < c := by
    rw [← hc, pageLength]
    omega
  have hkeys : ∀ s < c, (writeKeys it.zone writes st.kbuf s).map (keyAt zones) =
      (zones it.zone).table.keys[it.last + s]? := by
    intro s hs
    have hlt : it.last + s < (preorder (zones it.zone).table.store.tree).length := by
      rw [preorder_length]
      omega
    have hget := List.getElem?_eq_getElem hlt
    rw [writeKeys_slot ((hwrites s _).mpr ⟨hs, hget⟩)]
    · rw [Table.keys, List.getElem?_map, hget]
      rfl
    · intro b hb
      have hb' := ((hwrites s b).mp hb).2
      rw [hget] at hb'
      exact (Option.some.inj hb').symm
  have hkept : ∀ s, c ≤ s → writeKeys it.zone writes st.kbuf s = st.kbuf s := by
    intro s hs
    refine writeKeys_other fun w hw heq => ?_
    have hlt := ((hwrites w.1 w.2).mp hw).1
    omega
  refine ⟨_, hpage, rfl, ?_, hpos, ?_, hkept, hc ▸ rfl, hkeys⟩
  · rw [List.any_eq_false]
    intro w hw
    have hlt := ((hwrites w.1 w.2).mp hw).1
    simp only [decide_eq_true_eq]
    omega
  · refine ⟨Nat.zero_le _, by simp only; omega, by simp only; omega, ?_, ?_, ?_⟩
    · simp only
      by_cases hfull : c = it.pageSize % 2 ^ 64
      · exact .inr (.inl (by omega))
      · refine .inr (.inr ?_)
        have hmin := hc
        rw [pageLength] at hmin
        omega
    · intro s hs _
      simp only [Nat.add_sub_cancel_right]
      exact hkeys s hs
    · obtain ⟨m, hout, hm⟩ := h.out
      have hzero : m = 0 := by
        by_contra hne
        have := (hm (Nat.pos_of_ne_zero hne)).2
        omega
      refine ⟨0, ?_, fun h0 => absurd h0 (by simp)⟩
      have hle := h.cur_le
      simp only [hout, hzero, hi, Nat.add_sub_cancel_right, Nat.add_zero, Nat.sub_add_cancel hle]

theorem keyIterator_inv (h : Inv zones st) (hlocked : ∀ z, (zones z).locked = true)
    (hc : Fits zones st (.call k)) :
    ∃ st', keyIterator zones k st = some st' ∧ Inv zones st' := by
  obtain ⟨hover, hwalk⟩ := h
  unfold keyIterator
  cases hit : st.iters[k]? with
  | none => exact ⟨st, rfl, hover, hwalk⟩
  | some it =>
    have hw := hwalk it (List.mem_of_getElem? hit)
    have hothers : Others zones k st st.kbuf := fun j other _ hj =>
      hwalk other (List.mem_of_getElem? hj)
    simp only
    split
    next hi =>
      by_cases hlast : it.last < (zones it.zone).table.store.nelts
      · obtain ⟨hsize, hfit, hkeep⟩ := hc it hit hi hlast
        obtain ⟨page, hpage, hrc, hany, hpos, hwalking, hkept, hcur, hkeys⟩ :=
          fetch_walking hw hi (hlocked _) hlast hsize hfit
        simp only [hpage, hrc]
        refine yieldKey_inv (by simp only [hover, hany, Bool.or_false]) ?_ hwalking hpos
        intro j other hjk hj
        rw [List.getElem?_set_ne (Ne.symm hjk)] at hj
        refine (hothers j other hjk hj).congr fun s hs hle => ?_
        by_cases hlt : s < page.cur
        · have hj' := (List.getElem?_eq_some_iff.mp hj).1
          rw [hkeys s hlt, hkeep j hj' hjk other hj s hs hle (hcur ▸ hlt)]
        · exact congrArg _ (hkept s (Nat.le_of_not_lt hlt))
      · have hpage : iterateKeys (zones it.zone) (it.pageSize % 2 ^ 64) it.last 0 =
            ⟨.done, it.last, 0, []⟩ := by
          rw [iterateKeys, hlocked, if_neg (by simp), if_pos (Nat.le_of_not_lt hlast)]
        simp only [hpage]
        refine ⟨_, rfl, by simp [hover], ?_⟩
        rw [List.set_set]
        refine walking_set hothers ?_
        have hcur := hw.cur_le
        have hn := Nat.le_antisymm hw.last_le (Nat.le_of_not_lt hlast)
        obtain ⟨m, hout, -⟩ := hw.out
        refine ⟨Nat.le_refl _, Nat.zero_le _, hw.last_le, hw.whole, ?_, m + 1, ?_,
          fun _ => ⟨rfl, hn⟩⟩
        · intro s hs _
          exact absurd hs (Nat.not_lt_zero s)
        · simp only [hout, hi, Nat.sub_add_cancel hcur, Nat.sub_zero, Nat.add_zero,
            List.append_assoc, List.replicate_succ']
    next hi =>
      have hle := hw.i_le
      exact yieldKey_inv hover hothers hw (by omega)

theorem next_inv (h : Inv zones st) (hlocked : ∀ z, (zones z).locked = true) {e : Event}
    (hc : Fits zones st e) : ∃ st', next zones st e = some st' ∧ Inv zones st' := by
  cases e with
  | call k => exact keyIterator_inv h hlocked hc
  | iterate zone pageSize =>
    obtain ⟨hover, hwalk⟩ := h
    refine ⟨_, rfl, ?_⟩
    have hnew : ∀ n, Inv zones { st with iters := st.iters ++ [{ zone := zone, pageSize := n }] } := by
      intro n
      refine ⟨hover, ?_⟩
      intro it hit
      rcases List.mem_append.mp hit with hold | hnew
      · exact hwalk it hold
      · rw [List.mem_singleton.mp hnew]
        refine ⟨Nat.le_refl _, Nat.le_refl _, Nat.zero_le _, .inl rfl, ?_, 0, by simp, by simp⟩
        intro s hs _
        exact absurd hs (Nat.not_lt_zero s)
    match pageSize with
    | none => exact hnew _
    | some 0 => exact ⟨hover, hwalk⟩
    | some (n + 1) => exact hnew _

/-- Every iterator returned as often as it was called. -/
structure Counted (es : List Event) (st : State) : Prop where
  iters : st.iters.length = es.countP opens
  outs : ∀ k it, st.iters[k]? = some it → it.out.length = calls k es

theorem callsFrom_snoc (k made : ℕ) (es : List Event) (e : Event) :
    callsFrom k made (es ++ [e]) =
      callsFrom k made es + if e = .call k ∧ k < made + es.countP opens then 1 else 0 := by
  induction es generalizing made with
  | nil => simp [callsFrom]
  | cons x es ih =>
    have hmade : (if opens x then made + 1 else made) + es.countP opens =
        made + (x :: es).countP opens := by
      rw [List.countP_cons]
      split <;> omega
    rw [List.cons_append, callsFrom, ih, hmade, callsFrom, Nat.add_assoc]

theorem calls_snoc (k : ℕ) (es : List Event) (e : Event) :
    calls k (es ++ [e]) =
      calls k es + if e = .call k ∧ k < es.countP opens then 1 else 0 := by
  rw [calls, callsFrom_snoc, Nat.zero_add]
  rfl

/-- An iterator that is not there yet was not called. -/
theorem calls_eq_zero {es : List Event} (h : es.countP opens ≤ k) : calls k es = 0 := by
  induction es using List.reverseRecOn with
  | nil => rfl
  | append_singleton es e ih =>
    rw [List.countP_append] at h
    rw [calls_snoc, ih (by omega), if_neg (by omega)]

/-- One iterator returned once more. -/
theorem Counted.call {es : List Event} (h : Counted es st) (hit : st.iters[k]? = some it)
    {st' : State} {it' : Iter} (hiters : st'.iters = st.iters.set k it')
    (hout : it'.out.length = it.out.length + 1) : Counted (es ++ [.call k]) st' := by
  have hk := (List.getElem?_eq_some_iff.mp hit).1
  refine ⟨by simp [hiters, h.iters, opens], ?_⟩
  intro j x hx
  rw [hiters, List.getElem?_set, if_pos hk] at hx
  rw [calls_snoc]
  split at hx
  next hkj =>
    subst hkj
    rw [if_pos ⟨rfl, h.iters ▸ hk⟩, ← Option.some.inj hx, hout, h.outs k it hit]
  next hkj =>
    have hother : ¬ (Event.call k = .call j ∧ j < es.countP opens) :=
      fun hc => hkj (Event.call.inj hc.1)
    rw [if_neg hother]
    exact h.outs j x hx

theorem yieldKey_iters {st' : State} (h : yieldKey zones k it st = some st') :
    ∃ it', st'.iters = st.iters.set k it' ∧ it'.out.length = it.out.length + 1 := by
  obtain ⟨p, -, rfl⟩ := Option.map_eq_some_iff.mp h
  exact ⟨_, rfl, by simp⟩

theorem iterateKeys_rc {shm : WaShm} (hlocked : shm.locked = true) (pageSize last cur : ℕ) :
    (iterateKeys shm pageSize last cur).rc = .ok ∨
      (iterateKeys shm pageSize last cur).rc = .done := by
  rw [iterateKeys, hlocked, if_neg (by simp)]
  split
  · exact .inr rfl
  · exact .inl rfl

theorem keyIterator_counted {es : List Event} (h : Counted es st)
    (hlocked : ∀ z, (zones z).locked = true) {st' : State}
    (hnext : keyIterator zones k st = some st') : Counted (es ++ [.call k]) st' := by
  unfold keyIterator at hnext
  cases hit : st.iters[k]? with
  | none =>
    rw [hit] at hnext
    cases hnext
    have hk : ¬ k < es.countP opens := by
      rw [← h.iters]
      exact Nat.not_lt.mpr (List.getElem?_eq_none_iff.mp hit)
    refine ⟨by simp [h.iters, opens], ?_⟩
    intro j x hx
    have hother : ¬ (Event.call k = .call j ∧ j < es.countP opens) :=
      fun hc => hk (Event.call.inj hc.1 ▸ hc.2)
    rw [calls_snoc, if_neg hother]
    exact h.outs j x hx
  | some it =>
    rw [hit] at hnext
    simp only at hnext
    split at hnext
    next =>
      rcases iterateKeys_rc (hlocked it.zone) (it.pageSize % 2 ^ 64) it.last 0 with hrc | hrc
      · simp only [hrc] at hnext
        obtain ⟨it', hiters, hout⟩ := yieldKey_iters hnext
        exact h.call hit (by rw [hiters, List.set_set]) hout
      · simp only [hrc] at hnext
        cases hnext
        exact h.call hit (List.set_set ..) (by simp)
    next =>
      obtain ⟨it', hiters, hout⟩ := yieldKey_iters hnext
      exact h.call hit hiters hout

/-- A new iterator, which was not called yet. -/
theorem Counted.iterate {es : List Event} (h : Counted es st) {e : Event} (he : opens e = true)
    (hit : it.out = []) : Counted (es ++ [e]) { st with iters := st.iters ++ [it] } := by
  have hcalls : ∀ k, calls k (es ++ [e]) = calls k es := by
    intro k
    have hother : ¬ (e = .call k ∧ k < es.countP opens) := by
      rintro ⟨rfl, -⟩
      cases he
    rw [calls_snoc, if_neg hother, Nat.add_zero]
  refine ⟨by simp [h.iters, he], ?_⟩
  intro k x hx
  rw [hcalls]
  rw [List.getElem?_append] at hx
  split at hx
  next => exact h.outs k x hx
  next hk =>
    rw [List.getElem?_singleton] at hx
    split at hx
    next =>
      rw [calls_eq_zero (by rw [← h.iters]; omega), ← Option.some.inj hx, hit]
      rfl
    next => cases hx

theorem next_counted {es : List Event} (h : Counted es st)
    (hlocked : ∀ z, (zones z).locked = true) {e : Event} {st' : State}
    (hnext : next zones st e = some st') : Counted (es ++ [e]) st' := by
  match e with
  | .call k => exact keyIterator_counted h hlocked hnext
  | .iterate zone none =>
    cases hnext
    exact h.iterate rfl rfl
  | .iterate zone (some (n + 1)) =>
    cases hnext
    exact h.iterate (by simp [opens]) rfl
  | .iterate zone (some 0) =>
    cases hnext
    refine ⟨h.iters.trans (by simp [opens]), fun k it hit => ?_⟩
    have hother : ¬ (Event.iterate zone (some 0) = .call k ∧ k < es.countP opens) :=
      fun hc => by cases hc.1
    rw [calls_snoc, if_neg hother]
    exact h.outs k it hit

def FitsIn (zones : ℕ → WaShm) (st : Option State) (e : Event) : Prop :=
  ∀ s ∈ st, Fits zones s e

instance (zones : ℕ → WaShm) (st : Option State) (e : Event) : Decidable (FitsIn zones st e) := by
  unfold FitsIn; infer_instance

end

theorem exec_walking (zones : ℕ → WaShm) (hlocked : ∀ z, (zones z).locked = true)
    (es : List Event) (h : Meets (step zones) (FitsIn zones) (some {}) es) :
    ∃ s, (exec (step zones) (some {}) es).1 = some s ∧ Inv zones s ∧ Counted es s := by
  induction es using List.reverseRecOn with
  | nil => exact ⟨{}, rfl, ⟨rfl, by simp⟩, rfl, by simp⟩
  | append_singleton es e ih =>
    rw [meets_append] at h
    obtain ⟨s, hs, hinv, hcount⟩ := ih h.1
    obtain ⟨s', hnext, hinv'⟩ := next_inv hinv hlocked (h.2.1 s hs)
    refine ⟨s', ?_, hinv', next_counted hcount hlocked hnext⟩
    rw [exec_append, hs]
    exact hnext

/-- In every state of a run whose pages fit. -/
theorem iterators_exact (zones : ℕ → WaShm) (hlocked : ∀ z, (zones z).locked = true)
    (es : List Event) (h : Meets (step zones) (FitsIn zones) (some {}) es) (k : ℕ) :
    AllExact zones (es.take k) (exec (step zones) (some {}) (es.take k)).1 := by
  rw [← List.take_append_drop k es, meets_append] at h
  obtain ⟨st, hst, ⟨hover, hwalk⟩, hcount⟩ := exec_walking zones hlocked _ h.1
  refine ⟨st, hst, hover, hcount.iters, fun j it hit => ?_⟩
  rw [← hcount.outs j it hit]
  exact (hwalk it (List.mem_of_getElem? hit)).exact

def pairStore (a b : UInt8) : KvStore where
  node n := ⟨n, [if n = 0 then a else b], [], 0⟩
  next := 2
  tree := .node (.node .leaf 0 .leaf) 1 .leaf
  queues := []
  nelts := 2
  log := []

theorem pairStore_distinct {a b : UInt8} (h : a ≠ b) :
    ((pairStore a b).tree.toList.map fun n => ((pairStore a b).node n).key).Nodup := by
  simp [pairStore, Tree.toList, h]

def pairTable {a b : UInt8} (h : a ≠ b) : Table :=
  ⟨pairStore a b, rfl, pairStore_distinct h, by simp [pairStore]⟩

theorem ab_distinct : (97 : UInt8) ≠ 98 := by decide
theorem cd_distinct : (99 : UInt8) ≠ 100 := by decide

/-- Two zones with two keys each. -/
def pairZones (z : ℕ) : WaShm := ⟨if z = 0 then pairTable ab_distinct else pairTable cd_distinct, true⟩

def interleaved : List Event :=
  [.iterate 0 none, .iterate 1 (some 1), .call 0, .call 1, .call 0, .call 1, .call 0, .call 1]

theorem iterators_exact_interleaved :
    AllExact pairZones interleaved (exec (step pairZones) (some {}) interleaved).1 :=
  iterators_exact pairZones (fun _ => rfl) interleaved ⟨by decide, by decide,
    by decide, by decide, by decide, by decide, by decide,
    by decide, trivial⟩ 8

def overwriting : List Event := [.iterate 0 none, .iterate 1 none, .call 0, .call 1, .call 0]

/-- The page of a second iterator replaces the one that the first iterator reads. -/
theorem pages_overwritten :
    ¬ AllExact pairZones overwriting (exec (step pairZones) (some {}) overwriting).1 := by
  intro h
  obtain ⟨st, hst, -, -, hall⟩ := h
  have hrun : (exec (step pairZones) (some {}) overwriting).1.map
        (fun s => s.iters.map fun it => (it.zone, it.out)) =
      some [(0, [some [98], some [99]]), (1, [some [100]])] := by decide
  rw [hst, Option.map_some, Option.some.injEq] at hrun
  have hget : st.iters[0]?.map (fun it => (it.zone, it.out)) = some (0, [some [98], some [99]]) := by
    rw [← List.getElem?_map, hrun]
    rfl
  obtain ⟨it, hit, heq⟩ := Option.map_eq_some_iff.mp hget
  rw [Prod.mk.injEq] at heq
  obtain ⟨hzone, hout⟩ := heq
  obtain ⟨order, hperm, hvalues⟩ := hall 0 it hit
  have hcalls : calls 0 overwriting = 2 := by decide
  rw [hout, hcalls] at hvalues
  -- the second call returned a key of the other zone
  have hsecond : order[1]? = some [99] := by
    have hone := congrArg (fun out => out[1]?) hvalues
    simpa using hone.symm
  have hkey := hperm.mem_iff.mp (List.mem_of_getElem? hsecond)
  rw [hzone] at hkey
  exact absurd hkey (by decide)

end NgxWasm.Shm.IterateKeys
