import NgxWasm.Http.ClearedPointers
import NgxWasm.Lib.Upsert
import NgxWasm.ProxyWasm.HeaderRemoved

/-!
# All headers set at once (`ngx_proxy_wasm_hfuncs_set_header_map_pairs`)

The headers are cleared one by one, then the pairs are set one by one. An element that is
cleared keeps its place, and a pointer that is left makes a pair take it; a read-only
special key ends the loop.
-/

namespace NgxWasm.ProxyWasm.HeaderPairs

open NgxWasm NgxWasm.ProxyWasm.Pairs NgxWasm.Http.Headers NgxWasm.Http.HeaderSet
open NgxWasm.Http.HeaderRemoval NgxWasm.Http.HeaderPlaces NgxWasm.Http.ClearedPointers
open NgxWasm.ProxyWasm.HeaderMaps NgxWasm.Lib.Upsert
open NgxWasm.Http.HeaderNames (named_spec)
open NgxWasm.ProxyWasm.HeaderRemoved (RoomyEnv plentyEnv allModules refererHash twoReferers)

/-! ### What the pairs say -/

abbrev Pair := Bytes × Bytes

def SameName (x y : Pair) : Prop := SameKey x.1 y.1

instance : DecidableRel SameName := fun x y => inferInstanceAs (Decidable (SameKey x.1 y.1))

section
variable (b : Build) (env : Env) (ht : HType)

/-- The pair is for the list: its key is not special, and the handler of the key puts the
value there. -/
def lists (p : Pair) : Bool :=
  (specialKey ht p.1).isNone && enters env.select (handlerOf (handlers b ht) p.1).setter &&
    accepts (handlerOf (handlers b ht) p.1) (escape .headerValue p.2)

/-- The response's content type has a place of its own. -/
def types (p : Pair) : Bool :=
  (specialKey ht p.1).isNone && (handlerOf (handlers b ht) p.1).setter == .contentType

def readOnly (p : Pair) : Bool :=
  match specialKey ht p.1 with
  | some m => !m.settable
  | none => false

def entry (p : Pair) : Pair := ((handlerOf (handlers b ht) p.1).name, escape .headerValue p.2)

/-- The entries of the pairs, in the order of the keys' first pairs, with the last values. -/
def entries (pairs : List Pair) : List Pair :=
  upsertAll SameName [] ((pairs.filter (lists b env ht)).map (entry b ht))

def typeAfter (start : Bytes) (pairs : List Pair) : Bytes :=
  (pairs.filter (types b ht)).foldl (fun _ p => escape .headerValue p.2) start

end

def liveEntries (s : HeaderMap) : List Pair := s.list.live.map fun e => (e.key, e.value)

/-- The headers are the pairs', or, with an error, those from before. -/
def SetsAll (b : Build) (env : Env) (ht : HType) (pairs : List Pair) (s : HeaderMap) : Prop :=
  match setHeaderMapPairs b env ht pairs s with
  | .ok (.ok, s') => liveEntries s' = entries b env ht pairs ∧ s'.contentType = typeAfter b ht [] pairs
  | .ok (.err, s') => s'.list.live = s.list.live ∧ s'.contentType = s.contentType
  | .error _ => False

/-! ### The condition -/

section
variable (b : Build) (env : Env) (ht : HType)

/-- The pairs in front of the first read-only key. -/
def taken (pairs : List Pair) : List Pair := pairs.takeWhile fun p => !readOnly ht p

/-- Where the pointer of a key is when the pairs are set. -/
def place (s : HeaderMap) (key : Bytes) : Option ℕ :=
  if pointed env.select (handlerOf (handlers b ht) key).setter then
    left (handlers b ht) s (handlerOf (handlers b ht) key).offset
  else none

/-- A key that comes for the first time and has a place comes behind keys that all have
earlier places. -/
def InOrder (s : HeaderMap) : List Pair → List Pair → Prop
  | _, [] => True
  | seen, p :: pairs =>
    ((∀ q ∈ seen, ¬ SameKey (stored q.1) (stored p.1)) → ∀ j, place b env ht s p.1 = some j →
      ∀ q ∈ seen, ∃ i, place b env ht s q.1 = some i ∧ i < j) ∧
      InOrder s (seen ++ [p]) pairs

def KeyOf (pairs : List Pair) (key : Bytes) : Prop :=
  ∃ p ∈ (taken ht pairs).filter (lists b env ht), p.1 = key

structure PairsOk (pairs : List Pair) (s : HeaderMap) : Prop where
  room : RoomyEnv env
  clear : ClearOk env.pool env.select (handlers b ht) s
  reached : entries b env ht (taken ht pairs) = entries b env ht pairs
  typed : typeAfter b ht s.contentType (taken ht pairs) = typeAfter b ht [] pairs
  hash : ∀ k, KeyOf b env ht pairs k → hashKeyLc (stored k) ≠ 0
  fields : ∀ k k', KeyOf b env ht pairs k → KeyOf b env ht pairs k' →
    pointed env.select (handlerOf (handlers b ht) k).setter = true →
    pointed env.select (handlerOf (handlers b ht) k').setter = true →
    (handlerOf (handlers b ht) k).offset = (handlerOf (handlers b ht) k').offset →
    SameKey (stored k) (stored k')
  places : ∀ k k' i, KeyOf b env ht pairs k → KeyOf b env ht pairs k' →
    place b env ht s k = some i → place b env ht s k' = some i → SameKey (stored k) (stored k')
  range : ∀ k i, KeyOf b env ht pairs k → place b env ht s k = some i → i < s.list.elts.length
  order : InOrder b env ht s [] ((taken ht pairs).filter (lists b env ht))

end

/-! ### One element of the list -/

section
variable {l : List Elt} {i : ℕ} {e : Elt}

def isLive (e : Elt) : Bool := e.hash != 0

def pairOf (e : Elt) : Pair := (e.key, e.value)

/-- An element in the place of the live one of its key. -/
theorem live_put_at {x : Elt} (hx : l[i]? = some x) (hxl : x.hash ≠ 0) (hel : e.hash ≠ 0)
    (hsame : SameKey e.key x.key)
    (honly : ∀ (j : ℕ) y, l[j]? = some y → y.hash ≠ 0 → SameKey e.key y.key → j = i) :
    ((put i e l).filter isLive).map pairOf =
      upsert SameName (pairOf e) ((l.filter isLive).map pairOf) := by
  have hlt : i < l.length := (List.getElem?_eq_some_iff.mp hx).1
  have hget : l[i] = x := (List.getElem?_eq_some_iff.mp hx).2
  have hleft : l = l.take i ++ x :: l.drop (i + 1) := by
    rw [← hget, ← List.drop_eq_getElem_cons hlt, List.take_append_drop]
  have hbefore : ∀ z ∈ ((l.take i).filter isLive).map pairOf, ¬ SameName (pairOf e) z := by
    intro z hz hname
    obtain ⟨y, hy, rfl⟩ := List.mem_map.mp hz
    obtain ⟨hmem, hlive⟩ := List.mem_filter.mp hy
    obtain ⟨j, hj⟩ := List.mem_iff_getElem?.mp hmem
    have hji : j < (l.take i).length := (List.getElem?_eq_some_iff.mp hj).1
    rw [List.length_take] at hji
    rw [List.getElem?_take_of_lt (by omega)] at hj
    have heq := honly j y hj (bne_iff_ne.mp hlive) hname
    omega
  have hlx : isLive x = true := bne_iff_ne.mpr hxl
  have hle : isLive e = true := bne_iff_ne.mpr hel
  rw [put_lt hlt, List.set_eq_take_append_cons_drop, if_pos hlt, List.filter_append,
    List.filter_cons_of_pos hle, List.map_append, List.map_cons]
  conv_rhs => rw [hleft]
  rw [List.filter_append, List.filter_cons_of_pos hlx, List.map_append, List.map_cons]
  exact (upsert_at hbefore (show SameName (pairOf e) (pairOf x) from hsame)).symm

/-- An element behind all live ones. -/
theorem live_put_behind (hi : i ≤ l.length) (hel : e.hash ≠ 0)
    (hbehind : ∀ (j : ℕ) y, l[j]? = some y → y.hash ≠ 0 → j < i) :
    (put i e l).filter isLive = l.filter isLive ++ [e] := by
  have hle : isLive e = true := bne_iff_ne.mpr hel
  rcases Nat.lt_or_eq_of_le hi with hlt | rfl
  · have hrest : (l.drop i).filter isLive = [] := by
      rw [List.filter_eq_nil_iff]
      intro y hy hlive
      obtain ⟨j, hj⟩ := List.mem_iff_getElem?.mp hy
      rw [List.getElem?_drop] at hj
      have hlt := hbehind (i + j) y hj (bne_iff_ne.mp hlive)
      omega
    have hafter : (l.drop (i + 1)).filter isLive = [] := by
      rw [List.drop_eq_getElem_cons hlt] at hrest
      rw [List.filter_eq_nil_iff] at hrest ⊢
      intro y hy
      exact hrest y (List.mem_cons_of_mem _ hy)
    rw [put_lt hlt, List.set_eq_take_append_cons_drop, if_pos hlt, List.filter_append,
      List.filter_cons_of_pos hle, hafter]
    conv_rhs => rw [← List.take_append_drop i l, List.filter_append, hrest, List.append_nil]
  · rw [put_length_eq, List.filter_append, List.filter_cons_of_pos hle]
    rfl

end

/-! ### One pair -/

section
variable {b : Build} {env : Env} {ht : HType} {p : Pair} {s : HeaderMap}

theorem mapsSet_special (hroom : RoomyEnv env) {m : MapsKey} (hm : specialKey ht p.1 = some m) :
    mapsSet b env ht p.1 (some p.2) .set s =
      .ok (if readOnly ht p = true then .abort else .ok, s) := by
  simp only [mapsSet, hroom.dup, Bool.true_eq_false, and_false, if_false, setSpecialKey, hm, readOnly]
  cases m.settable <;> rfl

theorem mapsSet_plain (hroom : RoomyEnv env) (hkey : specialKey ht p.1 = none) {rc : Rc}
    {s' : HeaderMap}
    (hset : handle env.pool env.select (handlerOf (handlers b ht) p.1)
      (headerSet (handlers b ht) p.1 (some p.2) .set) s = .ok (rc, s')) :
    mapsSet b env ht p.1 (some p.2) .set s = .ok (if rc = .declined then .ok else rc, s') := by
  simp only [mapsSet, hroom.dup, Bool.true_eq_false, and_false, if_false, setSpecialKey, hkey,
    setHeader_roomy hroom.pool, hset]
  cases rc <;> rfl

theorem typeAfter_cons (start : Bytes) (pairs : List Pair) :
    typeAfter b ht start (p :: pairs) = typeAfter b ht (typeAfter b ht start [p]) pairs := by
  unfold typeAfter
  rw [List.filter_cons, List.filter_cons]
  split <;> rfl

theorem typeAfter_same (start : Bytes) (h : types b ht p = false) : typeAfter b ht start [p] = start := by
  rw [typeAfter, List.filter_cons_of_neg (by simp [h])]
  rfl

/-- A pair that is not for the list changes nothing in it. -/
theorem mapsSet_unlisted (hroom : RoomyEnv env) (hkey : specialKey ht p.1 = none)
    (hl : lists b env ht p = false) :
    mapsSet b env ht p.1 (some p.2) .set s =
      .ok (.ok, { s with contentType := typeAfter b ht s.contentType [p] }) := by
  have hno : enters env.select (handlerOf (handlers b ht) p.1).setter = true →
      accepts (handlerOf (handlers b ht) p.1) (escape .headerValue p.2) = false := by
    intro henters
    simpa [lists, hkey, henters] using hl
  have hsame (hset : (handlerOf (handlers b ht) p.1).setter ≠ .contentType) :
      ({ s with contentType := typeAfter b ht s.contentType [p] } : HeaderMap) = s := by
    rw [typeAfter_same s.contentType (by simp [types, hset])]
  have hmissed (hset : (handlerOf (handlers b ht) p.1).setter ≠ .contentType) {rc : Rc}
      (hrc : rc = .ok ∨ rc = .declined)
      (hcall : handle env.pool env.select (handlerOf (handlers b ht) p.1)
        (headerSet (handlers b ht) p.1 (some p.2) .set) s = .ok (rc, s)) :
      mapsSet b env ht p.1 (some p.2) .set s =
        .ok (.ok, { s with contentType := typeAfter b ht s.contentType [p] }) := by
    rw [hsame hset, mapsSet_plain hroom hkey hcall]
    rcases hrc with rfl | rfl <;> rfl
  cases hset : (handlerOf (handlers b ht) p.1).setter <;> rw [hset] at hno
  case contentType =>
    have htypes : types b ht p = true := by simp [types, hkey, hset]
    have htype : typeAfter b ht s.contentType [p] = escape .headerValue p.2 := by
      rw [typeAfter, List.filter_cons_of_pos htypes]
      rfl
    have hcall : handle env.pool env.select (handlerOf (handlers b ht) p.1)
        (headerSet (handlers b ht) p.1 (some p.2) .set) s =
        .ok (.ok, { s with contentType := escape .headerValue p.2 }) := by
      rw [handle, hset]
      rfl
    rw [htype, mapsSet_plain hroom hkey hcall]
    rfl
  case host =>
    refine hmissed (by simp [hset]) (.inl rfl) ?_
    rw [handle, hset]
    cases hselect : env.select with
    | true => rfl
    | false =>
      rw [hselect] at hno
      simp [accepts, hset, enters, pointed] at hno
  case respConnection =>
    have hconn : ∃ rc : Rc, (rc = .ok ∨ rc = .declined) ∧ setRespConnection
        (headerSet (handlers b ht) p.1 (some p.2) .set) s = .ok (rc, s) := by
      simp only [setRespConnection, headerSet, reduceCtorEq, if_false, Option.map_some]
      split
      · exact ⟨.ok, .inl rfl, rfl⟩
      · exact ⟨.declined, .inr rfl, rfl⟩
    obtain ⟨rc, hrc, hcall⟩ := hconn
    refine hmissed (by simp [hset]) hrc ?_
    rw [handle, hset]
    exact hcall
  case reqContentLength =>
    have hvalue := hno rfl
    simp only [accepts, hset, Bool.or_eq_false_iff, List.isEmpty_eq_false_iff,
      Option.isSome_eq_false_iff, Option.isNone_iff_eq_none] at hvalue
    refine hmissed (by simp [hset]) (.inr rfl) ?_
    rw [handle, hset]
    simp only [setReqContentLength, headerSet, reduceCtorEq, if_false, Option.map_some,
      Option.getD_some, ne_eq, hvalue.1, not_false_eq_true, if_true, hvalue.2]
  case respContentLength =>
    have hvalue := hno rfl
    simp only [accepts, hset, Option.isSome_eq_false_iff, Option.isNone_iff_eq_none] at hvalue
    refine hmissed (by simp [hset]) (.inr rfl) ?_
    rw [handle, hset]
    simp only [setRespContentLength, headerSet, reduceCtorEq, if_false, Option.map_some,
      Option.getD_some, hvalue]
  all_goals
    have hvalue := hno rfl
    simp only [accepts, hset, Bool.true_eq_false] at hvalue

end

/-! ### The pairs one by one -/

/-- The list behind the pairs `seen`, in a map that was cleared as `start`. -/
structure Filling (b : Build) (env : Env) (ht : HType) (start : HeaderMap) (keys : Bytes → Prop)
    (seen : List Pair) (s : HeaderMap) : Prop where
  ready : Ready env.select (handlers b ht) keys s
  entries : liveEntries s = upsertAll SameName [] (seen.map (entry b ht))
  fresh : ∀ k, keys k → (∀ q ∈ seen, ¬ SameKey (stored q.1) (stored k)) →
    held env.select (handlerOf (handlers b ht) k) s = place b env ht start k
  placed : ∀ (l : ℕ) e, s.list.elts[l]? = some e → e.hash ≠ 0 →
    ∃ q ∈ seen, SameKey (stored q.1) e.key ∧ ∀ i, place b env ht start q.1 = some i → l = i

section
variable {b : Build} {env : Env} {ht : HType} {start s s' : HeaderMap} {keys : Bytes → Prop}
  {seen : List Pair} {p : Pair} {i : ℕ}

theorem entry_name (q : Pair) : SameKey (stored q.1) (entry b ht q).1 :=
  (headerSet_prepared (handlers b ht) q.1 (some q.2) .set).same

theorem place_congr {k k' : Bytes} (hsame : SameKey (stored k) (stored k')) :
    place b env ht start k' = place b env ht start k := by
  obtain ⟨hsetter, hoffset⟩ := handlerOf_congr (handlers b ht) hsame
  rw [place, place, hsetter, hoffset]

/-- The key of a pair that was set is in use. -/
theorem Filling.has (hf : Filling b env ht start keys seen s)
    (hseen : ∃ q ∈ seen, SameKey (stored q.1) (stored p.1)) :
    ∃ (l : ℕ) (e : Elt), s.list.elts[l]? = some e ∧ named (stored p.1) e = true := by
  obtain ⟨q, hq, hsame⟩ := hseen
  have hclosed : ∀ x y : Pair, SameName x y → SameKey (stored p.1) y.1 → SameKey (stored p.1) x.1 :=
    fun x y hxy hy => hy.trans (SameKey.symm hxy)
  obtain ⟨y, hy, hyname⟩ := upsertAll_has hclosed (seen.map (entry b ht)) []
    ⟨entry b ht q, List.mem_append_right _ (List.mem_map_of_mem hq),
      hsame.symm.trans (entry_name q)⟩
  rw [← hf.entries] at hy
  obtain ⟨e, he, rfl⟩ := List.mem_map.mp hy
  obtain ⟨hmem, hlive⟩ := List.mem_filter.mp he
  obtain ⟨l, hl⟩ := List.mem_iff_getElem?.mp hmem
  exact ⟨l, e, hl, named_spec.mpr ⟨bne_iff_ne.mp hlive, hyname⟩⟩

/-- The key of a pair that comes for the first time is not in use. -/
theorem Filling.lacks (hf : Filling b env ht start keys seen s)
    (hnew : ∀ q ∈ seen, ¬ SameKey (stored q.1) (stored p.1)) {l : ℕ} {e : Elt}
    (he : s.list.elts[l]? = some e) : named (stored p.1) e = false := by
  cases hn : named (stored p.1) e with
  | false => rfl
  | true =>
    obtain ⟨hlive, hname⟩ := named_spec.mp hn
    obtain ⟨q, hq, hsame, -⟩ := hf.placed l e he hlive
    exact absurd (hsame.trans hname.symm) (hnew q hq)

/-- The element of a key that comes for the first time is behind all others. -/
theorem Filling.behind (hf : Filling b env ht start keys seen s) (hk : keys p.1)
    (hnew : ∀ q ∈ seen, ¬ SameKey (stored q.1) (stored p.1))
    (horder : ∀ j, place b env ht start p.1 = some j →
      ∀ q ∈ seen, ∃ i, place b env ht start q.1 = some i ∧ i < j)
    (hw : Written env.select (handlerOf (handlers b ht) p.1)
      (headerSet (handlers b ht) p.1 (some p.2) .set) s s' i) {l : ℕ} {e : Elt}
    (he : s.list.elts[l]? = some e) (hlive : e.hash ≠ 0) : l < i := by
  rcases hw.place with hheld | ⟨-, hfound⟩
  · rw [hf.fresh p.1 hk hnew] at hheld
    obtain ⟨q, hq, -, hplace⟩ := hf.placed l e he hlive
    obtain ⟨j, hj, hlt⟩ := horder i hheld q hq
    rw [hplace j hj]
    exact hlt
  · have hlen : l < s.list.elts.length := (List.getElem?_eq_some_iff.mp he).1
    -- the search stops nowhere
    have hend : ¬ i < s.list.elts.length := by
      intro hlt
      have hx := List.getElem?_eq_getElem hlt
      have hhit := hfound.hit _ hx
      rw [hits_live (headerSet_prepared _ p.1 (some p.2) .set) (hf.ready.hash p.1 hk)
        (hf.ready.hashed p.1 hk) (List.mem_of_getElem? hx), hf.lacks hnew hx] at hhit
      cases hhit
    omega

theorem Filling.set_entries (hf : Filling b env ht start keys seen s) (hk : keys p.1)
    (horder : (∀ q ∈ seen, ¬ SameKey (stored q.1) (stored p.1)) →
      ∀ j, place b env ht start p.1 = some j →
        ∀ q ∈ seen, ∃ i, place b env ht start q.1 = some i ∧ i < j)
    (hw : Written env.select (handlerOf (handlers b ht) p.1)
      (headerSet (handlers b ht) p.1 (some p.2) .set) s s' i) :
    liveEntries s' = upsertAll SameName [] ((seen ++ [p]).map (entry b ht)) := by
  have hp := headerSet_prepared (handlers b ht) p.1 (some p.2) .set
  have hhash : (headerSet (handlers b ht) p.1 (some p.2) .set).elt.hash ≠ 0 :=
    hf.ready.hash p.1 hk
  have hentries : (s.list.elts.filter isLive).map pairOf =
      upsertAll SameName [] (seen.map (entry b ht)) := hf.entries
  have hname := @entry_name b ht p
  rw [List.map_append, List.map_singleton, upsertAll_snoc, ← hentries]
  show (s'.list.elts.filter isLive).map pairOf = _
  rw [hw.elts]
  by_cases hseen : ∃ q ∈ seen, SameKey (stored q.1) (stored p.1)
  · obtain ⟨l, x, hx, hnamed⟩ := hf.has hseen
    have hli := hf.ready.own hk hp hw hx hnamed
    subst hli
    obtain ⟨hlive, hxname⟩ := named_spec.mp hnamed
    refine live_put_at hx hlive hhash (hname.symm.trans hxname) ?_
    intro j y hy hylive hyname
    exact hf.ready.own hk hp hw hy (named_spec.mpr ⟨hylive, hname.trans hyname⟩)
  · have hnew : ∀ q ∈ seen, ¬ SameKey (stored q.1) (stored p.1) :=
      fun q hq hsame => hseen ⟨q, hq, hsame⟩
    have hbehind := fun (l : ℕ) (e : Elt) (he : s.list.elts[l]? = some e) (hlive : e.hash ≠ 0) =>
      hf.behind hk hnew (horder hnew) hw he hlive
    have hmiss : ∀ y ∈ (s.list.elts.filter isLive).map pairOf, ¬ SameName (entry b ht p) y := by
      intro y hy hsame
      obtain ⟨e, he, rfl⟩ := List.mem_map.mp hy
      obtain ⟨hmem, hlive⟩ := List.mem_filter.mp he
      obtain ⟨l, hl⟩ := List.mem_iff_getElem?.mp hmem
      have hno := hf.lacks hnew hl
      rw [named_spec.mpr ⟨bne_iff_ne.mp hlive, hname.trans hsame⟩] at hno
      cases hno
    rw [live_put_behind hw.range hhash hbehind, upsert_new hmiss, List.map_append]
    rfl

theorem Filling.set_placed (hf : Filling b env ht start keys seen s) (hk : keys p.1)
    (hw : Written env.select (handlerOf (handlers b ht) p.1)
      (headerSet (handlers b ht) p.1 (some p.2) .set) s s' i) {l : ℕ} {e : Elt}
    (he : s'.list.elts[l]? = some e) (hlive : e.hash ≠ 0) :
    ∃ q ∈ seen ++ [p], SameKey (stored q.1) e.key ∧
      ∀ i, place b env ht start q.1 = some i → l = i := by
  have hp := headerSet_prepared (handlers b ht) p.1 (some p.2) .set
  rcases written_get hw he with ⟨rfl, rfl⟩ | ⟨-, hold⟩
  · refine ⟨p, List.mem_append_right _ (List.mem_singleton_self p), hp.same, ?_⟩
    intro j hj
    by_cases hseen : ∃ q ∈ seen, SameKey (stored q.1) (stored p.1)
    · obtain ⟨m, x, hx, hnamed⟩ := hf.has hseen
      have hmi := hf.ready.own hk hp hw hx hnamed
      subst hmi
      obtain ⟨hxlive, hxname⟩ := named_spec.mp hnamed
      obtain ⟨q, -, hqname, hqplace⟩ := hf.placed m x hx hxlive
      apply hqplace
      rw [← place_congr (hqname.trans hxname.symm)]
      exact hj
    · have hheld := hf.fresh p.1 hk fun q hq hsame => hseen ⟨q, hq, hsame⟩
      rw [hj] at hheld
      rcases hw.place with hat | ⟨hnone, -⟩
      · rw [hat] at hheld
        exact Option.some.inj hheld
      · rw [hnone] at hheld
        cases hheld
  · obtain ⟨q, hq, hname, hplace⟩ := hf.placed l e hold hlive
    exact ⟨q, List.mem_append_left _ hq, hname, hplace⟩

/-- A pair for the list is set. -/
theorem Filling.set (hroom : RoomyEnv env) (hf : Filling b env ht start keys seen s) (hk : keys p.1)
    (hl : lists b env ht p = true)
    (horder : (∀ q ∈ seen, ¬ SameKey (stored q.1) (stored p.1)) →
      ∀ j, place b env ht start p.1 = some j →
        ∀ q ∈ seen, ∃ i, place b env ht start q.1 = some i ∧ i < j) :
    ∃ s', mapsSet b env ht p.1 (some p.2) .set s = .ok (.ok, s') ∧
      Filling b env ht start keys (seen ++ [p]) s' ∧ s'.contentType = s.contentType := by
  have hp := headerSet_prepared (handlers b ht) p.1 (some p.2) .set
  simp only [lists, Bool.and_eq_true, Option.isNone_iff_eq_none] at hl
  obtain ⟨⟨hkey, henters⟩, haccepts⟩ := hl
  have hfew := hf.ready.few_hits hk hp
  obtain ⟨s', hcall⟩ := handle_returns hroom.pool hp.mode henters haccepts hfew
  obtain ⟨i, hw⟩ := handle_place hp.mode henters (fun i hi => hf.ready.range p.1 i hk hi) hfew hcall
  refine ⟨s', mapsSet_plain hroom hkey hcall, ?_, hw.contentType⟩
  refine ⟨hf.ready.set hk hp hw, hf.set_entries hk horder hw, ?_, ?_⟩
  · intro k hkk hnew
    have hne := hnew p (List.mem_append_right _ (List.mem_singleton_self p))
    rw [hf.ready.held_other hk hkk hw hne]
    exact hf.fresh k hkk fun q hq => hnew q (List.mem_append_left _ hq)
  · intro l e he hlive
    exact hf.set_placed hk hw he hlive

theorem Filling.retype (hf : Filling b env ht start keys seen s) (t : Bytes) :
    Filling b env ht start keys seen { s with contentType := t } :=
  ⟨⟨hf.ready.hash, hf.ready.fields, hf.ready.hashed, hf.ready.few, hf.ready.range, hf.ready.pointer,
    hf.ready.apart, hf.ready.places⟩, hf.entries, hf.fresh, hf.placed⟩

/-- The loop over the pairs, up to the first read-only key. -/
theorem setAll_fills (hroom : RoomyEnv env) (pairs : List Pair) :
    ∀ (seen : List Pair) (s : HeaderMap), Filling b env ht start keys seen s →
      (∀ q ∈ (taken ht pairs).filter (lists b env ht), keys q.1) →
      InOrder b env ht start seen ((taken ht pairs).filter (lists b env ht)) →
      ∃ rc s', mapsSetAll b env ht pairs s = .ok (rc, s') ∧ (rc = .ok ∨ rc = .abort) ∧
        Filling b env ht start keys (seen ++ (taken ht pairs).filter (lists b env ht)) s' ∧
        s'.contentType = typeAfter b ht s.contentType (taken ht pairs) := by
  induction pairs with
  | nil =>
    intro seen s hf _ _
    refine ⟨.ok, s, rfl, .inl rfl, ?_, rfl⟩
    rw [show (taken ht []).filter (lists b env ht) = [] from rfl, List.append_nil]
    exact hf
  | cons p pairs ih =>
    intro seen s hf hkeys horder
    by_cases hread : readOnly ht p = true
    · obtain ⟨m, hm⟩ : ∃ m, specialKey ht p.1 = some m := by
        cases hm : specialKey ht p.1 with
        | none => simp [readOnly, hm] at hread
        | some m => exact ⟨m, rfl⟩
      have hnone : taken ht (p :: pairs) = [] := by
        simp only [taken, List.takeWhile_cons, hread, Bool.not_true, Bool.false_eq_true, if_false]
      refine ⟨.abort, s, ?_, .inr rfl, ?_, ?_⟩
      · have hset := mapsSet_special (b := b) (s := s) hroom hm
        rw [if_pos hread] at hset
        simp only [mapsSetAll, hset]
      · rw [hnone, List.filter_nil, List.append_nil]
        exact hf
      · rw [hnone]
        rfl
    · have hmore : taken ht (p :: pairs) = p :: taken ht pairs := by
        simp only [taken, List.takeWhile_cons, hread, Bool.not_false, if_true]
      rw [hmore] at hkeys horder ⊢
      by_cases hl : lists b env ht p = true
      · rw [List.filter_cons_of_pos hl] at hkeys horder ⊢
        obtain ⟨hfirst, hrest⟩ := horder
        obtain ⟨s₁, hset, hf₁, htype⟩ :=
          hf.set hroom (hkeys p (List.mem_cons_self ..)) hl hfirst
        obtain ⟨rc, s', hrun, hrc, hf', htype'⟩ :=
          ih (seen ++ [p]) s₁ hf₁ (fun q hq => hkeys q (List.mem_cons_of_mem _ hq)) hrest
        have hno : types b ht p = false := by
          simp only [lists, Bool.and_eq_true] at hl
          cases hset : (handlerOf (handlers b ht) p.1).setter <;> simp [types, hset]
          rw [hset] at hl
          exact absurd hl.1.2 (by simp [enters, listed, pointed])
        refine ⟨rc, s', ?_, hrc, ?_, ?_⟩
        · simp only [mapsSetAll, hset, hrun]
        · rw [List.append_assoc] at hf'
          exact hf'
        · rw [htype', htype, typeAfter_cons, typeAfter_same s.contentType hno]
      · have hl' : lists b env ht p = false := by simpa using hl
        rw [List.filter_cons_of_neg hl] at hkeys horder ⊢
        have hset : mapsSet b env ht p.1 (some p.2) .set s =
            .ok (.ok, { s with contentType := typeAfter b ht s.contentType [p] }) := by
          cases hm : specialKey ht p.1 with
          | none => exact mapsSet_unlisted hroom hm hl'
          | some m =>
            rw [mapsSet_special hroom hm, if_neg hread,
              typeAfter_same s.contentType (by simp [types, hm])]
        obtain ⟨rc, s', hrun, hrc, hf', htype'⟩ := ih seen _ (hf.retype _) hkeys horder
        refine ⟨rc, s', ?_, hrc, hf', ?_⟩
        · simp only [mapsSetAll, hset]
          exact hrun
        · exact htype'.trans (typeAfter_cons s.contentType (taken ht pairs)).symm

/-! ### The whole call -/

theorem live_none {s' : HeaderMap} (hlive : s'.list.live = []) {l : ℕ} {e : Elt}
    (he : s'.list.elts[l]? = some e) : e.hash = 0 := by
  by_contra hne
  have hmem : e ∈ s'.list.live :=
    List.mem_filter.mpr ⟨List.mem_of_getElem? he, bne_iff_ne.mpr hne⟩
  rw [hlive] at hmem
  exact absurd hmem List.not_mem_nil

theorem held_place {s' : HeaderMap} (hempty : Emptied (handlers b ht) 0 s s') (k : Bytes) :
    held env.select (handlerOf (handlers b ht) k) s' = place b env ht s k := by
  rw [held, place, emptied_builtin hempty]

/-- The map is empty, with the pointers that clearing leaves. -/
theorem filling_start {pairs : List Pair} {s' : HeaderMap} (hok : PairsOk b env ht pairs s)
    (hlive : s'.list.live = []) (hempty : Emptied (handlers b ht) 0 s s') :
    Filling b env ht s (KeyOf b env ht pairs) [] s' := by
  have hdead {l : ℕ} {e : Elt} {k : Bytes} (he : s'.list.elts[l]? = some e)
      (hn : named k e = true) : False :=
    (named_spec.mp hn).1 (live_none hlive he)
  have hdead' {e : Elt} {k : Bytes} (he : e ∈ s'.list.elts) (hn : named k e = true) : False := by
    obtain ⟨l, hl⟩ := List.mem_iff_getElem?.mp he
    exact hdead hl hn
  refine ⟨⟨hok.hash, hok.fields, ?_, ?_, ?_, ?_, ?_, ?_⟩, ?_, ?_, ?_⟩
  · intro k _ e he hn
    exact (hdead' he hn).elim
  · intro k _ _
    have hnone : valuesOf (stored k) s'.list.elts = [] := by
      apply valuesOf_miss
      intro e he
      cases hn : named (stored k) e with
      | false => rfl
      | true => exact (hdead' he hn).elim
    rw [hnone]
    exact Nat.zero_le 1
  · intro k i hk hheld
    rw [held_place hempty] at hheld
    rw [hempty.length]
    exact hok.range k i hk hheld
  · intro k i _ _ l e he hn
    exact (hdead he hn).elim
  · intro k k' i e _ _ _ he hn
    exact (hdead he hn).elim
  · intro k k' i hk hk' hheld hheld'
    rw [held_place hempty] at hheld hheld'
    exact hok.places k k' i hk hk' hheld hheld'
  · rw [liveEntries, hlive]
    rfl
  · intro k _ _
    exact held_place hempty k
  · intro l e he hne
    exact absurd (live_none hlive he) hne

/-- The call sets what the pairs say, where clearing takes every header away, no pair for the
list is behind a read-only key, and the pointers left do not put a pair elsewhere. -/
theorem pairs_set (b : Build) (env : Env) (ht : HType) (pairs : List Pair) (s : HeaderMap)
    (hok : PairsOk b env ht pairs s) : SetsAll b env ht pairs s := by
  obtain ⟨s₁, hclear, hlive, hempty⟩ := clearHeaders_empties hok.clear
  obtain ⟨rc, s', hrun, hrc, hf, htype⟩ := setAll_fills hok.room pairs [] s₁
    (filling_start hok hlive hempty) (fun q hq => ⟨q, hq, rfl⟩) hok.order
  have hcall : setHeaderMapPairs b env ht pairs s = .ok (.ok, s') := by
    simp only [setHeaderMapPairs, hclear, hrun]
    rcases hrc with rfl | rfl <;> rfl
  rw [SetsAll, hcall]
  refine ⟨hf.entries.trans hok.reached, ?_⟩
  rw [htype, hempty.contentType]
  exact hok.typed

end

/-- A request with one `Referer` header. -/
def oneReferer : HeaderMap where
  list := ⟨[⟨refererHash, ascii "Referer", [49]⟩], [], pushed_nil⟩
  builtin := fun f => if f = .referer then some 0 else none
  contentType := []

def refererFirst : List Pair := [(ascii "referer", [50]), (ascii "a", [51])]

theorem refererFirst_taken :
    (taken .request refererFirst).filter (lists allModules plentyEnv .request) = refererFirst := by
  decide

theorem refererFirst_key {k : Bytes} (hk : KeyOf allModules plentyEnv .request refererFirst k) :
    k = ascii "referer" ∨ k = ascii "a" := by
  obtain ⟨p, hp, rfl⟩ := hk
  rw [refererFirst_taken] at hp
  rcases List.mem_cons.mp hp with rfl | hp
  · exact .inl rfl
  · rw [List.mem_singleton.mp hp]
    exact .inr rfl

theorem refererFirst_place : place allModules plentyEnv .request oneReferer (ascii "referer") = some 0 ∧
    place allModules plentyEnv .request oneReferer (ascii "a") = none := by
  decide

theorem refererFirst_ok : PairsOk allModules plentyEnv .request refererFirst oneReferer where
  room := ⟨rfl, rfl, rfl, rfl, rfl⟩
  clear := by
    intro i e he _
    have hlt : i < 1 := (List.getElem?_eq_some_iff.mp he).1
    obtain rfl : i = 0 := by omega
    have heq : (⟨refererHash, ascii "Referer", [49]⟩ : Elt) = e := Option.some.inj he
    subst heq
    have hsetter : (handlerOf (handlers allModules .request) (ascii "Referer")).setter = .builtin := by
      decide
    refine ⟨by unfold Copied; decide, ?_⟩
    simp only [hsetter]
    decide
  reached := by decide
  typed := by decide
  hash := by
    intro k hk
    rcases refererFirst_key hk with rfl | rfl <;> decide
  fields := by
    intro k k' hk hk'
    rcases refererFirst_key hk with rfl | rfl <;> rcases refererFirst_key hk' with rfl | rfl <;>
      decide
  places := by
    intro k k' i hk hk' hp hp'
    rcases refererFirst_key hk with rfl | rfl
    · rcases refererFirst_key hk' with rfl | rfl
      · exact SameKey.refl _
      · rw [refererFirst_place.2] at hp'
        cases hp'
    · rw [refererFirst_place.2] at hp
      cases hp
  range := by
    intro k i hk hp
    rcases refererFirst_key hk with rfl | rfl
    · rw [refererFirst_place.1] at hp
      rw [← Option.some.inj hp]
      decide
    · rw [refererFirst_place.2] at hp
      cases hp
  order := by
    rw [refererFirst_taken]
    refine ⟨fun _ _ _ q hq => absurd hq List.not_mem_nil, ?_, trivial⟩
    intro _ j hj
    have hplace : place allModules plentyEnv .request oneReferer (ascii "a") = some j := hj
    rw [refererFirst_place.2] at hplace
    cases hplace

theorem pairs_set_referer : SetsAll allModules plentyEnv .request refererFirst oneReferer :=
  pairs_set allModules plentyEnv .request refererFirst oneReferer refererFirst_ok

/-- Of two `Referer` headers the second one is left, and a read-only key keeps the pair behind
it from being set. -/
theorem second_referer_left :
    ¬ SetsAll allModules plentyEnv .request [] twoReferers ∧
      ¬ SetsAll allModules plentyEnv .request [(ascii ":scheme", ascii "http"), ([97], [49])]
        ⟨⟨[], [], pushed_nil⟩, fun _ => none, []⟩ := by
  unfold SetsAll
  constructor
  · intro h
    have hlive : [(ascii "Referer", [50])] = ([] : List Pair) := h.1
    cases hlive
  · intro h
    have hlive : ([] : List Pair) = [([97], [49])] := h.1
    cases hlive

end NgxWasm.ProxyWasm.HeaderPairs
