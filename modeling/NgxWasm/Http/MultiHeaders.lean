import NgxWasm.Http.HeaderNames
import NgxWasm.Lib.Links
import NgxWasm.Lib.Run

/-!
# Multi-valued headers (ngx_http_wasm_set_builtin_multi_header_handler)

The handlers of `ngx_http_wasm_headers_request.c` (418-453) and of
`ngx_http_wasm_headers_response.c` (266-293) for nginx from 1.23 on, with the `next`
fields. The builtin pointer is the head of a chain of elements.
-/

namespace NgxWasm.Http.MultiHeaders

open NgxWasm NgxWasm.ProxyWasm.Pairs NgxWasm.Http.Headers NgxWasm.Http.HeaderSet
open NgxWasm.Http.HeaderNames NgxWasm.Lib.Links NgxWasm.Lib.Run

/-! ### Handlers -/

structure Chained where
  headers : HeaderMap
  next : ℕ → Option ℕ

abbrev Result := Except Fault (Rc × Chained)

/-- The state once the list is `list`, which has one element more if one was pushed;
its `next` is cleared. -/
def Chained.withList (s : Chained) (list : HeaderList) : Chained where
  headers := { s.headers with list := list }
  next :=
    if s.headers.list.elts.length < list.elts.length then
      Function.update s.next s.headers.list.elts.length none
    else s.next

@[simp] theorem withList_list (s : Chained) (list : HeaderList) :
    (s.withList list).headers.list = list := rfl

theorem withList_same (s : Chained) : s.withList s.headers.list = s := by
  unfold Chained.withList
  rw [if_neg (Nat.lt_irrefl _)]

/-- `ngx_http_wasm_set_header_helper`. -/
def setHelper (pool : Pool) (hv : HeaderSet) (s : Chained) :
    Except Fault (Rc × Chained × Option (Option ℕ)) :=
  match setHeaderHelper pool hv s.headers.list with
  | .error fault => .error fault
  | .ok (rc, list, out) => .ok (rc, s.withList list, out)

def clearNext (out : Option ℕ) (next : ℕ → Option ℕ) : ℕ → Option ℕ :=
  match out with
  | some h => Function.update next h none
  | none => next

/-- `*ph = h` at the end of the chain, and `h->next = NULL`. The walk to the end is over
after as many elements as the list has, or never. -/
def linkTail (offset : Field) (out : Option ℕ) (s : Chained) : Except Fault Chained :=
  match s.headers.builtin offset with
  | some head =>
    match lastOf s.next s.headers.list.elts.length head with
    | none => .error .endless
    | some last => .ok { s with next := clearNext out (Function.update s.next last out) }
  | none =>
    .ok ⟨{ s.headers with builtin := Function.update s.headers.builtin offset out },
      clearNext out s.next⟩

/-- From the helper on; `h` is used as the helper leaves it. -/
def linkHelper (pool : Pool) (offset : Field) (hv : HeaderSet) (s : Chained) : Result :=
  match setHelper pool hv s with
  | .error fault => .error fault
  | .ok (.error, s, _) => .ok (.error, s)
  | .ok (_, _, none) => .error .wildPointer
  | .ok (_, s, some out) =>
    match linkTail offset out s with
    | .error fault => .error fault
    | .ok s => .ok (.ok, s)

def reqMultiHandler (pool : Pool) (offset : Field) (hv : HeaderSet) (s : Chained) : Result :=
  if hv.mode = .set ∨ hv.mode = .remove then
    linkHelper pool offset hv
      { s with headers :=
        { s.headers with builtin := Function.update s.headers.builtin offset none } }
  else linkHelper pool offset hv s

def respMultiHandler (pool : Pool) (offset : Field) (hv : HeaderSet) (s : Chained) : Result :=
  linkHelper pool offset hv s

/-- `ngx_http_wasm_set_req_header` and `ngx_http_wasm_set_resp_header`. -/
def setChained (b : Build) (ht : HType) (pool : Pool) (select : Bool) (key : Bytes)
    (value : Option Bytes) (mode : Mode) (s : Chained) : Result :=
  match prepare pool (handlers b ht) key value mode with
  | none => .ok (.error, s)
  | some (h, hv) =>
    match h.setter with
    | .reqMulti => reqMultiHandler pool h.offset hv s
    | .respMulti => respMultiHandler pool h.offset hv s
    | _ =>
      match handle pool select h hv s.headers with
      | .error fault => .error fault
      | .ok (rc, headers) => .ok (rc, { s with headers := headers })

/-! ### The places of a name -/

/-- The places of the elements that satisfy `p`, in list order. -/
def placesFrom (p : Elt → Bool) : ℕ → List Elt → List ℕ
  | _, [] => []
  | i, e :: l => if p e then i :: placesFrom p (i + 1) l else placesFrom p (i + 1) l

def places (p : Elt → Bool) (l : List Elt) : List ℕ := placesFrom p 0 l

section
variable {p : Elt → Bool}

theorem placesFrom_append (p : Elt → Bool) (i : ℕ) (l m : List Elt) :
    placesFrom p i (l ++ m) = placesFrom p i l ++ placesFrom p (i + l.length) m := by
  induction l generalizing i with
  | nil => rfl
  | cons e l ih =>
    have hlen : i + 1 + l.length = i + (e :: l).length := by
      rw [List.length_cons]
      omega
    rw [List.cons_append, placesFrom, placesFrom, ih, hlen]
    split
    · rfl
    · rfl

theorem mem_placesFrom {i j : ℕ} {l : List Elt} :
    j ∈ placesFrom p i l ↔ ∃ k e, l[k]? = some e ∧ p e = true ∧ j = i + k := by
  induction l generalizing i with
  | nil => simp [placesFrom]
  | cons e l ih =>
    have hrest : j ∈ placesFrom p (i + 1) l ↔
        ∃ k x, (e :: l)[k + 1]? = some x ∧ p x = true ∧ j = i + (k + 1) := by
      rw [ih]
      constructor
      · intro ⟨k, x, hx, hp, hj⟩
        exact ⟨k, x, by simpa using hx, hp, by omega⟩
      · intro ⟨k, x, hx, hp, hj⟩
        exact ⟨k, x, by simpa using hx, hp, by omega⟩
    rw [placesFrom]
    by_cases hp : p e = true
    · rw [if_pos hp, List.mem_cons, hrest]
      constructor
      · intro h
        rcases h with rfl | ⟨k, x, h⟩
        · exact ⟨0, e, rfl, hp, rfl⟩
        · exact ⟨k + 1, x, h⟩
      · intro ⟨k, x, hx, hpx, hj⟩
        cases k with
        | zero => exact .inl hj
        | succ k => exact .inr ⟨k, x, hx, hpx, hj⟩
    · rw [if_neg hp, hrest]
      constructor
      · intro ⟨k, x, h⟩
        exact ⟨k + 1, x, h⟩
      · intro ⟨k, x, hx, hpx, hj⟩
        cases k with
        | zero =>
          obtain rfl : e = x := Option.some.inj hx
          exact absurd hpx hp
        | succ k => exact ⟨k, x, hx, hpx, hj⟩

theorem mem_places {j : ℕ} {l : List Elt} :
    j ∈ places p l ↔ ∃ e, l[j]? = some e ∧ p e = true := by
  rw [places, mem_placesFrom]
  constructor
  · intro ⟨k, e, he, hp, hj⟩
    obtain rfl : j = k := by omega
    exact ⟨e, he, hp⟩
  · intro ⟨e, he, hp⟩
    exact ⟨j, e, he, hp, by omega⟩

theorem places_lt {j : ℕ} {l : List Elt} (h : j ∈ places p l) : j < l.length := by
  obtain ⟨e, he, _⟩ := mem_places.mp h
  exact (List.getElem?_eq_some_iff.mp he).1

/-- The places depend on where the property holds and not on the elements. -/
theorem placesFrom_congr {q : Elt → Bool} {l m : List Elt} (h : l.map p = m.map q) (i : ℕ) :
    placesFrom p i l = placesFrom q i m := by
  induction l generalizing i m with
  | nil =>
    cases m with
    | nil => rfl
    | cons x m => simp at h
  | cons e l ih =>
    cases m with
    | nil => simp at h
    | cons x m =>
      rw [List.map_cons, List.map_cons, List.cons.injEq] at h
      rw [placesFrom, placesFrom, h.1, ih h.2]

theorem places_miss {l : List Elt} (h : ∀ e ∈ l, p e = false) : places p l = [] := by
  rw [List.eq_nil_iff_forall_not_mem]
  intro j hj
  obtain ⟨e, he, hp⟩ := mem_places.mp hj
  rw [h e (List.mem_of_getElem? he)] at hp
  cases hp

theorem places_push (l : List Elt) {e : Elt} (he : p e = true) :
    places p (l ++ [e]) = places p l ++ [l.length] := by
  rw [places, placesFrom_append, placesFrom, if_pos he, Nat.zero_add]
  rfl

theorem places_push_other (l : List Elt) {e : Elt} (he : p e = false) :
    places p (l ++ [e]) = places p l := by
  rw [places, placesFrom_append, placesFrom, he]
  exact List.append_nil _

theorem places_at {a b : List Elt} {e : Elt} (ha : ∀ x ∈ a, p x = false) (he : p e = true)
    (hb : ∀ x ∈ b, p x = false) : places p (a ++ e :: b) = [a.length] := by
  have hfirst : placesFrom p 0 a = [] := places_miss ha
  have hlast : placesFrom p (0 + a.length + 1) b = [] := by
    have hmiss := places_miss hb
    rw [List.eq_nil_iff_forall_not_mem]
    intro j hj
    obtain ⟨k, x, hx, hp, _⟩ := mem_placesFrom.mp hj
    have hmem : k ∈ places p b := mem_places.mpr ⟨x, hx, hp⟩
    rw [hmiss] at hmem
    cases hmem
  rw [places, placesFrom_append, placesFrom, if_pos he, hfirst, hlast, Nat.zero_add]
  rfl

end

/-! ### Coherence -/

def multiHandlers (b : Build) (ht : HType) : List Handler :=
  (handlers b ht).filter fun h => h.setter == .reqMulti || h.setter == .respMulti

theorem multi_mem {b : Build} {ht : HType} {h : Handler} (hh : h ∈ multiHandlers b ht) :
    h ∈ handlers b ht := (List.mem_filter.mp hh).1

def multiSetter : HType → Setter
  | .request => .reqMulti
  | .response => .respMulti

theorem multi_setter {b : Build} {ht : HType} {h : Handler} (hh : h ∈ multiHandlers b ht) :
    h.setter = multiSetter ht := by
  obtain ⟨hmem, hset⟩ := List.mem_filter.mp hh
  have hfull : ∀ ht, ∀ h ∈ handlers fullBuild ht,
      (h.setter == .reqMulti || h.setter == .respMulti) = true → h.setter = multiSetter ht := by
    intro ht
    cases ht
    · decide
    · decide
  exact hfull ht h (handlers_full b ht hmem) hset

theorem multi_offset {b : Build} {ht : HType} {g h : Handler} (hg : g ∈ multiHandlers b ht)
    (hh : h ∈ multiHandlers b ht) (hne : g ≠ h) : g.offset ≠ h.offset := by
  have hfull : ∀ ht, ∀ g ∈ multiHandlers fullBuild ht, ∀ h ∈ multiHandlers fullBuild ht,
      g ≠ h → g.offset ≠ h.offset := by
    intro ht
    cases ht
    · decide
    · decide
  have hlift : ∀ h ∈ multiHandlers b ht, h ∈ multiHandlers fullBuild ht := by
    intro h hh
    obtain ⟨hmem, hset⟩ := List.mem_filter.mp hh
    exact List.mem_filter.mpr ⟨handlers_full b ht hmem, hset⟩
  exact hfull ht g (hlift g hg) h (hlift h hh) hne

/-- The chain of the pointer is the live elements of the name, each once, in list order. -/
def Coherent (s : Chained) (h : Handler) : Prop :=
  Seg s.next (s.headers.builtin h.offset) (places (named h.name) s.headers.list.elts) none

def AllCoherent (b : Build) (ht : HType) (s : Chained) : Prop :=
  ∀ h ∈ multiHandlers b ht, Coherent s h

/-- The chain after the element `out` was linked. -/
def linked (xs : List ℕ) : Option ℕ → List ℕ
  | none => xs
  | some h => if h ∈ xs then xs else xs ++ [h]

theorem linkTail_spec {s : Chained} {offset : Field} {out : Option ℕ} {xs : List ℕ}
    (hseg : Seg s.next (s.headers.builtin offset) xs none)
    (hlt : ∀ x ∈ xs, x < s.headers.list.elts.length)
    (hout : ∀ h, out = some h → h ∈ xs → xs.getLast? = some h) :
    ∃ s', linkTail offset out s = .ok s' ∧ s'.headers.list = s.headers.list ∧
      (∀ f, f ≠ offset → s'.headers.builtin f = s.headers.builtin f) ∧
      (∀ i, i ∉ xs → out ≠ some i → s'.next i = s.next i) ∧
      Seg s'.next (s'.headers.builtin offset) (linked xs out) none := by
  have hclear : ∀ (next : ℕ → Option ℕ) i, out ≠ some i → clearNext out next i = next i := by
    intro next i hi
    cases out with
    | none => rfl
    | some h => exact Function.update_of_ne (fun heq => hi (by rw [heq])) ..
  rcases List.eq_nil_or_concat xs with rfl | ⟨ys, l, rfl⟩
  · have hhead : s.headers.builtin offset = none := hseg
    refine ⟨⟨{ s.headers with builtin := Function.update s.headers.builtin offset out },
      clearNext out s.next⟩, by rw [linkTail, hhead], rfl, ?_, ?_, ?_⟩
    · intro f hf
      exact Function.update_of_ne hf ..
    · intro i _ hi
      exact hclear s.next i hi
    · show Seg _ (Function.update s.headers.builtin offset out offset) _ _
      rw [Function.update_self]
      cases out with
      | none => rfl
      | some h => exact ⟨rfl, Function.update_self ..⟩
  · rw [List.concat_eq_append] at hseg hlt hout ⊢
    obtain ⟨a, ha⟩ : ∃ a, s.headers.builtin offset = some a := by
      cases ys with
      | nil => exact ⟨_, hseg.1⟩
      | cons y ys => exact ⟨_, hseg.1⟩
    have hlen := length_le_of_nodup (seg_nodup hseg) hlt
    rw [List.length_append, List.length_singleton] at hlen
    have hlast : lastOf s.next s.headers.list.elts.length a = some l := by
      rw [ha] at hseg
      exact lastOf_seg hseg (by omega)
    have hnil : s.next l = none := (seg_snoc.mp hseg).2
    refine ⟨{ s with next := clearNext out (Function.update s.next l out) },
      by simp only [linkTail, ha, hlast], rfl, fun f _ => rfl, ?_, ?_⟩
    · intro i hi hne
      have hil : i ≠ l := fun heq => hi (by simp [heq])
      exact (hclear _ i hne).trans (Function.update_of_ne hil ..)
    · cases out with
      | none =>
        have hsame : Function.update s.next l none = s.next := by
          rw [← hnil]
          exact Function.update_eq_self ..
        show Seg (Function.update s.next l none) _ _ _
        rw [hsame]
        exact hseg
      | some h =>
        show Seg (Function.update (Function.update s.next l (some h)) h none) _ _ _
        by_cases hmem : h ∈ ys ++ [l]
        · have heq := hout h rfl hmem
          rw [List.getLast?_concat] at heq
          obtain rfl := Option.some.inj heq
          have hsame : Function.update (Function.update s.next l (some l)) l none = s.next := by
            rw [Function.update_idem, ← hnil]
            exact Function.update_eq_self ..
          rw [hsame, linked, if_pos hmem]
          exact hseg
        · rw [linked, if_neg hmem]
          exact seg_attach hseg hmem

section
variable {b : Build} {ht : HType} {h : Handler} {s t : Chained} {xs : List ℕ} {out : Option ℕ}

theorem named_other {g : Handler} {e : Elt} (hg : g ∈ handlers b ht) (hh : h ∈ handlers b ht)
    (hne : g ≠ h) (he : SameKey h.name e.key) : named g.name e = false := by
  cases hn : named g.name e with
  | false => rfl
  | true =>
    have hsame : SameKey g.name h.name := (named_spec.mp hn).2.trans he.symm
    exact absurd (handlers_unique hg hh hsame) hne

/-- What the helper has to have left for the link to keep every chain. `t` is the state
after it, and `xs` the chain that is extended. -/
structure Extends (b : Build) (ht : HType) (h : Handler) (s t : Chained) (xs : List ℕ)
    (out : Option ℕ) : Prop where
  pointers : t.headers.builtin = s.headers.builtin
  next : ∀ i < s.headers.list.elts.length, t.next i = s.next i
  grows : s.headers.list.elts.length ≤ t.headers.list.elts.length
  chain : Seg s.next (s.headers.builtin h.offset) xs none
  sub : ∀ x ∈ xs, x ∈ places (named h.name) s.headers.list.elts
  others : ∀ g ∈ multiHandlers b ht, g ≠ h → Coherent s g
  kept : ∀ g ∈ multiHandlers b ht, g ≠ h →
    places (named g.name) t.headers.list.elts = places (named g.name) s.headers.list.elts
  last : ∀ i, out = some i → i ∈ xs → xs.getLast? = some i
  places : places (named h.name) t.headers.list.elts = linked xs out

theorem places_disjoint {g : Handler} (hg : g ∈ handlers b ht) (hh : h ∈ handlers b ht)
    (hne : g ≠ h) {l : List Elt} {i : ℕ} (hi : i ∈ places (named g.name) l) :
    i ∉ places (named h.name) l := by
  intro hmem
  obtain ⟨e, he, hn⟩ := mem_places.mp hi
  obtain ⟨x, hx, hnx⟩ := mem_places.mp hmem
  obtain rfl : e = x := Option.some.inj (he.symm.trans hx)
  rw [named_other hg hh hne (named_spec.mp hnx).2] at hn
  cases hn

theorem coherent_link (hh : h ∈ multiHandlers b ht) (he : Extends b ht h s t xs out) :
    ∃ s', linkTail h.offset out t = .ok s' ∧ AllCoherent b ht s' := by
  have hlt : ∀ x ∈ xs, x < s.headers.list.elts.length := fun x hx => places_lt (he.sub x hx)
  have hseg : Seg t.next (t.headers.builtin h.offset) xs none := by
    rw [he.pointers]
    exact seg_congr (fun x hx => he.next x (hlt x hx)) he.chain
  obtain ⟨s', hs', hlist, hpointers, hnext, hchain⟩ := linkTail_spec hseg
    (fun x hx => Nat.lt_of_lt_of_le (hlt x hx) he.grows) he.last
  refine ⟨s', hs', fun g hg => ?_⟩
  by_cases hne : g = h
  · subst hne
    rw [Coherent, hlist, he.places]
    exact hchain
  · have hplaces : places (named g.name) s'.headers.list.elts =
        places (named g.name) s.headers.list.elts := by
      rw [hlist, he.kept g hg hne]
    rw [Coherent, hplaces, hpointers _ (multi_offset hg hh hne), he.pointers]
    refine seg_congr ?_ (he.others g hg hne)
    intro i hi
    have hxs : i ∉ xs := fun hx =>
      places_disjoint (multi_mem hg) (multi_mem hh) hne hi (he.sub i hx)
    have hout : out ≠ some i := by
      intro heq
      have hown : i ∈ places (named h.name) t.headers.list.elts := by
        rw [he.places, heq, linked, if_neg hxs]
        simp
      rw [← he.kept g hg hne] at hi
      exact places_disjoint (multi_mem hg) (multi_mem hh) hne hi hown
    rw [hnext i hxs hout, he.next i (places_lt hi)]

end

/-! ### The helper -/

section
variable {b : Build} {ht : HType} {h : Handler} {pool : Pool} {hv : HeaderSet} {s : Chained}
  {mode : Mode} {value : Option Bytes}

/-- An element that a SET with this name finds. -/
def found (name : Bytes) (e : Elt) : Bool :=
  e.hash == hashKeyLc name && decide (SameKey name e.key)

theorem found_hits (hn : Named h mode value hv) : found h.name = hv.hits := by
  funext e
  rw [Bool.eq_iff_iff, hn.hits_iff, found]
  simp

/-- After the helper returned `NGX_OK` with an element in `h`, or NULL. -/
theorem linkHelper_ok {list : HeaderList} {out : Option ℕ} {offset : Field}
    (hset : setHeaderHelper pool hv s.headers.list = .ok (.ok, list, some out)) :
    linkHelper pool offset hv s =
      (linkTail offset out (s.withList list)).map (fun s => (.ok, s)) := by
  rw [linkHelper, setHelper, hset]
  dsimp only
  split
  · next heq => rw [heq]; rfl
  · next heq => rw [heq]; rfl

/-- The helper's own change of `next` is beyond the elements there were. -/
theorem pushed_next (list : HeaderList) {i : ℕ} (hi : i < s.headers.list.elts.length) :
    (s.withList list).next i = s.next i := by
  unfold Chained.withList
  dsimp only
  split
  · exact Function.update_of_ne (Nat.ne_of_lt hi) ..
  · rfl

theorem elt_other (hn : Named h mode value hv) {g : Handler} (hg : g ∈ handlers b ht)
    (hh : h ∈ handlers b ht) (hne : g ≠ h) (hash : ℕ) :
    named g.name { hv.elt with hash := hash } = false :=
  named_other hg hh hne hn.same

/-- The kept places of another name, where the elements are the same but for those of
this one. -/
theorem places_kept {g : Handler} {l l' : List Elt}
    (hmap : l'.map (named g.name) = l.map (named g.name)) :
    places (named g.name) l' = places (named g.name) l :=
  placesFrom_congr hmap 0

/-- A new element at the end of the list. -/
theorem link_new (hh : h ∈ multiHandlers b ht) (hn : Named h mode value hv)
    (hs : AllCoherent b ht s) (hwhole : Whole pool)
    (hset : setHeaderHelper pool hv s.headers.list = .ok (newHeader pool hv s.headers.list)) :
    ∃ rc s', linkHelper pool h.offset hv s = .ok (rc, s') ∧ AllCoherent b ht s' := by
  by_cases hp : pool.push = true
  · have hl : pool.lowcase = true := by
      rcases hwhole with hw | hw
      · rw [hp] at hw
        cases hw
      · exact hw
    have hnew : newHeader pool hv s.headers.list =
        (.ok, s.headers.list.push pool.nalloc hv.elt, some (some s.headers.list.elts.length)) := by
      simp only [newHeader, hp, hl, if_true]
    rw [hnew] at hset
    have hown := hn.elt_named (multi_mem hh)
    have hfresh : s.headers.list.elts.length ∉ places (named h.name) s.headers.list.elts :=
      fun hmem => Nat.lt_irrefl _ (places_lt hmem)
    rw [linkHelper_ok hset]
    obtain ⟨s', hs', hall⟩ := coherent_link hh (s := s)
      (t := s.withList (s.headers.list.push pool.nalloc hv.elt))
      { pointers := rfl
        next := fun i hi => pushed_next _ hi
        grows := by simp [HeaderList.push_elts]
        chain := hs h hh
        sub := fun x hx => hx
        others := fun g hg _ => hs g hg
        kept := by
          intro g hg hne
          rw [withList_list, HeaderList.push_elts]
          exact places_push_other _ (elt_other hn (multi_mem hg) (multi_mem hh) hne hv.elt.hash)
        last := by
          intro i hi hmem
          obtain rfl := Option.some.inj hi
          exact absurd hmem hfresh
        places := by
          rw [withList_list, HeaderList.push_elts, places_push _ hown, linked, if_neg hfresh] }
    refine ⟨.ok, s', ?_, hall⟩
    rw [hs']
    rfl
  · have hnew : newHeader pool hv s.headers.list = (.error, s.headers.list, none) := by
      simp only [newHeader, hp]
      rfl
    rw [hnew] at hset
    refine ⟨.error, s, ?_, hs⟩
    rw [linkHelper, setHelper, hset]
    dsimp only
    rw [withList_same]

/-- The only element found, written over, which is the last one of the chain `xs` or
begins it. -/
theorem link_update (hh : h ∈ multiHandlers b ht) (hn : Named h mode value hv)
    (hs : ∀ g ∈ multiHandlers b ht, g ≠ h → Coherent s g) {a c : List Elt} {e : Elt}
    (hl : s.headers.list.elts = a ++ e :: c) (he : hv.hits e = true) {xs : List ℕ}
    (hset : setHeaderHelper pool hv s.headers.list =
      .ok (.ok, s.headers.list.assign a.length hv.elt, some (some a.length)))
    (hchain : Seg s.next (s.headers.builtin h.offset) xs none)
    (hsub : ∀ x ∈ xs, x ∈ places (named h.name) s.headers.list.elts)
    (hlast : a.length ∈ xs → xs.getLast? = some a.length)
    (hplaces : places (named h.name) s.headers.list.elts = linked xs (some a.length)) :
    ∃ rc s', linkHelper pool h.offset hv s = .ok (rc, s') ∧ AllCoherent b ht s' := by
  have helts : (s.headers.list.assign a.length hv.elt).elts = a ++ hv.elt :: c := by
    rw [HeaderList.assign_elts, hl, set_at]
  have hkey := ((hn.hits_iff e).mp he).2
  rw [linkHelper_ok hset]
  obtain ⟨s', hs', hall⟩ := coherent_link hh (s := s)
    (t := s.withList (s.headers.list.assign a.length hv.elt))
    { pointers := rfl
      next := fun i hi => pushed_next _ hi
      grows := by simp [HeaderList.assign_elts]
      chain := hchain
      sub := hsub
      others := hs
      kept := by
        intro g hg hne
        rw [withList_list, helts, hl]
        apply places_kept
        have hold := named_other (multi_mem hg) (multi_mem hh) hne hkey
        have hnew := elt_other hn (multi_mem hg) (multi_mem hh) hne hv.elt.hash
        simp only [List.map_append, List.map_cons, hold]
        rw [show named g.name hv.elt = false from hnew]
      last := by
        intro i hi hmem
        obtain rfl := Option.some.inj hi
        exact hlast hmem
      places := by
        rw [← hplaces, withList_list, helts, hl]
        have hold : named h.name e = true := hn.hits_named (multi_mem hh) he
        have hnew : named h.name hv.elt = true := hn.elt_named (multi_mem hh)
        apply placesFrom_congr
        simp only [List.map_append, List.map_cons, hold, hnew] }
  refine ⟨.ok, s', ?_, hall⟩
  rw [hs']
  rfl

/-- All elements found are cleared and `h` is NULL; the pointer was NULL before. -/
theorem link_cleared (hh : h ∈ multiHandlers b ht)
    (hs : ∀ g ∈ multiHandlers b ht, g ≠ h → Coherent s g) {list : HeaderList}
    (hset : setHeaderHelper pool hv s.headers.list = .ok (.ok, list, some none))
    (hhead : s.headers.builtin h.offset = none)
    (hlen : list.elts.length = s.headers.list.elts.length)
    (hown : ∀ e ∈ list.elts, named h.name e = false)
    (hother : ∀ g ∈ handlers b ht, g ≠ h →
      list.elts.map (named g.name) = s.headers.list.elts.map (named g.name)) :
    ∃ rc s', linkHelper pool h.offset hv s = .ok (rc, s') ∧ AllCoherent b ht s' := by
  rw [linkHelper_ok hset]
  obtain ⟨s', hs', hall⟩ := @coherent_link b ht h s (s.withList list) [] none hh
    { pointers := rfl
      next := fun i hi => pushed_next _ hi
      grows := by simp [hlen]
      chain := hhead
      sub := fun x hx => absurd hx List.not_mem_nil
      others := hs
      kept := fun g hg hne => places_kept (hother g (multi_mem hg) hne)
      last := fun i hi => by cases hi
      places := places_miss hown }
  refine ⟨.ok, s', ?_, hall⟩
  rw [hs']
  rfl

/-- The elements a clearing search leaves, where every live element of the name is found. -/
theorem cleared_named (hn : Named h mode value hv) {l : List Elt}
    (hsame : places (found h.name) l = places (named h.name) l) :
    ∀ e ∈ l, named h.name (cleared hv e) = false := by
  intro e he
  cases hhit : hv.hits e with
  | true => simp [cleared, hhit, named]
  | false =>
    have hid : cleared hv e = e := by simp [cleared, hhit]
    rw [hid]
    cases hnamed : named h.name e with
    | false => rfl
    | true =>
      obtain ⟨i, hi⟩ := List.mem_iff_getElem?.mp he
      have hlive : i ∈ places (named h.name) l := mem_places.mpr ⟨e, hi, hnamed⟩
      rw [← hsame] at hlive
      obtain ⟨x, hx, hf⟩ := mem_places.mp hlive
      obtain rfl : e = x := Option.some.inj (hi.symm.trans hx)
      rw [found_hits hn, hhit] at hf
      cases hf

theorem cleared_other (hn : Named h mode value hv) {g : Handler} (hg : g ∈ handlers b ht)
    (hh : h ∈ handlers b ht) (hne : g ≠ h) (e : Elt) :
    named g.name (cleared hv e) = named g.name e := by
  cases hhit : hv.hits e with
  | false => simp [cleared, hhit]
  | true =>
    have hkey := ((hn.hits_iff e).mp hhit).2
    have hcleared : SameKey h.name (cleared hv e).key := by simpa [cleared, hhit] using hkey
    rw [named_other hg hh hne hkey, named_other hg hh hne hcleared]

theorem map_cleared_other (hn : Named h mode value hv) {g : Handler} (hg : g ∈ handlers b ht)
    (hh : h ∈ handlers b ht) (hne : g ≠ h) (l : List Elt) :
    (l.map (cleared hv)).map (named g.name) = l.map (named g.name) := by
  rw [List.map_map]
  apply List.map_congr_left
  intro e _
  exact cleared_other hn hg hh hne e

/-- A SET that finds several elements clears them all, the one it wrote included. -/
theorem link_twice (hh : h ∈ multiHandlers b ht) (hn : Named h .set value hv)
    (hs : ∀ g ∈ multiHandlers b ht, g ≠ h → Coherent s g) {a c : List Elt} {e : Elt}
    (hl : s.headers.list.elts = a ++ e :: c) (ha : ∀ x ∈ a, hv.hits x = false)
    (he : hv.hits e = true) (hc : ∃ x ∈ c, hv.hits x = true)
    (hhead : s.headers.builtin h.offset = none)
    (hsame : places (found h.name) s.headers.list.elts =
      places (named h.name) s.headers.list.elts) :
    ∃ rc s', linkHelper pool h.offset hv s = .ok (rc, s') ∧ AllCoherent b ht s' := by
  have hhash : hv.hash ≠ 0 := by
    rw [hn.hash]
    exact handlers_hash (multi_mem hh)
  have hself : hv.hits hv.elt = true := (hn.hits_iff hv.elt).mpr ⟨hn.hash, hn.same⟩
  obtain ⟨list, hset, helts⟩ := helper_twice pool hv s.headers.list hn.mode hhash hself hl ha he hc
  have hnamed := cleared_named hn hsame
  rw [hl] at hnamed
  apply link_cleared hh hs hset hhead
  · simp [helts, hl]
  · intro x hx
    rw [helts, List.mem_append, List.mem_cons, List.mem_map] at hx
    rcases hx with hx | rfl | ⟨y, hy, rfl⟩
    · have hid : cleared hv x = x := by simp [cleared, ha x hx]
      rw [← hid]
      exact hnamed x (List.mem_append_left _ hx)
    · rfl
    · exact hnamed y (List.mem_append_right _ (List.mem_cons_of_mem _ hy))
  · intro g hg hne
    have hkey := ((hn.hits_iff e).mp he).2
    have hold := named_other hg (multi_mem hh) hne hkey
    have hnew := elt_other hn hg (multi_mem hh) hne 0
    rw [helts, hl, List.map_append, List.map_append, List.map_cons, List.map_cons,
      map_cleared_other hn hg (multi_mem hh) hne, hold, hnew]

end

/-! ### Runs -/

/-- An operation on a multi-valued header of the table. -/
structure Op (b : Build) (ht : HType) where
  handler : Handler
  multi : handler ∈ multiHandlers b ht
  pool : Pool
  key : Bytes
  change : Change
  same : SameKey handler.name key

def step (b : Build) (ht : HType) (s : Chained) (op : Op b ht) : Chained × Except Fault Rc :=
  match setChained b ht op.pool false op.key op.change.value op.change.mode s with
  | .error fault => (s, .error fault)
  | .ok (rc, s) => (s, .ok rc)

/-- What keeps the chains, `live` being the places of the live elements of the name and
`own` those a search finds: beside the memory of a new element's lower-cased key, the
request needs the two to be the same where they are replaced or removed, and one to
remove; the response takes a SET that finds nothing or only the last live element, and
no removal at all. -/
def Keeping (pool : Pool) (own live : List ℕ) : HType → Change → Prop
  | _, .add _ => Whole pool
  | .request, .replace _ => own = live ∧ (own = [] → Whole pool)
  | .request, .remove => own = live ∧ own ≠ []
  | .response, .replace _ => (∀ i ∈ own, live.getLast? = some i) ∧ (own = [] → Whole pool)
  | .response, .remove => False

def Keeps (b : Build) (ht : HType) (s : Chained) (op : Op b ht) : Prop :=
  copyValue op.pool op.change.value = none ∨
    Keeping op.pool (places (found op.handler.name) s.headers.list.elts)
      (places (named op.handler.name) s.headers.list.elts) ht op.change

section
variable {b : Build} {h : Handler} {pool : Pool} {hv : HeaderSet} {s : Chained} {value : Bytes}

theorem own_nil {mode : Mode} {value : Option Bytes} (hn : Named h mode value hv)
    (hmiss : ∀ e ∈ s.headers.list.elts, hv.hits e = false) :
    places (found h.name) s.headers.list.elts = [] := by
  rw [found_hits hn]
  exact places_miss hmiss

theorem add_step {ht : HType} (hh : h ∈ multiHandlers b ht) (hn : Named h .append (some value) hv)
    (hs : AllCoherent b ht s) (hwhole : Whole pool) :
    ∃ rc s', linkHelper pool h.offset hv s = .ok (rc, s') ∧ AllCoherent b ht s' :=
  link_new hh hn hs hwhole (helper_append pool hv _ hn.mode)

/-- `*headers = NULL` before the search. -/
def unheaded (offset : Field) (s : Chained) : Chained :=
  { s with headers := { s.headers with builtin := Function.update s.headers.builtin offset none } }

theorem unheaded_others {ht : HType} (hh : h ∈ multiHandlers b ht) (hs : AllCoherent b ht s) :
    ∀ g ∈ multiHandlers b ht, g ≠ h → Coherent (unheaded h.offset s) g := by
  intro g hg hne
  have hpointer : (unheaded h.offset s).headers.builtin g.offset = s.headers.builtin g.offset :=
    Function.update_of_ne (multi_offset hg hh hne) ..
  rw [Coherent, hpointer]
  exact hs g hg

theorem unheaded_head : (unheaded h.offset s).headers.builtin h.offset = none :=
  Function.update_self ..

theorem req_replace (hh : h ∈ multiHandlers b .request) (hn : Named h .set (some value) hv)
    (hs : AllCoherent b .request s)
    (hsame : places (found h.name) s.headers.list.elts = places (named h.name) s.headers.list.elts)
    (hwhole : places (found h.name) s.headers.list.elts = [] → Whole pool) :
    ∃ rc s', linkHelper pool h.offset hv (unheaded h.offset s) = .ok (rc, s') ∧
      AllCoherent b .request s' := by
  have hothers := unheaded_others hh hs
  rcases split_at_hit hv s.headers.list.elts with hmiss | ⟨a, e, c, hl, ha, he⟩
  · have hnil := own_nil hn hmiss
    refine link_new hh hn ?_ (hwhole hnil) (helper_new pool hv _ hn.mode hmiss)
    intro g hg
    by_cases hne : g = h
    · subst hne
      rw [Coherent, unheaded_head]
      show Seg _ none (places (named g.name) s.headers.list.elts) none
      rw [← hsame, hnil]
      rfl
    · exact hothers g hg hne
  · by_cases hc : ∃ x ∈ c, hv.hits x = true
    · exact link_twice (s := unheaded h.offset s) hh hn hothers hl ha he hc unheaded_head hsame
    · have hc' : ∀ x ∈ c, hv.hits x = false := by
        intro x hx
        cases hhit : hv.hits x with
        | false => rfl
        | true => exact absurd ⟨x, hx, hhit⟩ hc
      have hone : places (found h.name) s.headers.list.elts = [a.length] := by
        rw [found_hits hn, hl]
        exact places_at ha he hc'
      refine @link_update _ _ _ _ _ (unheaded h.offset s) _ _ hh hn hothers _ _ _ hl he []
        (helper_update pool hv _ hn.mode hl ha he hc') unheaded_head
        (fun x hx => absurd hx List.not_mem_nil) (fun hx => absurd hx List.not_mem_nil) ?_
      show places (named h.name) s.headers.list.elts = _
      rw [← hsame, hone]
      rfl

theorem req_remove (hh : h ∈ multiHandlers b .request) (hn : Named h .remove none hv)
    (hs : AllCoherent b .request s)
    (hsame : places (found h.name) s.headers.list.elts = places (named h.name) s.headers.list.elts)
    (hown : places (found h.name) s.headers.list.elts ≠ []) :
    ∃ rc s', linkHelper pool h.offset hv (unheaded h.offset s) = .ok (rc, s') ∧
      AllCoherent b .request s' := by
  have hhash : hv.hash ≠ 0 := by
    rw [hn.hash]
    exact handlers_hash (multi_mem hh)
  have hany : s.headers.list.elts.any hv.hits = true := by
    cases hany : s.headers.list.elts.any hv.hits with
    | true => rfl
    | false =>
      have hmiss : ∀ e ∈ s.headers.list.elts, hv.hits e = false := by simpa using hany
      exact absurd (own_nil hn hmiss) hown
  obtain ⟨list, hset, helts⟩ := helper_remove pool hv s.headers.list hn.mode hhash
  rw [hany, if_pos rfl] at hset
  refine link_cleared (s := unheaded h.offset s) hh (unheaded_others hh hs) hset unheaded_head
    ?_ ?_ ?_
  · rw [helts, List.length_map]
    rfl
  · intro x hx
    rw [helts] at hx
    obtain ⟨e, he, rfl⟩ := List.mem_map.mp hx
    exact cleared_named hn hsame e he
  · intro g hg hne
    rw [helts]
    exact map_cleared_other hn hg (multi_mem hh) hne _

theorem resp_replace (hh : h ∈ multiHandlers b .response) (hn : Named h .set (some value) hv)
    (hs : AllCoherent b .response s)
    (hlast : ∀ i ∈ places (found h.name) s.headers.list.elts,
      (places (named h.name) s.headers.list.elts).getLast? = some i)
    (hwhole : places (found h.name) s.headers.list.elts = [] → Whole pool) :
    ∃ rc s', linkHelper pool h.offset hv s = .ok (rc, s') ∧ AllCoherent b .response s' := by
  rcases split_at_hit hv s.headers.list.elts with hmiss | ⟨a, e, c, hl, ha, he⟩
  · exact link_new hh hn hs (hwhole (own_nil hn hmiss))
      (helper_new pool hv _ hn.mode hmiss)
  · have hown : ∀ i x, s.headers.list.elts[i]? = some x → hv.hits x = true →
        (places (named h.name) s.headers.list.elts).getLast? = some i := by
      intro i x hi hx
      apply hlast
      rw [found_hits hn]
      exact mem_places.mpr ⟨x, hi, hx⟩
    have hat : s.headers.list.elts[a.length]? = some e := by simp [hl]
    have hc : ∀ x ∈ c, hv.hits x = false := by
      intro x hx
      cases hhit : hv.hits x with
      | false => rfl
      | true =>
        obtain ⟨k, hk⟩ := List.mem_iff_getElem?.mp hx
        have hi : s.headers.list.elts[a.length + 1 + k]? = some x := by
          rw [hl, List.getElem?_append_right (by omega)]
          rw [show a.length + 1 + k - a.length = k + 1 by omega]
          simpa using hk
        have heq := (hown _ x hi hhit).symm.trans (hown _ e hat he)
        have := Option.some.inj heq
        omega
    have hmem : a.length ∈ places (named h.name) s.headers.list.elts :=
      mem_places.mpr ⟨e, hat, hn.hits_named (multi_mem hh) he⟩
    refine link_update hh hn
      (fun g hg _ => hs g hg) hl he (helper_update pool hv _ hn.mode hl ha he hc) (hs h hh)
      (fun x hx => hx) (fun _ => hown _ e hat he) ?_
    rw [linked, if_pos hmem]

end

theorem chained_step (b : Build) (ht : HType) {s : Chained} (op : Op b ht)
    (hs : AllCoherent b ht s) (hkeeps : Keeps b ht s op) :
    ∃ rc, (step b ht s op).2 = .ok rc ∧ AllCoherent b ht (step b ht s op).1 := by
  have hout : ∀ {r}, setChained b ht op.pool false op.key op.change.value op.change.mode s = r →
      (∃ rc s', r = .ok (rc, s') ∧ AllCoherent b ht s') →
      ∃ rc, (step b ht s op).2 = .ok rc ∧ AllCoherent b ht (step b ht s op).1 := by
    intro r hset ⟨rc, s', hr, hall⟩
    refine ⟨rc, ?_, ?_⟩
    · rw [step, hset, hr]
    · rw [step, hset, hr]
      exact hall
  have hh := op.multi
  have hmem := multi_mem hh
  have hset := multi_setter hh
  cases hp : prepare op.pool (handlers b ht) op.key op.change.value op.change.mode with
  | none =>
    refine hout (r := .ok (.error, s)) ?_ ⟨.error, s, rfl, hs⟩
    rw [setChained, hp]
  | some r =>
    obtain ⟨g, hv⟩ := r
    obtain ⟨rfl, hn⟩ := prepare_hands hmem op.same hp
    have hvalue : copyValue op.pool op.change.value ≠ none := by
      intro hc
      rw [(prepare_none_iff hmem op.same).mpr hc] at hp
      cases hp
    have hkeeps := hkeeps.resolve_left hvalue
    cases ht with
    | request =>
      have hcall : setChained b .request op.pool false op.key op.change.value op.change.mode s =
          reqMultiHandler op.pool op.handler.offset hv s := by
        simp only [setChained, hp, hset, multiSetter]
      refine hout hcall ?_
      rw [reqMultiHandler]
      cases hc : op.change with
      | add value =>
        rw [hc] at hn hkeeps
        rw [if_neg (by simp [hn.mode, Change.mode])]
        exact add_step hh hn hs hkeeps
      | replace value =>
        rw [hc] at hn hkeeps
        rw [if_pos (.inl hn.mode)]
        exact req_replace hh hn hs hkeeps.1 hkeeps.2
      | remove =>
        rw [hc] at hn hkeeps
        rw [if_pos (.inr hn.mode)]
        exact req_remove hh hn hs hkeeps.1 hkeeps.2
    | response =>
      have hcall : setChained b .response op.pool false op.key op.change.value op.change.mode s =
          respMultiHandler op.pool op.handler.offset hv s := by
        simp only [setChained, hp, hset, multiSetter]
      refine hout hcall ?_
      rw [respMultiHandler]
      cases hc : op.change with
      | add value =>
        rw [hc] at hn hkeeps
        exact add_step hh hn hs hkeeps
      | replace value =>
        rw [hc] at hn hkeeps
        exact resp_replace hh hn hs hkeeps.1 hkeeps.2
      | remove =>
        rw [hc] at hkeeps
        exact absurd hkeeps id

/-- In a run that stays inside the condition every operation returns, and after each of
them every chain is the live elements of its name. -/
theorem chains_coherent (b : Build) (ht : HType) (ops : List (Op b ht)) (s : Chained)
    (hs : AllCoherent b ht s) (hm : Meets (step b ht) (Keeps b ht) s ops) :
    AllCoherent b ht (exec (step b ht) s ops).1 ∧
      ∀ out ∈ (exec (step b ht) s ops).2, ∃ rc, out = .ok rc := by
  constructor
  · apply exec_invariant (step b ht) (Keeps b ht) (AllCoherent b ht) ?_ ops s hs hm
    intro s op hs hk
    obtain ⟨_, _, hall⟩ := chained_step b ht op hs hk
    exact hall
  · rw [forall_outputs_iff]
    apply meets_mono_inv (step b ht) (P := AllCoherent b ht) ?_ ?_ ops s hs hm
    · intro s op hs hk
      obtain ⟨rc, hrc, _⟩ := chained_step b ht op hs hk
      exact ⟨rc, hrc⟩
    · intro s op hs hk
      obtain ⟨_, _, hall⟩ := chained_step b ht op hs hk
      exact hall

/-! ### A response with one Cache-Control -/

def cacheControl : Handler := handler "Cache-Control" .cacheControl .respMulti

theorem multi_response : multiHandlers fullBuild .response =
    [cacheControl, handler "Link" .link .respMulti] := by
  decide

theorem cacheControl_multi : cacheControl ∈ multiHandlers fullBuild .response := by
  rw [multi_response]
  exact List.mem_cons_self ..

def oneCacheControl : Chained where
  headers := ⟨⟨[⟨hashKeyLc cacheControl.name, cacheControl.name, ascii "no-store"⟩], [], pushed_nil⟩,
    fun f => if f = .cacheControl then some 0 else none, []⟩
  next := fun _ => none

def onCacheControl (change : Change) : Op fullBuild .response :=
  ⟨cacheControl, cacheControl_multi, roomy, cacheControl.name, change, rfl⟩

theorem oneCacheControl_places (p : Bytes → Elt → Bool) (hp : p = named ∨ p = found) :
    places (p cacheControl.name) oneCacheControl.headers.list.elts = [0] := by
  rcases hp with rfl | rfl
  · decide
  · decide

theorem oneCacheControl_coherent : AllCoherent fullBuild .response oneCacheControl := by
  intro h hh
  rw [multi_response] at hh
  simp only [List.mem_cons, List.not_mem_nil, or_false] at hh
  rcases hh with rfl | rfl
  · rw [Coherent, oneCacheControl_places named (.inl rfl)]
    exact ⟨rfl, rfl⟩
  · have hnil : places (named (handler "Link" .link .respMulti).name)
        oneCacheControl.headers.list.elts = [] := by
      decide
    rw [Coherent, hnil]
    rfl

theorem chains_coherent_replaced :
    AllCoherent fullBuild .response (exec (step fullBuild .response) oneCacheControl
        [onCacheControl (.replace (ascii "private"))]).1 ∧
      ∀ out ∈ (exec (step fullBuild .response) oneCacheControl
        [onCacheControl (.replace (ascii "private"))]).2, ∃ rc, out = .ok rc := by
  refine chains_coherent fullBuild .response [onCacheControl (.replace (ascii "private"))]
    oneCacheControl oneCacheControl_coherent ⟨.inr ?_, trivial⟩
  show Keeping roomy (places (found cacheControl.name) _) (places (named cacheControl.name) _) _ _
  rw [oneCacheControl_places found (.inr rfl), oneCacheControl_places named (.inl rfl)]
  constructor
  · intro i hi
    rw [List.mem_singleton.mp hi]
    rfl
  · intro h
    cases h

/-- The removal is answered with `NGX_OK` and the pointer stays at the dead element. -/
theorem removed_cache_control_stays_chained :
    ¬ ∀ (ops : List (Op fullBuild .response)) (s : Chained), AllCoherent fullBuild .response s →
      (∀ out ∈ (exec (step fullBuild .response) s ops).2, out = .ok .ok) →
        AllCoherent fullBuild .response (exec (step fullBuild .response) s ops).1 := by
  intro h
  have hout : ∀ out ∈ (exec (step fullBuild .response) oneCacheControl
      [onCacheControl .remove]).2, out = .ok .ok := by
    intro out hmem
    have hone : (exec (step fullBuild .response) oneCacheControl [onCacheControl .remove]).2 =
        [.ok .ok] := by
      rfl
    rw [hone] at hmem
    exact List.mem_singleton.mp hmem
  have hchain := h [onCacheControl .remove] oneCacheControl oneCacheControl_coherent hout
    cacheControl cacheControl_multi
  have hnil : places (named cacheControl.name) (exec (step fullBuild .response) oneCacheControl
      [onCacheControl .remove]).1.headers.list.elts = [] := by
    decide
  have hhead : (exec (step fullBuild .response) oneCacheControl
      [onCacheControl .remove]).1.headers.builtin cacheControl.offset = some 0 := by
    decide
  rw [Coherent, hnil, hhead] at hchain
  cases hchain

end NgxWasm.Http.MultiHeaders
