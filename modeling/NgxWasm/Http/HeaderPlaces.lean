import NgxWasm.Http.HeaderNames
import NgxWasm.Http.HeaderRemoval

/-!
# Where a header that is set goes

A SET that returns `NGX_OK` writes over an element of the list, the one at the builtin
pointer or the one the search finds, or over the element it pushed.
-/

namespace NgxWasm.Http.HeaderPlaces

open NgxWasm NgxWasm.ProxyWasm.Pairs NgxWasm.Http.Headers NgxWasm.Http.HeaderSet
open NgxWasm.Http.HeaderRemoval

/-! ### One element of a list -/

section
variable {α : Type}

def put (i : ℕ) (e : α) (l : List α) : List α := if i < l.length then l.set i e else l ++ [e]

theorem put_length_eq (e : α) (l : List α) : put l.length e l = l ++ [e] := by
  rw [put, if_neg (Nat.lt_irrefl _)]

theorem put_lt {i : ℕ} {l : List α} (h : i < l.length) (e : α) : put i e l = l.set i e := by
  rw [put, if_pos h]

theorem put_self {i : ℕ} {l : List α} (h : i ≤ l.length) (e : α) : (put i e l)[i]? = some e := by
  rcases Nat.lt_or_eq_of_le h with hlt | rfl
  · rw [put_lt hlt, List.getElem?_set_self hlt]
  · rw [put_length_eq, List.getElem?_append_right (Nat.le_refl _), Nat.sub_self]
    rfl

theorem put_ne {i j : ℕ} {l : List α} (h : i ≤ l.length) (hne : i ≠ j) (e : α) :
    (put i e l)[j]? = l[j]? := by
  rcases Nat.lt_or_eq_of_le h with hlt | rfl
  · rw [put_lt hlt, List.getElem?_set_ne hne]
  · rw [put_length_eq]
    rcases Nat.lt_or_ge j l.length with hj | hj
    · rw [List.getElem?_append_left hj]
    · rw [List.getElem?_append_right hj, List.getElem?_eq_none hj,
        List.getElem?_eq_none (by simp only [List.length_singleton]; omega)]

theorem put_length_ge {i : ℕ} (l : List α) (e : α) : l.length ≤ (put i e l).length := by
  unfold put
  split
  · rw [List.length_set]
  · rw [List.length_append]
    omega

theorem put_range {i : ℕ} {l : List α} (h : i ≤ l.length) (e : α) : i < (put i e l).length := by
  have hself := put_self h e
  exact (List.getElem?_eq_some_iff.mp hself).1

/-- An element that is not taken, in the place of one that is not taken either. -/
theorem filter_put_miss {p : α → Bool} {i : ℕ} {l : List α} {e : α} (hi : i ≤ l.length)
    (hp : p e = false) (hold : ∀ x, l[i]? = some x → p x = false) :
    (put i e l).filter p = l.filter p := by
  rcases Nat.lt_or_eq_of_le hi with hlt | rfl
  · have hx := hold _ (List.getElem?_eq_getElem hlt)
    rw [put_lt hlt, List.set_eq_take_append_cons_drop, if_pos hlt, List.filter_append,
      List.filter_cons_of_neg (by simp [hp])]
    conv_rhs => rw [← List.take_append_drop i l, List.drop_eq_getElem_cons hlt]
    rw [List.filter_append, List.filter_cons_of_neg (by simp [hx])]
  · rw [put_length_eq, List.filter_append, List.filter_cons_of_neg (by simp [hp])]
    exact List.append_nil _

/-- An element that is taken, in the only place of one. -/
theorem filter_put_hit {p : α → Bool} {i : ℕ} {l : List α} {e : α} (hi : i ≤ l.length)
    (hp : p e = true) (hold : ∀ j x, l[j]? = some x → p x = true → j = i) :
    (put i e l).filter p = [e] := by
  have htake : (l.take i).filter p = [] := by
    rw [List.filter_eq_nil_iff]
    intro x hx hpx
    obtain ⟨j, hj⟩ := List.mem_iff_getElem?.mp hx
    obtain ⟨hlt, _⟩ := List.getElem?_eq_some_iff.mp hj
    rw [List.length_take] at hlt
    rw [List.getElem?_take_of_lt (by omega)] at hj
    have hji := hold j x hj hpx
    omega
  have hdrop : (l.drop (i + 1)).filter p = [] := by
    rw [List.filter_eq_nil_iff]
    intro x hx hpx
    obtain ⟨j, hj⟩ := List.mem_iff_getElem?.mp hx
    rw [List.getElem?_drop] at hj
    have hji := hold (i + 1 + j) x hj hpx
    omega
  rcases Nat.lt_or_eq_of_le hi with hlt | rfl
  · rw [put_lt hlt, List.set_eq_take_append_cons_drop, if_pos hlt, List.filter_append, htake,
      List.filter_cons_of_pos hp, hdrop]
    rfl
  · rw [List.take_length] at htake
    rw [put_length_eq, List.filter_append, htake, List.filter_cons_of_pos hp]
    rfl

end

/-! ### The search -/

/-- The place the search comes to: the element there is the only one it stops at, or
there is none and the place is behind the list. -/
structure Found (hv : HeaderSet) (l : List Elt) (i : ℕ) : Prop where
  range : i ≤ l.length
  hit : ∀ e, l[i]? = some e → hv.hits e = true
  only : ∀ j e, l[j]? = some e → hv.hits e = true → j = i

theorem helper_rc {pool : Pool} {hv : HeaderSet} {list list' : HeaderList}
    {out : Option (Option ℕ)} {rc : Rc} (h : setHeaderHelper pool hv list = .ok (rc, list', out)) :
    rc = .ok ∨ rc = .error := by
  have hnew : ∀ {l : HeaderList}, newHeader pool hv l = (rc, list', out) → rc = .ok ∨ rc = .error := by
    intro l hl
    rw [newHeader] at hl
    split at hl
    · split at hl
      · exact .inl (Prod.mk.inj hl).1.symm
      · exact .inr (Prod.mk.inj hl).1.symm
    · exact .inr (Prod.mk.inj hl).1.symm
  rw [setHeaderHelper] at h
  split at h
  · exact hnew (Except.ok.inj h)
  · split at h
    · cases h
    · split at h
      · exact .inl (Prod.mk.inj (Except.ok.inj h)).1.symm
      · exact hnew (Except.ok.inj h)

/-- Behind the only element of the search there is no other. -/
theorem hits_once {hv : HeaderSet} {l a b : List Elt} {e : Elt}
    (hfew : (l.filter hv.hits).length ≤ 1) (hl : l = a ++ e :: b) (he : hv.hits e = true) :
    ∀ x ∈ b, hv.hits x = false := by
  have hnone : (b.filter hv.hits).length = 0 := by
    rw [hl, List.filter_append, List.filter_cons_of_pos he, List.length_append,
      List.length_cons] at hfew
    omega
  intro x hx
  have hnil := List.length_eq_zero_iff.mp hnone
  simpa using List.filter_eq_nil_iff.mp hnil x hx

theorem helper_place {pool : Pool} {hv : HeaderSet} {list list' : HeaderList}
    {out : Option (Option ℕ)} (hmode : hv.mode = .set)
    (hfew : (list.elts.filter hv.hits).length ≤ 1)
    (h : setHeaderHelper pool hv list = .ok (.ok, list', out)) :
    ∃ i, Found hv list.elts i ∧ out = some (some i) ∧ list'.elts = put i hv.elt list.elts := by
  rcases split_at_hit hv list.elts with hmiss | ⟨a, e, b, hl, ha, he⟩
  · rw [helper_new pool hv list hmode hmiss] at h
    obtain ⟨hlist, hout⟩ := newHeader_elts (Except.ok.inj h)
    refine ⟨list.elts.length, ⟨Nat.le_refl _, ?_, ?_⟩, hout, ?_⟩
    · intro x hx
      rw [List.getElem?_eq_none (Nat.le_refl _)] at hx
      cases hx
    · intro j x hx hhit
      rw [hmiss x (List.mem_of_getElem? hx)] at hhit
      cases hhit
    · rw [hlist, put_length_eq]
  · have hb := hits_once hfew hl he
    rw [helper_update pool hv list hmode hl ha he hb] at h
    simp only [Except.ok.injEq, Prod.mk.injEq, true_and] at h
    obtain ⟨hlist, hout⟩ := h
    have hlt : a.length < list.elts.length := by
      rw [hl, List.length_append, List.length_cons]
      omega
    have hat : list.elts[a.length]? = some e := by
      rw [hl, List.getElem?_append_right (Nat.le_refl _), Nat.sub_self]
      rfl
    refine ⟨a.length, ⟨Nat.le_of_lt hlt, ?_, ?_⟩, hout.symm, ?_⟩
    · intro x hx
      rw [hat] at hx
      rw [← Option.some.inj hx]
      exact he
    · intro j x hx hhit
      rw [hl] at hx
      rcases Nat.lt_trichotomy j a.length with hj | hj | hj
      · rw [List.getElem?_append_left hj] at hx
        rw [ha x (List.mem_of_getElem? hx)] at hhit
        cases hhit
      · exact hj
      · obtain ⟨k, rfl⟩ : ∃ k, j = a.length + 1 + k := ⟨j - (a.length + 1), by omega⟩
        rw [List.getElem?_append_right (by omega)] at hx
        rw [show a.length + 1 + k - a.length = k + 1 by omega, List.getElem?_cons_succ] at hx
        rw [hb x (List.mem_of_getElem? hx)] at hhit
        cases hhit
    · rw [← hlist, HeaderList.assign_elts, put_lt hlt]

/-! ### The handlers -/

/-- Handlers that put what they set into the list. -/
def enters (select : Bool) (setter : Setter) : Bool := listed setter || pointed select setter

/-- The pointer a handler sets by. -/
def held (select : Bool) (h : Handler) (s : HeaderMap) : Option ℕ :=
  if pointed select h.setter then s.builtin h.offset else none

structure Written (select : Bool) (h : Handler) (hv : HeaderSet) (s s' : HeaderMap) (i : ℕ) :
    Prop where
  place : held select h s = some i ∨ held select h s = none ∧ Found hv s.list.elts i
  range : i ≤ s.list.elts.length
  elts : s'.list.elts = put i hv.elt s.list.elts
  contentType : s'.contentType = s.contentType
  builtin : s'.builtin = s.builtin ∧ held select h s' = none ∨
    pointed select h.setter = true ∧
      ∃ p, (p = some i ∨ p = none) ∧ s'.builtin = Function.update s.builtin h.offset p

section
variable {pool : Pool} {select : Bool} {h : Handler} {hv : HeaderSet} {s s' : HeaderMap}

theorem setBuiltin_place (hmode : hv.mode = .set)
    (hin : ∀ i, s.builtin h.offset = some i → i < s.list.elts.length)
    (hfew : s.builtin h.offset = none → (s.list.elts.filter hv.hits).length ≤ 1)
    (hok : setBuiltinHeader pool h.offset hv s = .ok (.ok, s')) :
    ∃ i, (s.builtin h.offset = some i ∨ s.builtin h.offset = none ∧ Found hv s.list.elts i) ∧
      i ≤ s.list.elts.length ∧ s'.list.elts = put i hv.elt s.list.elts ∧
      s'.contentType = s.contentType ∧
      s'.builtin = Function.update s.builtin h.offset (some i) := by
  rw [setBuiltinHeader, hmode] at hok
  cases hb : s.builtin h.offset with
  | none =>
    rw [hb] at hok
    dsimp only at hok
    cases hhelper : setHeaderHelper pool hv s.list with
    | error fault =>
      rw [hhelper] at hok
      cases hok
    | ok r =>
      obtain ⟨rc, list, out⟩ := r
      rw [hhelper] at hok
      simp only [Except.ok.injEq, Prod.mk.injEq] at hok
      obtain ⟨rfl, rfl⟩ := hok
      obtain ⟨i, hfound, rfl, hlist⟩ := helper_place hmode (hfew hb) hhelper
      exact ⟨i, .inr ⟨rfl, hfound⟩, hfound.range, hlist, rfl, rfl⟩
  | some i =>
    rw [hb] at hok
    simp only [Except.ok.injEq, Prod.mk.injEq, true_and] at hok
    have hlt := hin i hb
    rw [← hok]
    refine ⟨i, .inl rfl, Nat.le_of_lt hlt, ?_, rfl, ?_⟩
    · rw [HeaderList.assign_elts, put_lt hlt]
    · exact (Function.update_eq_self_iff.mpr hb.symm).symm

theorem header_called (hok : setHeaderHandler pool hv s = .ok (.ok, s')) :
    ∃ list out, setHeaderHelper pool hv s.list = .ok (.ok, list, out) ∧
      s' = { s with list := list } := by
  rw [setHeaderHandler] at hok
  cases hhelper : setHeaderHelper pool hv s.list with
  | error fault =>
    rw [hhelper] at hok
    cases hok
  | ok r =>
    obtain ⟨rc, list, out⟩ := r
    rw [hhelper] at hok
    simp only [Except.ok.injEq, Prod.mk.injEq] at hok
    obtain ⟨rfl, rfl⟩ := hok
    exact ⟨list, out, rfl, rfl⟩

theorem multi_called (hok : setMultiHeader pool hv s = .ok (.ok, s')) :
    ∃ list out, setHeaderHelper pool hv s.list = .ok (.ok, list, out) ∧
      s' = { s with list := list } := by
  rw [setMultiHeader] at hok
  cases hhelper : setHeaderHelper pool hv s.list with
  | error fault =>
    rw [hhelper] at hok
    cases hok
  | ok r =>
    obtain ⟨rc, list, out⟩ := r
    rw [hhelper] at hok
    rcases helper_rc hhelper with rfl | rfl
    · cases out with
      | none => cases hok
      | some out =>
        simp only [Except.ok.injEq, Prod.mk.injEq, true_and] at hok
        exact ⟨list, some out, rfl, hok.symm⟩
    · simp at hok

theorem listed_place (hmode : hv.mode = .set) (hlisted : listed h.setter = true)
    (hfew : (s.list.elts.filter hv.hits).length ≤ 1)
    (hok : handle pool select h hv s = .ok (.ok, s')) :
    ∃ i, Found hv s.list.elts i ∧ s'.list.elts = put i hv.elt s.list.elts ∧
      s'.contentType = s.contentType ∧ s'.builtin = s.builtin := by
  have hcall : ∃ list out, setHeaderHelper pool hv s.list = .ok (.ok, list, out) ∧
      s' = { s with list := list } := by
    cases hset : h.setter <;> rw [hset] at hlisted <;> try cases hlisted
    · rw [handle, hset] at hok
      exact header_called hok
    · rw [handle, hset] at hok
      exact multi_called hok
    · rw [handle, hset] at hok
      exact multi_called hok
  obtain ⟨list, out, hhelper, rfl⟩ := hcall
  obtain ⟨i, hfound, _, hlist⟩ := helper_place hmode hfew hhelper
  exact ⟨i, hfound, hlist, rfl, rfl⟩

/-- The handlers with a pointer call the builtin handler; the one of Location may drop the
pointer after it. -/
theorem pointed_called (hmode : hv.mode = .set) (hpointed : pointed select h.setter = true)
    (hok : handle pool select h hv s = .ok (.ok, s')) :
    ∃ s₁, setBuiltinHeader pool h.offset hv s = .ok (.ok, s₁) ∧
      (s' = s₁ ∨ s' = { s₁ with builtin := Function.update s₁.builtin h.offset none }) := by
  cases hset : h.setter <;> rw [hset] at hpointed <;> try cases hpointed
  all_goals
    rw [handle, hset] at hok
    dsimp only at hok
  case builtin => exact ⟨s', hok, .inl rfl⟩
  case host =>
    cases select with
    | true => cases hpointed
    | false => exact ⟨s', hok, .inl rfl⟩
  case reqConnection => exact ⟨s', hok, .inl rfl⟩
  case userAgent => exact ⟨s', hok, .inl rfl⟩
  case reqContentLength =>
    simp only [setReqContentLength, hmode, reduceCtorEq, if_false] at hok
    split at hok
    · split at hok
      · cases hok
      · exact ⟨s', hok, .inl rfl⟩
    · exact ⟨s', hok, .inl rfl⟩
  case location =>
    rw [setLocationHeader] at hok
    split at hok
    · next s₁ hbuiltin =>
      refine ⟨s₁, hbuiltin, ?_⟩
      split at hok
      · split at hok
        · exact .inr (Prod.mk.inj (Except.ok.inj hok)).2.symm
        · exact .inl (Prod.mk.inj (Except.ok.inj hok)).2.symm
      · exact .inl (Prod.mk.inj (Except.ok.inj hok)).2.symm
    · exact ⟨s', hok, .inl rfl⟩
  case lastModified =>
    rw [setLastModified, hmode] at hok
    exact ⟨s', hok, .inl rfl⟩
  case respContentLength =>
    rw [setRespContentLength, hmode] at hok
    simp only [reduceCtorEq, if_false] at hok
    split at hok
    · cases hok
    · exact ⟨s', hok, .inl rfl⟩

theorem not_pointed {setter : Setter} (h : listed setter = true) : pointed select setter = false := by
  cases setter <;> first | rfl | cases h

theorem handle_place (hmode : hv.mode = .set) (henters : enters select h.setter = true)
    (hin : ∀ i, held select h s = some i → i < s.list.elts.length)
    (hfew : held select h s = none → (s.list.elts.filter hv.hits).length ≤ 1)
    (hok : handle pool select h hv s = .ok (.ok, s')) : ∃ i, Written select h hv s s' i := by
  cases hp : pointed select h.setter with
  | false =>
    have hlisted : listed h.setter = true := by
      simpa only [enters, hp, Bool.or_false] using henters
    have hheld : ∀ t, held select h t = none := by
      intro t
      rw [held, hp]
      rfl
    obtain ⟨i, hfound, helts, htype, hbuiltin⟩ := listed_place hmode hlisted (hfew (hheld s)) hok
    exact ⟨i, .inr ⟨hheld s, hfound⟩, hfound.range, helts, htype, .inl ⟨hbuiltin, hheld s'⟩⟩
  | true =>
    have hheld : ∀ t, held select h t = t.builtin h.offset := by
      intro t
      rw [held, hp]
      rfl
    rw [hheld] at hin hfew
    obtain ⟨s₁, hcall, hs'⟩ := pointed_called hmode hp hok
    obtain ⟨i, hplace, hrange, helts, htype, hbuiltin⟩ := setBuiltin_place hmode hin hfew hcall
    rw [← hheld s] at hplace
    rcases hs' with rfl | rfl
    · exact ⟨i, hplace, hrange, helts, htype, .inr ⟨hp, some i, .inl rfl, hbuiltin⟩⟩
    · refine ⟨i, hplace, hrange, helts, htype, .inr ⟨hp, none, .inr rfl, ?_⟩⟩
      show Function.update s₁.builtin h.offset none = _
      rw [hbuiltin, Function.update_idem]

/-! ### A SET that is granted its memory -/

theorem helper_returns (hroom : Roomy pool) (list : HeaderList) (hmode : hv.mode = .set)
    (hfew : (list.elts.filter hv.hits).length ≤ 1) :
    ∃ list' i, setHeaderHelper pool hv list = .ok (.ok, list', some (some i)) := by
  rcases split_at_hit hv list.elts with hmiss | ⟨a, e, b, hl, ha, he⟩
  · rw [helper_new pool hv list hmode hmiss, newHeader_roomy hroom]
    exact ⟨_, _, rfl⟩
  · rw [helper_update pool hv list hmode hl ha he (hits_once hfew hl he)]
    exact ⟨_, _, rfl⟩

theorem builtin_returns (hroom : Roomy pool) (offset : Field) (hmode : hv.mode = .set)
    (hfew : s.builtin offset = none → (s.list.elts.filter hv.hits).length ≤ 1) :
    ∃ s', setBuiltinHeader pool offset hv s = .ok (.ok, s') := by
  rw [setBuiltinHeader, hmode]
  cases hb : s.builtin offset with
  | none =>
    obtain ⟨list, i, hhelper⟩ := helper_returns hroom s.list hmode (hfew hb)
    dsimp only
    rw [hhelper]
    exact ⟨_, rfl⟩
  | some i => exact ⟨_, rfl⟩

/-- The values that the handlers which put them into the list take. -/
def accepts (h : Handler) (value : Bytes) : Bool :=
  match h.setter with
  | .reqContentLength => value.isEmpty || (atoof value).isSome
  | .respContentLength => (atoof value).isSome
  | _ => true

theorem handle_returns (hroom : Roomy pool) (hmode : hv.mode = .set)
    (henters : enters select h.setter = true) (haccepts : accepts h (hv.value.getD []) = true)
    (hfew : held select h s = none → (s.list.elts.filter hv.hits).length ≤ 1) :
    ∃ s', handle pool select h hv s = .ok (.ok, s') := by
  have hlisted (hl : listed h.setter = true) :
      ∃ list i, setHeaderHelper pool hv s.list = .ok (.ok, list, some (some i)) := by
    apply helper_returns hroom s.list hmode
    apply hfew
    rw [held, not_pointed hl]
    rfl
  have hbuiltin (hp : pointed select h.setter = true) :
      ∃ s', setBuiltinHeader pool h.offset hv s = .ok (.ok, s') := by
    apply builtin_returns hroom h.offset hmode
    intro hnone
    apply hfew
    rw [held, if_pos hp, hnone]
  cases hset : h.setter <;> rw [hset] at henters hlisted hbuiltin <;> try cases henters
  case header =>
    obtain ⟨list, i, hhelper⟩ := hlisted rfl
    rw [handle, hset]
    exact ⟨_, by rw [setHeaderHandler, hhelper]⟩
  case reqMulti =>
    obtain ⟨list, i, hhelper⟩ := hlisted rfl
    rw [handle, hset]
    exact ⟨_, by rw [setMultiHeader, hhelper]⟩
  case respMulti =>
    obtain ⟨list, i, hhelper⟩ := hlisted rfl
    rw [handle, hset]
    exact ⟨_, by rw [setMultiHeader, hhelper]⟩
  case host =>
    cases select with
    | true => cases henters
    | false =>
      rw [handle, hset]
      exact hbuiltin rfl
  case reqContentLength =>
    obtain ⟨s', hcall⟩ := hbuiltin rfl
    simp only [accepts, hset, Bool.or_eq_true, List.isEmpty_iff] at haccepts
    refine ⟨s', ?_⟩
    rw [handle, hset]
    simp only [setReqContentLength, hmode, reduceCtorEq, if_false]
    rcases haccepts with hnil | hnumber
    · rw [if_neg (fun hne => hne hnil), hcall]
    · obtain ⟨n, hn⟩ := Option.isSome_iff_exists.mp hnumber
      rw [hn, hcall, ite_self]
  case location =>
    obtain ⟨s₁, hcall⟩ := hbuiltin rfl
    rw [handle, hset]
    simp only [setLocationHeader, hcall]
    split
    · split
      · exact ⟨_, rfl⟩
      · exact ⟨_, rfl⟩
    · exact ⟨_, rfl⟩
  case lastModified =>
    rw [handle, hset]
    simp only [setLastModified, hmode, reduceCtorEq, if_false]
    exact hbuiltin rfl
  case respContentLength =>
    rw [accepts, hset] at haccepts
    obtain ⟨n, hn⟩ := Option.isSome_iff_exists.mp haccepts
    rw [handle, hset]
    simp only [setRespContentLength, hmode, reduceCtorEq, if_false, hn]
    exact hbuiltin rfl
  all_goals
    rw [handle, hset]
    exact hbuiltin rfl

end

/-! ### Keys that can be set -/

/-- The name an element of the key has. -/
abbrev stored (key : Bytes) : Bytes := escape .headerName key

theorem prepare_handlerOf {pool : Pool} {table : List Handler} {key : Bytes}
    {value : Option Bytes} {mode : Mode} {h : Handler} {hv : HeaderSet}
    (hp : prepare pool table key value mode = some (h, hv)) : h = handlerOf table key := by
  rw [prepare] at hp
  split at hp
  · next key' value' hkey _ =>
    have hkey := copyEscaped_eq hkey
    simp only [Option.some.injEq, Prod.mk.injEq] at hp
    rw [← hp.1, hkey, handlerOf]
  · cases hp

theorem handlerOf_named {b : Build} {ht : HType} {h : Handler} {key : Bytes}
    (hh : h ∈ handlers b ht) (hsame : SameKey h.name (stored key)) :
    handlerOf (handlers b ht) key = h := by
  have hserves : h.serves (stored key) = true :=
    (serves_iff (escape_no_zero _ _) h).mpr hsame.symm
  unfold handlerOf
  cases hf : (handlers b ht).find? fun h => h.serves (stored key) with
  | none => exact absurd hserves (List.find?_eq_none.mp hf h hh)
  | some g =>
    have hgs : g.serves (stored key) = true :=
      List.find?_some (p := fun h : Handler => h.serves (stored key)) hf
    have hgsame := (serves_iff (escape_no_zero _ _) g).mp hgs
    exact HeaderNames.handlers_unique (List.mem_of_find?_eq_some hf) hh
      (hgsame.symm.trans hsame.symm)

/-- A handler that is not the one of every other name is found by the key. -/
theorem handlerOf_mem {b : Build} {ht : HType} {key : Bytes}
    (hset : (handlerOf (handlers b ht) key).setter ≠ .header) :
    handlerOf (handlers b ht) key ∈ handlers b ht ∧
      SameKey (stored key) (handlerOf (handlers b ht) key).name := by
  unfold handlerOf at hset ⊢
  cases hf : (handlers b ht).find? fun h => h.serves (stored key) with
  | none =>
    rw [hf] at hset
    exact absurd rfl hset
  | some g =>
    have hgs : g.serves (stored key) = true :=
      List.find?_some (p := fun h : Handler => h.serves (stored key)) hf
    exact ⟨List.mem_of_find?_eq_some hf, (serves_iff (escape_no_zero _ _) g).mp hgs⟩

/-- The handler of a key but for its name, which is the key where no other is served. -/
theorem handlerOf_congr (table : List Handler) {key key' : Bytes}
    (hsame : SameKey (stored key) (stored key')) :
    (handlerOf table key').setter = (handlerOf table key).setter ∧
      (handlerOf table key').offset = (handlerOf table key).offset := by
  have hserves : (fun h : Handler => h.serves (stored key)) = fun h => h.serves (stored key') := by
    funext h
    rw [Bool.eq_iff_iff, serves_iff (escape_no_zero _ _), serves_iff (escape_no_zero _ _)]
    exact ⟨fun hs => hsame.symm.trans hs, fun hs => hsame.trans hs⟩
  unfold handlerOf
  rw [← hserves]
  cases table.find? fun h : Handler => h.serves (stored key) with
  | none => exact ⟨rfl, rfl⟩
  | some h => exact ⟨rfl, rfl⟩

theorem held_congr (select : Bool) (table : List Handler) {key key' : Bytes} (s : HeaderMap)
    (hsame : SameKey (stored key) (stored key')) :
    held select (handlerOf table key') s = held select (handlerOf table key) s := by
  obtain ⟨hsetter, hoffset⟩ := handlerOf_congr table hsame
  rw [held, held, hsetter, hoffset]

/-- What a SET of any of the keys needs: their pointers are at elements of their own that
no other of the keys has, and a key without a pointer has one element at most. -/
structure Ready (select : Bool) (table : List Handler) (keys : Bytes → Prop) (s : HeaderMap) :
    Prop where
  hash : ∀ k, keys k → hashKeyLc (stored k) ≠ 0
  fields : ∀ k k', keys k → keys k' → pointed select (handlerOf table k).setter = true →
    pointed select (handlerOf table k').setter = true →
    (handlerOf table k).offset = (handlerOf table k').offset → SameKey (stored k) (stored k')
  hashed : ∀ k, keys k → LiveHashed (stored k) s.list.elts
  few : ∀ k, keys k → held select (handlerOf table k) s = none →
    (valuesOf (stored k) s.list.elts).length ≤ 1
  range : ∀ k i, keys k → held select (handlerOf table k) s = some i → i < s.list.elts.length
  pointer : ∀ k i, keys k → held select (handlerOf table k) s = some i →
    AtPointer (stored k) (some i) s.list.elts
  apart : ∀ k k' i e, keys k → keys k' → held select (handlerOf table k) s = some i →
    s.list.elts[i]? = some e → named (stored k') e = true → SameKey (stored k) (stored k')
  places : ∀ k k' i, keys k → keys k' → held select (handlerOf table k) s = some i →
    held select (handlerOf table k') s = some i → SameKey (stored k) (stored k')

section
variable {pool : Pool} {select : Bool} {table : List Handler} {keys : Bytes → Prop}
  {key value : Bytes} {hv : HeaderSet} {s s' : HeaderMap} {i : ℕ}

theorem hits_live (hp : Prepared key (some value) .set hv) (hhash : hashKeyLc (stored key) ≠ 0)
    {l : List Elt} (hlive : LiveHashed (stored key) l) {e : Elt} (he : e ∈ l) :
    hv.hits e = named (stored key) e := by
  rw [Bool.eq_iff_iff, hp.hits_iff, HeaderNames.named_spec]
  constructor
  · intro ⟨hh, hsame⟩
    exact ⟨by rw [hh]; exact hhash, hsame⟩
  · intro hn
    exact ⟨hlive e he (HeaderNames.named_spec.mpr hn), hn.2⟩

theorem named_elt (hp : Prepared key (some value) .set hv)
    (hhash : hashKeyLc (stored key) ≠ 0) : named (stored key) hv.elt = true := by
  rw [HeaderNames.named_spec]
  refine ⟨?_, hp.same⟩
  rw [show hv.elt.hash = hv.hash from rfl, hp.hash]
  exact hhash

/-- Elements of two keys are of one name. -/
theorem named_same {k k' : Bytes} {e : Elt} (h : named k e = true) (h' : named k' e = true) :
    SameKey k k' :=
  (HeaderNames.named_spec.mp h).2.trans (HeaderNames.named_spec.mp h').2.symm

theorem Ready.few_hits (hr : Ready select table keys s) (hk : keys key)
    (hp : Prepared key (some value) .set hv) (hnone : held select (handlerOf table key) s = none) :
    (s.list.elts.filter hv.hits).length ≤ 1 := by
  have heq : s.list.elts.filter hv.hits = s.list.elts.filter (named (stored key)) :=
    List.filter_congr fun e he => hits_live hp (hr.hash key hk) (hr.hashed key hk) he
  have hfew := hr.few key hk hnone
  rw [valuesOf, List.length_map] at hfew
  rwa [heq]

/-- The elements of the key are at the place that is written. -/
theorem Ready.own (hr : Ready select table keys s) (hk : keys key)
    (hp : Prepared key (some value) .set hv)
    (hw : Written select (handlerOf table key) hv s s' i) {j : ℕ} {e : Elt}
    (he : s.list.elts[j]? = some e) (hn : named (stored key) e = true) : j = i := by
  rcases hw.place with hheld | ⟨hnone, hfound⟩
  · exact (Option.some.inj (hr.pointer key i hk hheld j e he hn)).symm
  · apply hfound.only j e he
    rw [hits_live hp (hr.hash key hk) (hr.hashed key hk) (List.mem_of_getElem? he)]
    exact hn

/-- What is written over is of no other of the keys. -/
theorem Ready.foreign (hr : Ready select table keys s) (hk : keys key) {key' : Bytes}
    (hk' : keys key') (hp : Prepared key (some value) .set hv)
    (hw : Written select (handlerOf table key) hv s s' i) {e : Elt}
    (he : s.list.elts[i]? = some e) (hn : named (stored key') e = true) :
    SameKey (stored key) (stored key') := by
  rcases hw.place with hheld | ⟨hnone, hfound⟩
  · exact hr.apart key key' i e hk hk' hheld he hn
  · have hhit := hfound.hit e he
    rw [hits_live hp (hr.hash key hk) (hr.hashed key hk) (List.mem_of_getElem? he)] at hhit
    exact named_same hhit hn

/-- No pointer of another of the keys is at the place. -/
theorem Ready.free (hr : Ready select table keys s) (hk : keys key) {key' : Bytes}
    (hk' : keys key') (hp : Prepared key (some value) .set hv)
    (hw : Written select (handlerOf table key) hv s s' i)
    (hheld' : held select (handlerOf table key') s = some i) :
    SameKey (stored key) (stored key') := by
  rcases hw.place with hheld | ⟨hnone, hfound⟩
  · exact hr.places key key' i hk hk' hheld hheld'
  · have hlt := hr.range key' i hk' hheld'
    have he := List.getElem?_eq_getElem hlt
    have hhit := hfound.hit _ he
    rw [hits_live hp (hr.hash key hk) (hr.hashed key hk) (List.mem_of_getElem? he)] at hhit
    exact (hr.apart key' key i _ hk' hk hheld' he hhit).symm

/-- The pointer of another of the keys is not written. -/
theorem Ready.held_other (hr : Ready select table keys s) (hk : keys key) {key' : Bytes}
    (hk' : keys key') (hw : Written select (handlerOf table key) hv s s' i)
    (hne : ¬ SameKey (stored key) (stored key')) :
    held select (handlerOf table key') s' = held select (handlerOf table key') s := by
  unfold held
  split
  · next hpointed' =>
    rcases hw.builtin with ⟨hsame, _⟩ | ⟨hpointed, p, _, hupdate⟩
    · rw [hsame]
    · rw [hupdate, Function.update_of_ne]
      intro heq
      exact hne (hr.fields key key' hk hk' hpointed hpointed' heq.symm)
  · rfl

/-- After the write the pointer of the key is where it was written, or nowhere. -/
theorem held_written (hw : Written select (handlerOf table key) hv s s' i) {key' : Bytes}
    (hsame : SameKey (stored key) (stored key')) {j : ℕ}
    (hheld : held select (handlerOf table key') s' = some j) : j = i := by
  rw [held_congr select table s' hsame] at hheld
  rcases hw.builtin with ⟨_, hnone⟩ | ⟨hpointed, p, hor, hupdate⟩
  · rw [hnone] at hheld
    cases hheld
  · rw [held, if_pos hpointed, hupdate, Function.update_self] at hheld
    rcases hor with rfl | rfl
    · exact (Option.some.inj hheld).symm
    · cases hheld

/-- An element of the list after the write. -/
theorem written_get (hw : Written select (handlerOf table key) hv s s' i) {j : ℕ} {e : Elt}
    (he : s'.list.elts[j]? = some e) :
    j = i ∧ e = hv.elt ∨ j ≠ i ∧ s.list.elts[j]? = some e := by
  rw [hw.elts] at he
  by_cases hj : i = j
  · subst hj
    rw [put_self hw.range] at he
    exact .inl ⟨rfl, (Option.some.inj he).symm⟩
  · rw [put_ne hw.range hj] at he
    exact .inr ⟨fun h => hj h.symm, he⟩

theorem Ready.set_values (hr : Ready select table keys s) (hk : keys key)
    (hp : Prepared key (some value) .set hv)
    (hw : Written select (handlerOf table key) hv s s' i) :
    valuesOf (stored key) s'.list.elts = [escape .headerValue value] := by
  have hone := filter_put_hit hw.range (named_elt hp (hr.hash key hk))
    fun j e he hn => hr.own hk hp hw he hn
  rw [valuesOf, hw.elts, hone]
  simp [HeaderSet.elt, hp.value]

theorem Ready.set_other (hr : Ready select table keys s) (hk : keys key) {key' : Bytes}
    (hk' : keys key') (hp : Prepared key (some value) .set hv)
    (hw : Written select (handlerOf table key) hv s s' i)
    (hne : ¬ SameKey (stored key) (stored key')) :
    valuesOf (stored key') s'.list.elts = valuesOf (stored key') s.list.elts := by
  have hmiss : named (stored key') hv.elt = false := by
    cases hn : named (stored key') hv.elt with
    | false => rfl
    | true => exact absurd (named_same (named_elt hp (hr.hash key hk)) hn) hne
  have hkeep := filter_put_miss hw.range hmiss fun e he => by
    cases hn : named (stored key') e with
    | false => rfl
    | true => exact absurd (hr.foreign hk hk' hp hw he hn) hne
  rw [valuesOf, valuesOf, hw.elts, hkeep]

/-- A SET of one of the keys leaves all of them fit for the next one. -/
theorem Ready.set (hr : Ready select table keys s) (hk : keys key)
    (hp : Prepared key (some value) .set hv)
    (hw : Written select (handlerOf table key) hv s s' i) : Ready select table keys s' where
  hash := hr.hash
  fields := hr.fields
  hashed := by
    intro k hkk e he hn
    obtain ⟨j, hj⟩ := List.mem_iff_getElem?.mp he
    rcases written_get hw hj with ⟨_, rfl⟩ | ⟨_, hold⟩
    · have hsame := named_same (named_elt hp (hr.hash key hk)) hn
      rw [show hv.elt.hash = hv.hash from rfl, hp.hash]
      exact hashKeyLc_congr hsame
    · exact hr.hashed k hkk e (List.mem_of_getElem? hold) hn
  few := by
    intro k hkk hnone
    by_cases hsame : SameKey (stored key) (stored k)
    · have hcongr : named (stored k) = named (stored key) := by
        funext e
        rw [Bool.eq_iff_iff, HeaderNames.named_spec, HeaderNames.named_spec]
        apply and_congr_right
        intro _
        exact ⟨fun h => hsame.trans h, fun h => hsame.symm.trans h⟩
      have hvalues := hr.set_values hk hp hw
      rw [valuesOf, ← hcongr] at hvalues
      rw [valuesOf, hvalues]
      exact Nat.le_refl _
    · rw [hr.set_other hk hkk hp hw hsame]
      apply hr.few k hkk
      rw [← hr.held_other hk hkk hw hsame]
      exact hnone
  range := by
    intro k j hkk hheld
    by_cases hsame : SameKey (stored key) (stored k)
    · rw [held_written hw hsame hheld, hw.elts]
      exact put_range hw.range _
    · rw [hr.held_other hk hkk hw hsame] at hheld
      rw [hw.elts]
      exact Nat.lt_of_lt_of_le (hr.range k j hkk hheld) (put_length_ge _ _)
  pointer := by
    intro k j hkk hheld l e he hn
    by_cases hsame : SameKey (stored key) (stored k)
    · rw [held_written hw hsame hheld]
      rcases written_get hw he with ⟨rfl, _⟩ | ⟨_, hold⟩
      · rfl
      · have hnamed : named (stored key) e = true := by
          rw [HeaderNames.named_spec] at hn ⊢
          exact ⟨hn.1, hsame.trans hn.2⟩
        rw [hr.own hk hp hw hold hnamed]
    · rw [hr.held_other hk hkk hw hsame] at hheld
      rcases written_get hw he with ⟨_, rfl⟩ | ⟨_, hold⟩
      · exact absurd (named_same (named_elt hp (hr.hash key hk)) hn) hsame
      · exact hr.pointer k j hkk hheld l e hold hn
  apart := by
    intro k k' j e hkk hkk' hheld he hn
    have helt : e = hv.elt → SameKey (stored key) (stored k') := by
      intro heq
      rw [heq] at hn
      exact named_same (named_elt hp (hr.hash key hk)) hn
    by_cases hsame : SameKey (stored key) (stored k)
    · rw [held_written hw hsame hheld] at he
      rcases written_get hw he with ⟨_, heq⟩ | ⟨hne, _⟩
      · exact hsame.symm.trans (helt heq)
      · exact absurd rfl hne
    · rw [hr.held_other hk hkk hw hsame] at hheld
      rcases written_get hw he with ⟨rfl, heq⟩ | ⟨_, hold⟩
      · exact absurd (hr.free hk hkk hp hw hheld) hsame
      · exact hr.apart k k' j e hkk hkk' hheld hold hn
  places := by
    intro k k' j hkk hkk' hheld hheld'
    by_cases hsame : SameKey (stored key) (stored k)
    · by_cases hsame' : SameKey (stored key) (stored k')
      · exact hsame.symm.trans hsame'
      · rw [held_written hw hsame hheld, hr.held_other hk hkk' hw hsame'] at hheld'
        exact absurd (hr.free hk hkk' hp hw hheld') hsame'
    · rw [hr.held_other hk hkk hw hsame] at hheld
      by_cases hsame' : SameKey (stored key) (stored k')
      · rw [held_written hw hsame' hheld'] at hheld
        exact absurd (hr.free hk hkk hp hw hheld) hsame
      · rw [hr.held_other hk hkk' hw hsame'] at hheld'
        exact hr.places k k' j hkk hkk' hheld hheld'

end

end NgxWasm.Http.HeaderPlaces
