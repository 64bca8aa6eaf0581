import NgxWasm.Http.HeaderPlaces

/-!
# The pointers that clearing all headers leaves (ngx_http_wasm_clear_headers_helper)

A builtin handler clears the element and keeps its pointer. The handlers of Last-Modified
and Content-Length of a response drop it, the one of Location drops it where the value is
a path.
-/

namespace NgxWasm.Http.ClearedPointers

open NgxWasm NgxWasm.ProxyWasm.Pairs NgxWasm.Http.Headers NgxWasm.Http.HeaderSet
open NgxWasm.Http.HeaderRemoval NgxWasm.Http.HeaderPlaces

/-- The removal of the element drops the pointer of its handler. -/
def drops (h : Handler) (e : Elt) : Bool :=
  match h.setter with
  | .lastModified | .respContentLength => true
  | .location => decide (e.value.head? = some 47)
  | _ => false

/-- The pointer at place `i` goes with the element there. -/
def dropped (table : List Handler) (s : HeaderMap) (f : Field) (i : ℕ) : Prop :=
  ∃ e, s.list.elts[i]? = some e ∧ e.hash ≠ 0 ∧ (handlerOf table e.key).offset = f ∧
    drops (handlerOf table e.key) e = true

instance (table : List Handler) (s : HeaderMap) (f : Field) (i : ℕ) :
    Decidable (dropped table s f i) :=
  decidable_of_iff (∃ e ∈ s.list.elts[i]?, e.hash ≠ 0 ∧ (handlerOf table e.key).offset = f ∧
    drops (handlerOf table e.key) e = true) Iff.rfl

/-- The pointer that clearing all headers leaves. -/
def left (table : List Handler) (s : HeaderMap) (f : Field) : Option ℕ :=
  match s.builtin f with
  | some i => if dropped table s f i then none else some i
  | none => none

/-- The pointers that the loop leaves from the element at place `i` on. -/
structure LeftFrom (table : List Handler) (i : ℕ) (s s' : HeaderMap) : Prop where
  kept : ∀ f j, s.builtin f = some j → ¬ (i ≤ j ∧ dropped table s f j) → s'.builtin f = some j
  gone : ∀ f j, s.builtin f = some j → i ≤ j → dropped table s f j → s'.builtin f = none
  null : ∀ f, s.builtin f = none → s'.builtin f = none

/-! ### One removal -/

/-- What the removal for the element at place `i` leaves alone. -/
structure Round (select : Bool) (table : List Handler) (i : ℕ) (e : Elt) (s s' : HeaderMap) :
    Prop where
  spared : ∀ (j : ℕ) x, s.list.elts[j]? = some x → j ≠ i →
    pointed select (handlerOf table x.key).setter = true → s'.list.elts[j]? = some x
  builtin : ∀ f, s'.builtin f =
    if (handlerOf table e.key).offset = f ∧ drops (handlerOf table e.key) e = true then none
    else s.builtin f
  contentType : s'.contentType = s.contentType

theorem clear_contentType (s : HeaderMap) (i : ℕ) : (s.clear i).contentType = s.contentType := by
  unfold HeaderMap.clear
  split <;> rfl

theorem drops_pointed {select : Bool} {h : Handler} {e : Elt} (hd : drops h e = true) :
    pointed select h.setter = true := by
  cases hset : h.setter <;> simp only [drops, hset, Bool.false_eq_true] at hd <;> rfl

section
variable {b : Build} {ht : HType} {pool : Pool} {select : Bool} {s s' : HeaderMap} {i : ℕ} {e : Elt}

/-- The removal by the list finds no element of a key that has a pointer. -/
theorem pointed_spared {hv : HeaderSet} (hp : Prepared e.key none .remove hv)
    (hlisted : listed (handlerOf (handlers b ht) e.key).setter = true) {x : Elt}
    (hx : pointed select (handlerOf (handlers b ht) x.key).setter = true) : hv.hits x = false := by
  cases hhit : hv.hits x with
  | false => rfl
  | true =>
    have hset : (handlerOf (handlers b ht) x.key).setter ≠ .header := by
      intro hset
      rw [hset] at hx
      cases hx
    obtain ⟨hmem, hname⟩ := handlerOf_mem hset
    have hplain := HeaderNames.handlers_plain hmem
    have hkey := (sameKey_escape hplain).mp hname.symm
    have hsame : SameKey (stored e.key) x.key := ((hp.hits_iff x).mp hhit).2
    have heq := handlerOf_named hmem (hkey.trans hsame.symm)
    rw [heq] at hlisted
    rw [not_pointed hlisted] at hx
    cases hx

theorem round_clear (hkeeps : drops (handlerOf (handlers b ht) e.key) e = false) :
    Round select (handlers b ht) i e s (s.clear i) := by
  refine ⟨?_, ?_, clear_contentType s i⟩
  · intro j x hx hji _
    rw [clear_get_ne s hji.symm]
    exact hx
  · intro f
    rw [clear_builtin, hkeeps, if_neg (by simp)]

/-- The pointer is dropped after the element was cleared. -/
theorem round_drop (hdrops : drops (handlerOf (handlers b ht) e.key) e = true) {l : HeaderMap}
    (hlist : l = s.clear i) :
    Round select (handlers b ht) i e s
      { l with builtin := Function.update s.builtin (handlerOf (handlers b ht) e.key).offset none } := by
  subst hlist
  refine ⟨?_, ?_, clear_contentType s i⟩
  · intro j x hx hji _
    show (s.clear i).list.elts[j]? = some x
    rw [clear_get_ne s hji.symm]
    exact hx
  · intro f
    show Function.update s.builtin _ none f = _
    by_cases hf : (handlerOf (handlers b ht) e.key).offset = f
    · rw [if_pos ⟨hf, hdrops⟩, hf, Function.update_self]
    · rw [if_neg (fun h => hf h.1), Function.update_of_ne (Ne.symm hf)]

theorem round_listed (hhash : e.hash ≠ 0) (heq : e.hash = hashKeyLc (stored e.key))
    (hlisted : listed (handlerOf (handlers b ht) e.key).setter = true)
    (hset : handle pool select (handlerOf (handlers b ht) e.key)
      (headerSet (handlers b ht) e.key none .remove) s = .ok (.ok, s')) :
    Round select (handlers b ht) i e s s' := by
  have hp := headerSet_prepared (handlers b ht) e.key none .remove
  obtain ⟨list, hhelper, hlist⟩ := helper_remove pool _ s.list (hp.mode) (by
    rw [hp.hash, ← heq]
    exact hhash)
  have hs' : s' = { s with list := list } := by
    generalize (if s.list.elts.any (headerSet (handlers b ht) e.key none .remove).hits then
      some (none : Option ℕ) else none) = out at hhelper
    cases hsetter : (handlerOf (handlers b ht) e.key).setter <;>
      rw [hsetter] at hlisted <;> try cases hlisted
    case header =>
      simp only [handle, hsetter, setHeaderHandler, hhelper, Except.ok.injEq, Prod.mk.injEq,
        true_and] at hset
      exact hset.symm
    all_goals
      simp only [handle, hsetter, setMultiHeader, hhelper] at hset
      cases out with
      | none => cases hset
      | some out =>
        simp only [Except.ok.injEq, Prod.mk.injEq, true_and] at hset
        exact hset.symm
  have hkeeps : drops (handlerOf (handlers b ht) e.key) e ≠ true := by
    intro hdrops
    have hpointed : pointed select _ = true := drops_pointed hdrops
    rw [not_pointed hlisted] at hpointed
    cases hpointed
  subst hs'
  refine ⟨?_, ?_, rfl⟩
  · intro j x hx _ hpointed
    show list.elts[j]? = some x
    rw [hlist, List.getElem?_map, hx, Option.map_some, cleared,
      pointed_spared hp hlisted hpointed]
    rfl
  · intro f
    rw [if_neg (fun h => hkeeps h.2)]

theorem removed_at {offset : Field} (hp : s.builtin offset = some i) :
    removed offset s = s.clear i := by
  simp only [removed, hp]

theorem round_location (hsetter : (handlerOf (handlers b ht) e.key).setter = .location)
    (hp : s.builtin (handlerOf (handlers b ht) e.key).offset = some i)
    (he : s.list.elts[i]? = some { e with key := stored e.key }) :
    Round select (handlers b ht) i e s
      (removedLocation (handlerOf (handlers b ht) e.key).offset s) := by
  have hget : (removed (handlerOf (handlers b ht) e.key).offset s).list.elts[i]? =
      some { e with key := stored e.key, hash := 0 } := by
    rw [removed_at hp, clear_get_self, he]
    rfl
  simp only [removedLocation, hp, Option.bind_some, hget]
  by_cases hslash : e.value.head? = some 47
  · rw [if_pos hslash]
    exact round_drop (by simp only [drops, hsetter, hslash, decide_true]) (removed_at hp)
  · rw [if_neg hslash, removed_at hp]
    exact round_clear (by simp only [drops, hsetter, hslash, decide_false])

theorem round_of_clears (hclears : Clears pool select (handlers b ht) s i e) (hlive : e.hash ≠ 0)
    (he : s.list.elts[i]? = some { e with key := stored e.key })
    (hset : setHeader pool select (handlers b ht) e.key none .remove s = .ok (.ok, s')) :
    Round select (handlers b ht) i e s s' := by
  obtain ⟨hcopy, hclears⟩ := hclears
  rw [setHeader_remove hcopy] at hset
  have hremove : ∀ offset, setBuiltinHeader pool offset
      (headerSet (handlers b ht) e.key none .remove) s = .ok (.ok, removed offset s) :=
    fun offset => setBuiltinHeader_remove offset rfl
  have hdrop {l : HeaderMap} (hdrops : drops (handlerOf (handlers b ht) e.key) e = true)
      (hp : s.builtin (handlerOf (handlers b ht) e.key).offset = some i)
      (hl : clearBuiltin (handlerOf (handlers b ht) e.key).offset s = l) :
      Round select (handlers b ht) i e s l := by
    rw [← hl, clearBuiltin, hp]
    exact round_drop hdrops rfl
  cases hsetter : (handlerOf (handlers b ht) e.key).setter <;> simp only [hsetter] at hclears
  case header => exact round_listed hlive hclears (by rw [hsetter]; rfl) hset
  case reqMulti => exact round_listed hlive hclears (by rw [hsetter]; rfl) hset
  case respMulti => exact round_listed hlive hclears (by rw [hsetter]; rfl) hset
  case host =>
    obtain ⟨hselect, hp⟩ := hclears
    simp only [handle, hsetter, setHostHeader, hselect, Bool.false_eq_true, if_false, hremove,
      Except.ok.injEq, Prod.mk.injEq, true_and] at hset
    rw [← hset, removed_at hp]
    exact round_clear (by simp only [drops, hsetter])
  case reqContentLength =>
    have hvalue : (headerSet (handlers b ht) e.key none .remove).value.getD [] = [] := rfl
    have hmode : (headerSet (handlers b ht) e.key none .remove).mode ≠ .append := by simp [headerSet]
    simp only [handle, hsetter, setReqContentLength, hvalue, ne_eq, not_true_eq_false, if_false,
      if_neg hmode, hremove, Except.ok.injEq, Prod.mk.injEq, true_and] at hset
    rw [← hset, removed_at hclears]
    exact round_clear (by simp only [drops, hsetter])
  case location =>
    simp only [handle, hsetter] at hset
    rw [setLocationHeader_remove _ rfl] at hset
    simp only [Except.ok.injEq, Prod.mk.injEq, true_and] at hset
    rw [← hset]
    exact round_location hsetter hclears he
  case lastModified =>
    simp only [handle, hsetter, setLastModified, headerSet, if_true, Except.ok.injEq,
      Prod.mk.injEq, true_and] at hset
    exact hdrop (by simp only [drops, hsetter]) hclears hset
  case respContentLength =>
    simp only [handle, hsetter, setRespContentLength, headerSet, if_true, Except.ok.injEq,
      Prod.mk.injEq, true_and] at hset
    exact hdrop (by simp only [drops, hsetter]) hclears hset
  all_goals
    simp only [handle, hsetter, hremove, Except.ok.injEq, Prod.mk.injEq, true_and] at hset
    rw [← hset, removed_at hclears]
    exact round_clear (by simp only [drops, hsetter])

/-! ### The loop -/

/-- What the loop from the element at place `i` on leaves of the map. -/
structure Emptied (table : List Handler) (i : ℕ) (s s' : HeaderMap) : Prop where
  length : s'.list.elts.length = s.list.elts.length
  contentType : s'.contentType = s.contentType
  left : LeftFrom table i s s'

theorem dropped_at (he : s.list.elts[i]? = some e) (hlive : e.hash ≠ 0) (f : Field) :
    dropped (handlers b ht) s f i ↔ (handlerOf (handlers b ht) e.key).offset = f ∧
      drops (handlerOf (handlers b ht) e.key) e = true := by
  constructor
  · intro ⟨x, hx, _, hdrops⟩
    rw [he] at hx
    rw [Option.some.inj hx]
    exact hdrops
  · intro hdrops
    exact ⟨e, he, hlive, hdrops⟩

/-- What is dropped later is what would have been dropped before the round. -/
theorem dropped_round {s₁ s₂ : HeaderMap}
    (hs₁ : s₁ = { s with list := s.list.assign i { e with key := stored e.key } })
    (hcleared : Cleared i s₁ s₂) (hround : Round select (handlers b ht) i e s₁ s₂) {j : ℕ}
    (hji : j ≠ i) (f : Field) :
    dropped (handlers b ht) s₂ f j ↔ dropped (handlers b ht) s f j := by
  have hget : s₁.list.elts[j]? = s.list.elts[j]? := by
    rw [hs₁, HeaderList.assign_elts, List.getElem?_set_ne hji.symm]
  constructor
  · intro ⟨x, hx, hlive, hdrops⟩
    have hx₁ := (hcleared.kept j x hx hlive).2
    exact ⟨x, hget ▸ hx₁, hlive, hdrops⟩
  · intro ⟨x, hx, hlive, hoffset, hdrops⟩
    refine ⟨x, ?_, hlive, hoffset, hdrops⟩
    exact hround.spared j x (hget.trans hx) hji (drops_pointed hdrops)

/-- An element whose removal drops a pointer is where the pointer is. -/
theorem Clears.pointer (hclears : Clears pool select (handlers b ht) s i e)
    (hdrops : drops (handlerOf (handlers b ht) e.key) e = true) :
    s.builtin (handlerOf (handlers b ht) e.key).offset = some i := by
  obtain ⟨-, hclears⟩ := hclears
  cases hsetter : (handlerOf (handlers b ht) e.key).setter <;>
    simp only [drops, hsetter, Bool.false_eq_true] at hdrops
  all_goals
    simp only [hsetter] at hclears
    exact hclears

theorem LeftFrom.round {s₁ s₂ : HeaderMap} (he : s.list.elts[i]? = some e) (hlive : e.hash ≠ 0)
    (hclears : Clears pool select (handlers b ht) s i e)
    (hs₁ : s₁ = { s with list := s.list.assign i { e with key := stored e.key } })
    (hcleared : Cleared i s₁ s₂) (hround : Round select (handlers b ht) i e s₁ s₂)
    (h : LeftFrom (handlers b ht) (i + 1) s₂ s') : LeftFrom (handlers b ht) i s s' := by
  have hbuiltin : s₁.builtin = s.builtin := by rw [hs₁]
  have hstays {f : Field} (hno : ¬ dropped (handlers b ht) s f i) : s₂.builtin f = s.builtin f := by
    rw [hround.builtin, if_neg (fun hdrops => hno ((dropped_at he hlive f).mpr hdrops)), hbuiltin]
  have hgoes {f : Field} (hyes : dropped (handlers b ht) s f i) : s₂.builtin f = none := by
    rw [hround.builtin, if_pos ((dropped_at he hlive f).mp hyes)]
  -- only the pointer at the element goes with it
  have hown {f : Field} {j : ℕ} (hf : s.builtin f = some j) (hji : j ≠ i) :
      ¬ dropped (handlers b ht) s f i := by
    intro hyes
    obtain ⟨hoffset, hdrops⟩ := (dropped_at he hlive f).mp hyes
    have hp := Clears.pointer hclears hdrops
    rw [hoffset, hf] at hp
    exact hji (Option.some.inj hp)
  refine ⟨?_, ?_, ?_⟩
  · intro f j hf hno
    by_cases hji : j = i
    · subst hji
      have hf₂ := (hstays (fun hyes => hno ⟨le_rfl, hyes⟩)).trans hf
      exact h.kept f j hf₂ (fun hlater => by omega)
    · have hf₂ := (hstays (hown hf hji)).trans hf
      refine h.kept f j hf₂ ?_
      intro ⟨hle, hyes⟩
      exact hno ⟨by omega, (dropped_round hs₁ hcleared hround hji f).mp hyes⟩
  · intro f j hf hle hyes
    by_cases hji : j = i
    · subst hji
      exact h.null f (hgoes hyes)
    · have hf₂ := (hstays (hown hf hji)).trans hf
      exact h.gone f j hf₂ (by omega) ((dropped_round hs₁ hcleared hround hji f).mpr hyes)
  · intro f hf
    apply h.null f
    by_cases hyes : dropped (handlers b ht) s f i
    · exact hgoes hyes
    · exact (hstays hyes).trans hf

theorem emptied_builtin {table : List Handler} (h : Emptied table 0 s s') (f : Field) :
    s'.builtin f = left table s f := by
  unfold left
  cases hf : s.builtin f with
  | none => exact h.left.null f hf
  | some i =>
    dsimp only
    by_cases hdrop : dropped table s f i
    · rw [if_pos hdrop]
      exact h.left.gone f i hf (Nat.zero_le i) hdrop
    · rw [if_neg hdrop]
      exact h.left.kept f i hf (fun hno => hdrop hno.2)

theorem clearFrom_empties (n : ℕ) : ∀ (i : ℕ) (s s' : HeaderMap), i + n = s.list.elts.length →
    (∀ (j : ℕ) x, s.list.elts[j]? = some x → x.hash ≠ 0 →
      i ≤ j ∧ Clears pool select (handlers b ht) s j x) →
    clearFrom pool select (handlers b ht) n i s = .ok (.ok, s') → Emptied (handlers b ht) i s s' := by
  induction n with
  | zero =>
    intro i s s' hlen _ hrun
    simp only [clearFrom, Except.ok.injEq, Prod.mk.injEq, true_and] at hrun
    subst hrun
    refine ⟨rfl, rfl, ⟨fun f j hf _ => hf, ?_, fun f hf => hf⟩⟩
    intro f j _ hle hdrop
    obtain ⟨e, he, _⟩ := hdrop
    have hlt := (List.getElem?_eq_some_iff.mp he).1
    omega
  | succ n ih =>
    intro i s s' hlen h hrun
    have hlt : i < s.list.elts.length := by omega
    obtain ⟨e, he⟩ : ∃ e, s.list.elts[i]? = some e := ⟨_, List.getElem?_eq_getElem hlt⟩
    by_cases hdead : e.hash = 0
    · rw [clearFrom_dead n he hdead] at hrun
      have hrest := ih (i + 1) s s' (by omega) (Clears.after_dead he hdead h) hrun
      have hnot {f : Field} {j : ℕ} (hyes : dropped (handlers b ht) s f j) : j ≠ i := by
        intro hji
        obtain ⟨x, hx, hlive, _⟩ := hyes
        rw [hji, he] at hx
        rw [← Option.some.inj hx] at hlive
        exact hlive hdead
      refine ⟨hrest.length, hrest.contentType, ⟨?_, ?_, hrest.left.null⟩⟩
      · intro f j hf hno
        refine hrest.left.kept f j hf ?_
        intro hlater
        exact hno ⟨by omega, hlater.2⟩
      · intro f j hf hle hyes
        have hji := hnot hyes
        exact hrest.left.gone f j hf (by omega) hyes
    · have hclears := (h i e he hdead).2
      obtain ⟨s₁, s₂, hs₁, hset, hcleared, hloop⟩ := clearFrom_round n he hdead hclears
      have hlength := round_length hs₁ hcleared
      have he₁ : s₁.list.elts[i]? = some { e with key := stored e.key } := by
        rw [hs₁, HeaderList.assign_elts, List.getElem?_set_self hlt]
      have hclears₁ : Clears pool select (handlers b ht) s₁ i e := by
        rw [hs₁]
        exact hclears
      have hround := round_of_clears hclears₁ hdead he₁ hset
      rw [hloop] at hrun
      have hrest := ih (i + 1) s₂ s' (by omega) (Clears.after_round hs₁ hcleared h) hrun
      refine ⟨hrest.length.trans hlength, ?_, ?_⟩
      · rw [hrest.contentType, hround.contentType, hs₁]
      · exact LeftFrom.round he hdead hclears hs₁ hcleared hround hrest.left

/-- Clearing all headers, where every element is cleared by its own removal. -/
theorem clearHeaders_empties (hok : ClearOk pool select (handlers b ht) s) :
    ∃ s', clearHeaders pool select (handlers b ht) s = .ok (.ok, s') ∧ s'.list.live = [] ∧
      Emptied (handlers b ht) 0 s s' := by
  obtain ⟨s', hrun, hlive⟩ := clearSound hok
  refine ⟨s', hrun, hlive, ?_⟩
  refine clearFrom_empties s.list.elts.length 0 s s' (Nat.zero_add _) ?_ hrun
  intro j x hx hlive
  exact ⟨Nat.zero_le j, hok j x hx hlive⟩

end

end NgxWasm.Http.ClearedPointers
