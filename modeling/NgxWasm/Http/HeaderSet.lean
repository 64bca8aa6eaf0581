import NgxWasm.Http.Headers
import Mathlib.Data.Fintype.Basic

/-!
# What setting a header leaves in the list

One flag of the search says both that an element was updated and that one was cleared.
A search that updates and then meets a second element clears it, starts again and
clears the first one too.
-/

namespace NgxWasm.Http.HeaderSet

set_option maxRecDepth 8192

open NgxWasm NgxWasm.ProxyWasm.Pairs NgxWasm.Http.Headers

/-! ### Keys -/

theorem tolower_eq_zero (c : UInt8) : tolower c = 0 ↔ c = 0 := by
  constructor
  · intro h
    simp only [tolower] at h
    split at h
    next hc =>
      have hz := UInt8.or_eq_zero_iff.mp h
      exact absurd hz.2 (by decide)
    next => exact h
  · intro h
    subst h
    rfl

/-- Equal keys, letter case apart. -/
def SameKey (s t : Bytes) : Prop := s.map tolower = t.map tolower

instance (s t : Bytes) : Decidable (SameKey s t) := inferInstanceAs (Decidable (_ = _))

theorem SameKey.refl (s : Bytes) : SameKey s s := rfl

theorem SameKey.symm {s t : Bytes} (h : SameKey s t) : SameKey t s := Eq.symm h

theorem SameKey.trans {s t u : Bytes} (h : SameKey s t) (h' : SameKey t u) : SameKey s u :=
  Eq.trans h h'

theorem strncasecmp_iff {s t : Bytes} (hlen : t.length = s.length) (hs : 0 ∉ s) :
    strncasecmp s t = true ↔ SameKey s t := by
  induction s generalizing t with
  | nil =>
    have ht : t = [] := List.length_eq_zero_iff.mp hlen
    subst ht
    simp [strncasecmp, SameKey]
  | cons a s ih =>
    cases t with
    | nil => simp at hlen
    | cons b t =>
      have ha : tolower a ≠ 0 := by
        intro h
        exact hs (by simp [(tolower_eq_zero a).mp h])
      have hs' : 0 ∉ s := fun h => hs (List.mem_cons_of_mem _ h)
      have ht : t.length = s.length := by simpa using hlen
      simp only [strncasecmp, SameKey, List.map_cons, List.cons.injEq]
      by_cases hab : tolower a = tolower b
      · rw [if_pos hab, if_neg ha, ih ht hs']
        simp only [SameKey, hab, true_and]
      · simp [hab]

theorem keyIs_iff {key : Bytes} (hkey : 0 ∉ key) (e : Elt) :
    keyIs key e = true ↔ SameKey key e.key := by
  simp only [keyIs, Bool.and_eq_true, beq_iff_eq]
  constructor
  · rintro ⟨hlen, hcmp⟩
    exact (strncasecmp_iff hlen hkey).mp hcmp
  · intro h
    have hlen : e.key.length = key.length := by
      simpa using (congrArg List.length h).symm
    exact ⟨hlen, (strncasecmp_iff hlen hkey).mpr h⟩

theorem hashKeyLc_congr {s t : Bytes} (h : SameKey s t) : hashKeyLc s = hashKeyLc t := by
  have hmap : ∀ (l : Bytes) (n : ℕ),
      l.foldl (fun hash c => (hash * 31 + (tolower c).toNat) % 2 ^ 64) n =
        (l.map tolower).foldl (fun hash c => (hash * 31 + c.toNat) % 2 ^ 64) n := by
    intro l n
    rw [List.foldl_map]
  simp only [hashKeyLc, hmap]
  rw [show s.map tolower = t.map tolower from h]

theorem byte_forall {p : UInt8 → Prop} (h : ∀ n < 256, p (UInt8.ofNat n)) (c : UInt8) : p c := by
  have hc := h c.toNat c.toNat_lt
  rwa [UInt8.ofNat_toNat] at hc

theorem escape_forall {kind : EscapeKind} {p : UInt8 → Prop} (hpercent : p 37)
    (hhex : ∀ n < 16, p (hexDigit n)) (hplain : ∀ c, kind.escapes c = false → p c) (s : Bytes) :
    ∀ c ∈ escape kind s, p c := by
  have hhigh : ∀ c : UInt8, (c >>> 4).toNat < 16 := byte_forall (by decide)
  have hlow : ∀ c : UInt8, (c &&& 0xf).toNat < 16 := byte_forall (by decide)
  induction s with
  | nil => simp [escape]
  | cons d s ih =>
    intro c hc
    rw [escape] at hc
    split at hc
    · simp only [List.mem_cons] at hc
      rcases hc with rfl | rfl | rfl | hc
      · exact hpercent
      · exact hhex _ (hhigh d)
      · exact hhex _ (hlow d)
      · exact ih c hc
    · next hd =>
      rcases List.mem_cons.mp hc with rfl | hc
      · exact hplain c (by simpa using hd)
      · exact ih c hc

theorem escape_no_zero (kind : EscapeKind) (s : Bytes) : 0 ∉ escape kind s := by
  have hall : ∀ c ∈ escape kind s, c ≠ 0 := by
    refine escape_forall (by decide) (by decide) ?_ s
    rintro c hc rfl
    revert hc
    cases kind <;> decide
  exact fun hmem => hall 0 hmem rfl

/-! ### The search -/

theorem search_skip (hv : HeaderSet) (a : List Elt) :
    ∀ (b : List Elt) (i : ℕ) (s : Pass), (∀ e ∈ a, hv.hits e = false) →
      search hv (a ++ b) i s = search hv b (i + a.length) s := by
  induction a with
  | nil => intro b i s _; rfl
  | cons e a ih =>
    intro b i s h
    have he := h e (List.mem_cons_self ..)
    simp only [List.cons_append, search, he, Bool.false_eq_true, if_false, List.length_cons]
    rw [ih b (i + 1) s fun x hx => h x (List.mem_cons_of_mem _ hx)]
    congr 1
    omega

theorem search_miss (hv : HeaderSet) (h : List Elt) (i : ℕ) (s : Pass)
    (hmiss : ∀ e ∈ h, hv.hits e = false) : search hv h i s = s := by
  have hskip := search_skip hv h [] i s hmiss
  rw [List.append_nil] at hskip
  rw [hskip]
  rfl

/-- The first element the search stops at. -/
theorem split_at_hit (hv : HeaderSet) (l : List Elt) :
    (∀ e ∈ l, hv.hits e = false) ∨
      ∃ a e b, l = a ++ e :: b ∧ (∀ x ∈ a, hv.hits x = false) ∧ hv.hits e = true := by
  cases hf : l.find? hv.hits with
  | none =>
    left
    intro e he
    simpa using List.find?_eq_none.mp hf e he
  | some e =>
    right
    obtain ⟨he, a, b, hl, ha⟩ := List.find?_eq_some_iff_append.mp hf
    exact ⟨a, e, b, hl, fun x hx => by simpa using ha x hx, he⟩

theorem set_at {α : Type} (a : List α) (e x : α) (b : List α) :
    (a ++ e :: b).set a.length x = a ++ x :: b := by
  simp

theorem pass_clear (hv : HeaderSet) {a b : List Elt} {e : Elt} {i : ℕ} {s : Pass}
    (ha : ∀ x ∈ a, hv.hits x = false) (he : hv.hits e = true)
    (hmode : hv.mode = .remove ∨ s.found = true) :
    search hv (a ++ e :: b) i s =
      ⟨s.list.assign (i + a.length) { e with hash := 0 }, some none, true, true⟩ := by
  rw [search_skip hv a _ i s ha]
  simp only [search, he, if_true]
  rw [if_pos hmode]

theorem pass_update (hv : HeaderSet) {a b : List Elt} {e : Elt} {s : Pass}
    (ha : ∀ x ∈ a, hv.hits x = false) (he : hv.hits e = true)
    (hmode : hv.mode ≠ .remove) (hfound : s.found = false) :
    search hv (a ++ e :: b) 0 s =
      search hv b (a.length + 1)
        ⟨s.list.assign a.length hv.elt, some (some a.length), true, false⟩ := by
  rw [search_skip hv a _ 0 s ha]
  simp only [search, he, if_true, Nat.zero_add]
  rw [if_neg (by simp [hmode, hfound])]

/-- An element after a search that clears. -/
def cleared (hv : HeaderSet) (e : Elt) : Elt := if hv.hits e then { e with hash := 0 } else e

theorem map_cleared_miss (hv : HeaderSet) {l : List Elt} (h : ∀ e ∈ l, hv.hits e = false) :
    l.map (cleared hv) = l := by
  conv_rhs => rw [← List.map_id l]
  apply List.map_congr_left
  intro e he
  simp [cleared, h e he]

theorem hits_hash {hv : HeaderSet} {e : Elt} (h : hv.hits e = true) : e.hash = hv.hash := by
  simp only [HeaderSet.hits, Bool.and_eq_true, beq_iff_eq] at h
  exact h.1

theorem hits_zero {hv : HeaderSet} (hhash : hv.hash ≠ 0) (e : Elt) :
    hv.hits { e with hash := 0 } = false := by
  cases h : hv.hits { e with hash := 0 } with
  | false => rfl
  | true => exact absurd (hits_hash h).symm hhash

theorem passes_miss (hv : HeaderSet) (n : ℕ) (s : Pass)
    (hmiss : ∀ e ∈ s.list.elts, hv.hits e = false) :
    passes hv (n + 1) s = some { s with again := false } := by
  simp only [passes, search_miss hv _ 0 _ hmiss]
  rfl

/-- The passes that clear: each of them takes the first element left. -/
theorem passes_clear (hv : HeaderSet) (hhash : hv.hash ≠ 0) :
    ∀ (n : ℕ) (s : Pass), (hv.mode = .remove ∨ s.found = true) →
      (s.list.elts.filter hv.hits).length < n →
      ∃ s', passes hv n s = some s' ∧ s'.list.elts = s.list.elts.map (cleared hv) ∧
        s'.out = (if s.list.elts.any hv.hits then some none else s.out) ∧
        (s.found = true → s'.found = true) := by
  intro n
  induction n with
  | zero => intro s _ hn; omega
  | succ n ih =>
    intro s hmode hn
    rcases split_at_hit hv s.list.elts with hmiss | ⟨a, e, b, hl, ha, he⟩
    · refine ⟨{ s with again := false }, passes_miss hv n s hmiss, ?_, ?_, id⟩
      · exact (map_cleared_miss hv hmiss).symm
      · have hany : s.list.elts.any hv.hits = false := by simpa using hmiss
        rw [hany]
        rfl
    · have hpass : search hv s.list.elts 0 { s with again := false } =
          ⟨s.list.assign a.length { e with hash := 0 }, some none, true, true⟩ := by
        have h := pass_clear hv (b := b) (i := 0) (s := { s with again := false }) ha he hmode
        rw [hl, h, Nat.zero_add]
      have helts : (s.list.assign a.length { e with hash := 0 }).elts =
          a ++ { e with hash := 0 } :: b := by
        rw [HeaderList.assign_elts, hl, set_at]
      have hzero := hits_zero hhash e
      have hcount : ((a ++ { e with hash := 0 } :: b).filter hv.hits).length < n := by
        rw [hl] at hn
        simp only [List.filter_append, List.filter_cons, hzero, he, if_true, Bool.false_eq_true,
          if_false, List.length_append, List.length_cons] at hn ⊢
        omega
      obtain ⟨s', hs', hlist, hout, hfound⟩ :=
        ih ⟨s.list.assign a.length { e with hash := 0 }, some none, true, true⟩ (.inr rfl)
          (by rw [helts]; exact hcount)
      refine ⟨s', ?_, ?_, ?_, fun _ => hfound rfl⟩
      · simp only [passes, hpass, if_true]
        exact hs'
      · rw [hlist, helts, hl]
        simp [cleared, he, hzero]
      · rw [hout, hl]
        simp [he]

theorem passes_endless (hv : HeaderSet) (hhash : hv.hash = 0) :
    ∀ (n : ℕ) (s : Pass), (hv.mode = .remove ∨ s.found = true) →
      (∃ e ∈ s.list.elts, hv.hits e = true) → passes hv n s = none := by
  intro n
  induction n with
  | zero => intro s _ _; rfl
  | succ n ih =>
    intro s hmode ⟨x, hx, hhit⟩
    rcases split_at_hit hv s.list.elts with hmiss | ⟨a, e, b, hl, ha, he⟩
    · exact absurd (hmiss x hx) (by simp [hhit])
    · have hpass : search hv s.list.elts 0 { s with again := false } =
          ⟨s.list.assign a.length { e with hash := 0 }, some none, true, true⟩ := by
        have h := pass_clear hv (b := b) (i := 0) (s := { s with again := false }) ha he hmode
        rw [hl, h, Nat.zero_add]
      simp only [passes, hpass, if_true]
      apply ih _ (.inr rfl)
      -- the element that is cleared is hit as before
      have hsame : { e with hash := 0 } = e := by
        rw [← hhash, ← hits_hash he]
      refine ⟨e, ?_, he⟩
      simp only [HeaderList.assign_elts, hl, hsame, set_at]
      simp

/-! ### The helper -/

theorem helper_append (pool : Pool) (hv : HeaderSet) (list : HeaderList)
    (hmode : hv.mode = .append) :
    setHeaderHelper pool hv list = .ok (newHeader pool hv list) := by
  simp only [setHeaderHelper, if_pos hmode]

theorem helper_new (pool : Pool) (hv : HeaderSet) (list : HeaderList) (hmode : hv.mode = .set)
    (hmiss : ∀ e ∈ list.elts, hv.hits e = false) :
    setHeaderHelper pool hv list = .ok (newHeader pool hv list) := by
  have hp : passes hv (list.elts.length + 2) ⟨list, none, false, false⟩ =
      some ⟨list, none, false, false⟩ := passes_miss hv _ ⟨list, none, false, false⟩ hmiss
  simp only [setHeaderHelper, hmode, hp, reduceCtorEq, if_false, or_self, Bool.false_eq_true]

theorem helper_update (pool : Pool) (hv : HeaderSet) (list : HeaderList) {a b : List Elt}
    {e : Elt} (hmode : hv.mode = .set) (hl : list.elts = a ++ e :: b)
    (ha : ∀ x ∈ a, hv.hits x = false) (he : hv.hits e = true)
    (hb : ∀ x ∈ b, hv.hits x = false) :
    setHeaderHelper pool hv list =
      .ok (.ok, list.assign a.length hv.elt, some (some a.length)) := by
  have hpass : search hv list.elts 0 ⟨list, none, false, false⟩ =
      ⟨list.assign a.length hv.elt, some (some a.length), true, false⟩ := by
    rw [hl, pass_update hv ha he (by simp [hmode]) rfl, search_miss hv b _ _ hb]
  have hp : passes hv (list.elts.length + 2) ⟨list, none, false, false⟩ =
      some ⟨list.assign a.length hv.elt, some (some a.length), true, false⟩ := by
    simp only [passes, hpass, Bool.false_eq_true, if_false]
  simp only [setHeaderHelper, hmode, hp, reduceCtorEq, if_false, true_or, if_true]

/-- The first pass of a search that meets a second element. -/
theorem pass_second (hv : HeaderSet) (list : HeaderList) {a b c : List Elt} {e x : Elt}
    (hmode : hv.mode = .set) (hl : list.elts = a ++ e :: (b ++ x :: c))
    (ha : ∀ y ∈ a, hv.hits y = false) (he : hv.hits e = true)
    (hb : ∀ y ∈ b, hv.hits y = false) (hx : hv.hits x = true) :
    ∃ list', search hv list.elts 0 ⟨list, none, false, false⟩ = ⟨list', some none, true, true⟩ ∧
      list'.elts = a ++ hv.elt :: (b ++ { x with hash := 0 } :: c) := by
  refine ⟨(list.assign a.length hv.elt).assign (a.length + 1 + b.length) { x with hash := 0 },
    ?_, ?_⟩
  · rw [hl, pass_update hv ha he (by simp [hmode]) rfl, pass_clear hv hb hx (.inr rfl)]
  · have hassoc : a ++ hv.elt :: (b ++ x :: c) = (a ++ hv.elt :: b) ++ x :: c := by simp
    have hlen : a.length + 1 + b.length = (a ++ hv.elt :: b).length := by
      simp only [List.length_append, List.length_cons]
      omega
    rw [HeaderList.assign_elts, HeaderList.assign_elts, hl, set_at, hassoc, hlen, set_at]
    simp

theorem helper_twice (pool : Pool) (hv : HeaderSet) (list : HeaderList) {a b : List Elt}
    {e : Elt} (hmode : hv.mode = .set) (hhash : hv.hash ≠ 0) (hself : hv.hits hv.elt = true)
    (hl : list.elts = a ++ e :: b) (ha : ∀ x ∈ a, hv.hits x = false) (he : hv.hits e = true)
    (hb : ∃ x ∈ b, hv.hits x = true) :
    ∃ list', setHeaderHelper pool hv list = .ok (.ok, list', some none) ∧
      list'.elts = a ++ { hv.elt with hash := 0 } :: b.map (cleared hv) := by
  rcases split_at_hit hv b with hmiss | ⟨b₁, x, b₂, hbl, hb₁, hx⟩
  · obtain ⟨x, hx, hhit⟩ := hb
    exact absurd (hmiss x hx) (by simp [hhit])
  · obtain ⟨list₁, hpass, hlist₁⟩ := pass_second hv list hmode (by rw [hl, hbl]) ha he hb₁ hx
    obtain ⟨s', hs', hlist', hout, hfound⟩ :=
      passes_clear hv hhash (list.elts.length + 1) ⟨list₁, some none, true, true⟩ (.inr rfl) (by
        have hle := List.length_filter_le hv.hits list₁.elts
        have hlen : list₁.elts.length = list.elts.length := by
          rw [hlist₁, hl, hbl]
          simp
        simp only at hle ⊢
        omega)
    have hp : passes hv (list.elts.length + 2) ⟨list, none, false, false⟩ = some s' := by
      simp only [passes, hpass, if_true] at hs' ⊢
      exact hs'
    have hout' : s'.out = some none := by
      rw [hout]
      split <;> rfl
    refine ⟨s'.list, ?_, ?_⟩
    · simp only [setHeaderHelper, hmode, hp, hfound rfl, hout', reduceCtorEq, if_false, true_or,
        if_true]
    · have hzero : cleared hv { x with hash := 0 } = { x with hash := 0 } := by
        simp [cleared, hits_zero hhash x]
      have hxc : cleared hv x = { x with hash := 0 } := by simp [cleared, hx]
      have hself' : cleared hv hv.elt = { hv.elt with hash := 0 } := by simp [cleared, hself]
      rw [hlist', hlist₁, hbl]
      simp only [List.map_append, List.map_cons, map_cleared_miss hv ha, hzero, hxc, hself']

theorem helper_remove (pool : Pool) (hv : HeaderSet) (list : HeaderList)
    (hmode : hv.mode = .remove) (hhash : hv.hash ≠ 0) :
    ∃ list', setHeaderHelper pool hv list =
        .ok (.ok, list', if list.elts.any hv.hits then some none else none) ∧
      list'.elts = list.elts.map (cleared hv) := by
  obtain ⟨s', hs', hlist, hout, -⟩ :=
    passes_clear hv hhash (list.elts.length + 2) ⟨list, none, false, false⟩ (.inl hmode) (by
      have hle := List.length_filter_le hv.hits list.elts
      simp only at hle ⊢
      omega)
  refine ⟨s'.list, ?_, hlist⟩
  simp only [setHeaderHelper, hs', hmode, hout, reduceCtorEq, if_false, or_true, if_true]

theorem helper_remove_miss (pool : Pool) (hv : HeaderSet) (list : HeaderList)
    (hmode : hv.mode = .remove) (hmiss : ∀ e ∈ list.elts, hv.hits e = false) :
    setHeaderHelper pool hv list = .ok (.ok, list, none) := by
  have hp : passes hv (list.elts.length + 2) ⟨list, none, false, false⟩ =
      some ⟨list, none, false, false⟩ := passes_miss hv _ ⟨list, none, false, false⟩ hmiss
  simp only [setHeaderHelper, hmode, hp, reduceCtorEq, if_false, or_true, if_true]

/-- An element that is cleared and still hit starts the search again for ever. -/
theorem helper_endless (pool : Pool) (hv : HeaderSet) (list : HeaderList) (hhash : hv.hash = 0)
    (hmode : hv.mode = .remove) (hhit : ∃ e ∈ list.elts, hv.hits e = true) :
    setHeaderHelper pool hv list = .error .endless ∧
      ∀ n, passes hv n ⟨list, none, false, false⟩ = none := by
  have hp : ∀ n, passes hv n ⟨list, none, false, false⟩ = none := fun n =>
    passes_endless hv hhash n ⟨list, none, false, false⟩ (.inl hmode) hhit
  apply And.intro _ hp
  simp only [setHeaderHelper, hp, hmode, reduceCtorEq, if_false]

theorem helper_twice_endless (pool : Pool) (hv : HeaderSet) (list : HeaderList) {a b : List Elt}
    {e : Elt} (hmode : hv.mode = .set) (hhash : hv.hash = 0) (hself : hv.hits hv.elt = true)
    (hl : list.elts = a ++ e :: b) (ha : ∀ x ∈ a, hv.hits x = false) (he : hv.hits e = true)
    (hb : ∃ x ∈ b, hv.hits x = true) : setHeaderHelper pool hv list = .error .endless := by
  rcases split_at_hit hv b with hmiss | ⟨b₁, x, b₂, hbl, hb₁, hx⟩
  · obtain ⟨x, hx, hhit⟩ := hb
    exact absurd (hmiss x hx) (by simp [hhit])
  · obtain ⟨list₁, hpass, hlist₁⟩ := pass_second hv list hmode (by rw [hl, hbl]) ha he hb₁ hx
    have hrest : passes hv (list.elts.length + 1) ⟨list₁, some none, true, true⟩ = none := by
      apply passes_endless hv hhash _ _ (.inr rfl)
      refine ⟨hv.elt, ?_, hself⟩
      rw [hlist₁]
      simp
    have hp : passes hv (list.elts.length + 2) ⟨list, none, false, false⟩ = none := by
      simp only [passes, hpass, if_true] at hrest ⊢
      exact hrest
    simp only [setHeaderHelper, hmode, hp, reduceCtorEq, if_false]

/-! ### The call -/

theorem copyEscaped_eq {kind : EscapeKind} {room : Bool} {dst s : Bytes}
    (h : copyEscaped kind room dst = some s) : s = escape kind dst := by
  simp only [copyEscaped] at h
  split at h
  · cases h
  · exact (Option.some.inj h).symm

theorem SameKey.no_zero {s t : Bytes} (h : SameKey s t) (hs : 0 ∉ s) : 0 ∉ t := by
  intro ht
  have hmem : tolower 0 ∈ s.map tolower := by
    rw [show s.map tolower = t.map tolower from h]
    exact List.mem_map_of_mem ht
  obtain ⟨a, ha, hzero⟩ := List.mem_map.mp hmem
  rw [(tolower_eq_zero 0).mpr rfl, tolower_eq_zero] at hzero
  exact hs (hzero ▸ ha)

/-- What `ngx_http_wasm_set_header` hands to its handler. -/
structure Prepared (key : Bytes) (value : Option Bytes) (mode : Mode) (hv : HeaderSet) : Prop where
  same : SameKey (escape .headerName key) hv.key
  hash : hv.hash = hashKeyLc (escape .headerName key)
  value : hv.value = if mode = .remove then none else value.map (escape .headerValue)
  mode : hv.mode = mode
  zero : 0 ∉ hv.key

theorem serves_iff {key : Bytes} (hkey : 0 ∉ key) (h : Handler) :
    h.serves key = true ↔ SameKey key h.name := by
  simp only [Handler.serves, Bool.and_eq_true, beq_iff_eq]
  constructor
  · rintro ⟨hlen, hcmp⟩
    exact (strncasecmp_iff hlen.symm hkey).mp hcmp
  · intro hsame
    have hlen : key.length = h.name.length := by simpa using congrArg List.length hsame
    exact ⟨hlen, (strncasecmp_iff hlen.symm hkey).mpr hsame⟩

theorem copyValue_eq {pool : Pool} {value value' : Option Bytes}
    (h : copyValue pool value = some value') : value' = value.map (escape .headerValue) := by
  cases value with
  | none => exact (Option.some.inj h).symm
  | some v =>
    obtain ⟨v', hv', rfl⟩ := Option.map_eq_some_iff.mp h
    simp only [copyEscaped_eq hv', Option.map_some]

theorem prepare_spec {pool : Pool} {handlers : List Handler} {key : Bytes} {value : Option Bytes}
    {mode : Mode} {handler : Handler} {hv : HeaderSet}
    (h : prepare pool handlers key value mode = some (handler, hv)) :
    Prepared key value mode hv := by
  simp only [prepare] at h
  split at h
  next key' value' hkey' hvalue' =>
    have hkey := copyEscaped_eq hkey'
    simp only [Option.some.injEq, Prod.mk.injEq] at h
    have hname : SameKey (escape .headerName key)
        ((handlers.find? (·.serves key')).getD ⟨key', .none, .header⟩).name := by
      cases hf : handlers.find? (·.serves key') with
      | none => simpa [hkey] using SameKey.refl _
      | some found =>
        have hserves := List.find?_some hf
        rw [hkey] at hserves
        exact (serves_iff (escape_no_zero .headerName key) found).mp hserves
    obtain ⟨-, rfl⟩ := h
    exact ⟨hname, by simp only [hkey], by simp only [copyValue_eq hvalue'], rfl,
      hname.no_zero (escape_no_zero _ _)⟩
  next => cases h

theorem Prepared.hits_iff {key : Bytes} {value : Option Bytes} {mode : Mode} {hv : HeaderSet}
    (h : Prepared key value mode hv) (e : Elt) :
    hv.hits e = true ↔ e.hash = hashKeyLc (escape .headerName key) ∧
      SameKey (escape .headerName key) e.key := by
  simp only [HeaderSet.hits, Bool.and_eq_true, beq_iff_eq, h.hash, keyIs_iff h.zero]
  apply and_congr_right
  intro _
  constructor
  · intro hk
    exact h.same.trans hk
  · intro hk
    exact h.same.symm.trans hk

theorem Prepared.hits_elt {key : Bytes} {value : Option Bytes} {mode : Mode} {hv : HeaderSet}
    (h : Prepared key value mode hv) : hv.hits hv.elt = true :=
  (h.hits_iff hv.elt).mpr ⟨h.hash, h.same⟩

/-! ### Names -/

theorem escapes_tolower : ∀ c : UInt8,
    EscapeKind.escapes .headerName (tolower c) = EscapeKind.escapes .headerName c :=
  byte_forall (by decide)

theorem escape_nil_iff {kind : EscapeKind} {s : Bytes} : escape kind s = [] ↔ s = [] := by
  cases s with
  | nil => simp [escape]
  | cons c s =>
    rw [escape]
    split <;> simp

theorem escape_eq {kind : EscapeKind} {s : Bytes} (h : ∀ c ∈ s, kind.escapes c = false) :
    escape kind s = s := by
  induction s with
  | nil => rfl
  | cons c s ih =>
    have hc := h c (List.mem_cons_self ..)
    rw [escape, hc, ih fun d hd => h d (List.mem_cons_of_mem _ hd)]
    rfl

theorem escape_percent {kind : EscapeKind} {s : Bytes} {c : UInt8} (hc : c ∈ s)
    (he : kind.escapes c = true) : (37 : UInt8) ∈ escape kind s := by
  induction s with
  | nil => cases hc
  | cons d s ih =>
    rw [escape]
    split
    · exact List.mem_cons_self ..
    · next hd =>
      rcases List.mem_cons.mp hc with rfl | hc
      · exact absurd he hd
      · exact List.mem_cons_of_mem _ (ih hc)

/-- A string without a percent sign is the escape of itself only. -/
theorem escape_of_no_percent {kind : EscapeKind} {s : Bytes} (h : (37 : UInt8) ∉ escape kind s) :
    escape kind s = s := by
  refine escape_eq fun c hc => ?_
  by_contra hn
  exact h (escape_percent hc (by simpa using hn))

theorem sameKey_char {name s : Bytes} (h : SameKey name s) {c : UInt8} (hc : c ∈ s) :
    ∃ d ∈ name, tolower d = tolower c := by
  have hm : tolower c ∈ name.map tolower := by
    rw [show name.map tolower = s.map tolower from h]
    exact List.mem_map_of_mem hc
  obtain ⟨d, hd, he⟩ := List.mem_map.mp hm
  exact ⟨d, hd, he⟩

/-- A name that escaping leaves alone, and that is no result of it either. -/
def Plain (name : Bytes) : Prop :=
  ∀ c ∈ name, c ≠ 37 ∧ EscapeKind.escapes .headerName c = false

theorem Plain.unescaped {name key : Bytes} (hname : Plain name) (h : SameKey name key) :
    ∀ c ∈ key, EscapeKind.escapes .headerName c = false := by
  intro c hc
  obtain ⟨d, hd, he⟩ := sameKey_char h hc
  rw [← escapes_tolower, ← he, escapes_tolower]
  exact (hname d hd).2

theorem sameKey_escape {name key : Bytes} (hname : Plain name) :
    SameKey name (escape .headerName key) ↔ SameKey name key := by
  constructor
  · intro h
    have hpercent : (37 : UInt8) ∉ escape .headerName key := by
      intro hm
      obtain ⟨d, hd, he⟩ := sameKey_char h hm
      have hall : ∀ d : UInt8, tolower d = tolower 37 → d = 37 := byte_forall (by decide)
      exact (hname d hd).1 (hall d he)
    rwa [escape_of_no_percent hpercent] at h
  · intro h
    rwa [escape_eq (hname.unescaped h)]

theorem prepare_handler {pool : Pool} {handlers : List Handler} {key : Bytes} {value : Option Bytes}
    {mode : Mode} {h : Handler} {hv : HeaderSet}
    (hp : prepare pool handlers key value mode = some (h, hv)) :
    (h ∈ handlers ∧ SameKey (escape .headerName key) h.name) ∨
      (h.setter = .header ∧ ∀ g ∈ handlers, ¬ SameKey (escape .headerName key) g.name) := by
  simp only [prepare] at hp
  split at hp
  · next key' value' hkey hvalue =>
    have hkey := copyEscaped_eq hkey
    simp only [Option.some.injEq, Prod.mk.injEq] at hp
    obtain ⟨hp, -⟩ := hp
    rw [hkey] at hp
    cases hf : handlers.find? (·.serves (escape .headerName key)) with
    | none =>
      rw [hf] at hp
      refine .inr ⟨by rw [← hp]; rfl, fun g hg hs => ?_⟩
      exact List.find?_eq_none.mp hf g hg ((serves_iff (escape_no_zero _ _) g).mpr hs)
    | some found =>
      rw [hf] at hp
      obtain rfl : found = h := hp
      exact .inl ⟨List.mem_of_find?_eq_some hf,
        (serves_iff (escape_no_zero _ _) found).mp (List.find?_some hf)⟩
  · cases hp

/-! ### A replaced header -/

def named (key : Bytes) (e : Elt) : Bool := e.hash != 0 && decide (SameKey key e.key)

/-- The values of the live elements with key `key`. -/
def valuesOf (key : Bytes) (l : List Elt) : List Bytes := (l.filter (named key)).map Elt.value

def othersOf (key : Bytes) (l : List Elt) : List Elt :=
  l.filter fun e => !decide (SameKey key e.key)

/-- `ngx_hash_key_lc` is the hash of every element in use. -/
def Hashed (list : HeaderList) : Prop := ∀ e ∈ list.live, e.hash = hashKeyLc e.key

structure Replaced (list list' : HeaderList) (key value : Bytes) : Prop where
  values : valuesOf key list'.elts = [value]
  others : othersOf key list'.elts = othersOf key list.elts

theorem named_iff {list : HeaderList} (hashed : Hashed list) {key : Bytes}
    {value : Option Bytes} {mode : Mode} {hv : HeaderSet} (hp : Prepared key value mode hv)
    (hhash : hv.hash ≠ 0) {e : Elt} (he : e ∈ list.elts) :
    named (escape .headerName key) e = hv.hits e := by
  rw [Bool.eq_iff_iff, hp.hits_iff]
  simp only [named, Bool.and_eq_true, bne_iff_ne, decide_eq_true_eq]
  constructor
  · rintro ⟨hlive, hsame⟩
    have hmem : e ∈ list.live := by
      simp only [HeaderList.live, List.mem_filter, bne_iff_ne]
      exact ⟨he, hlive⟩
    exact ⟨(hashed e hmem).trans (hashKeyLc_congr hsame.symm), hsame⟩
  · rintro ⟨heq, hsame⟩
    rw [← hp.hash] at heq
    exact ⟨heq ▸ hhash, hsame⟩

theorem valuesOf_append (key : Bytes) (a b : List Elt) :
    valuesOf key (a ++ b) = valuesOf key a ++ valuesOf key b := by
  simp only [valuesOf, List.filter_append, List.map_append]

theorem valuesOf_miss {key : Bytes} {l : List Elt} (h : ∀ e ∈ l, named key e = false) :
    valuesOf key l = [] := by
  have hnil : l.filter (named key) = [] := by
    apply List.filter_eq_nil_iff.mpr
    intro e he
    simp [h e he]
  rw [valuesOf, hnil]
  rfl

theorem valuesOf_cons (key : Bytes) (e : Elt) (l : List Elt) :
    valuesOf key (e :: l) =
      if named key e = true then e.value :: valuesOf key l else valuesOf key l := by
  simp only [valuesOf, List.filter_cons]
  split <;> rfl

theorem othersOf_append (key : Bytes) (a b : List Elt) :
    othersOf key (a ++ b) = othersOf key a ++ othersOf key b := by
  simp only [othersOf, List.filter_append]

theorem othersOf_same {key : Bytes} {e : Elt} (h : SameKey key e.key) (l : List Elt) :
    othersOf key (e :: l) = othersOf key l := by
  simp [othersOf, h]

theorem othersOf_cleared {key : Bytes} {value : Option Bytes} {mode : Mode} {hv : HeaderSet}
    (hp : Prepared key value mode hv) (l : List Elt) :
    othersOf (escape .headerName key) (l.map (cleared hv)) =
      othersOf (escape .headerName key) l := by
  induction l with
  | nil => rfl
  | cons e l ih =>
    cases he : hv.hits e with
    | false =>
      have hsame : cleared hv e = e := by simp [cleared, he]
      rw [List.map_cons, hsame]
      simp only [othersOf] at ih ⊢
      rw [List.filter_cons, List.filter_cons, ih]
    | true =>
      have hkey := ((hp.hits_iff e).mp he).2
      have hclear : SameKey (escape .headerName key) (cleared hv e).key := by
        simpa [cleared, he] using hkey
      rw [List.map_cons, othersOf_same hclear, othersOf_same hkey, ih]

/-- The three ways a SET returns `NGX_OK`. -/
inductive SetEffect (hv : HeaderSet) (l l' : List Elt) : Prop where
  | added (miss : ∀ e ∈ l, hv.hits e = false) (result : l' = l ++ [hv.elt])
  | updated (a : List Elt) (e : Elt) (b : List Elt) (eq : l = a ++ e :: b)
      (before : ∀ x ∈ a, hv.hits x = false) (hit : hv.hits e = true)
      (after : ∀ x ∈ b, hv.hits x = false) (result : l' = a ++ hv.elt :: b)
  | cleared (a : List Elt) (e : Elt) (b : List Elt) (hash : hv.hash ≠ 0) (eq : l = a ++ e :: b)
      (before : ∀ x ∈ a, hv.hits x = false) (hit : hv.hits e = true)
      (after : ∃ x ∈ b, hv.hits x = true)
      (result : l' = a ++ { hv.elt with hash := 0 } :: b.map (cleared hv))

theorem newHeader_elts {pool : Pool} {hv : HeaderSet} {list list' : HeaderList}
    {out : Option (Option ℕ)} (h : newHeader pool hv list = (.ok, list', out)) :
    list'.elts = list.elts ++ [hv.elt] ∧ out = some (some list.elts.length) := by
  simp only [newHeader] at h
  split at h
  · split at h
    · simp only [Prod.mk.injEq, true_and] at h
      obtain ⟨rfl, rfl⟩ := h
      exact ⟨HeaderList.push_elts .., rfl⟩
    · cases h
  · cases h

theorem set_effect {pool : Pool} {hv : HeaderSet} {list list' : HeaderList}
    {out : Option (Option ℕ)} (hmode : hv.mode = .set) (hself : hv.hits hv.elt = true)
    (h : setHeaderHelper pool hv list = .ok (.ok, list', out)) :
    SetEffect hv list.elts list'.elts := by
  rcases split_at_hit hv list.elts with hmiss | ⟨a, e, b, hl, ha, he⟩
  · rw [helper_new pool hv list hmode hmiss] at h
    exact .added hmiss (newHeader_elts (Except.ok.inj h)).1
  · by_cases hb : ∃ x ∈ b, hv.hits x = true
    · by_cases hhash : hv.hash = 0
      · rw [helper_twice_endless pool hv list hmode hhash hself hl ha he hb] at h
        cases h
      · obtain ⟨list₁, heq, hlist₁⟩ := helper_twice pool hv list hmode hhash hself hl ha he hb
        rw [heq] at h
        simp only [Except.ok.injEq, Prod.mk.injEq, true_and] at h
        rw [← h.1]
        exact .cleared a e b hhash hl ha he hb hlist₁
    · have hb' : ∀ x ∈ b, hv.hits x = false := by
        intro x hx
        cases hhit : hv.hits x with
        | false => rfl
        | true => exact absurd ⟨x, hx, hhit⟩ hb
      rw [helper_update pool hv list hmode hl ha he hb'] at h
      simp only [Except.ok.injEq, Prod.mk.injEq, true_and] at h
      rw [← h.1]
      refine .updated a e b hl ha he hb' ?_
      rw [HeaderList.assign_elts, hl, set_at]

theorem set_others {key : Bytes} {value : Option Bytes} {hv : HeaderSet} {l l' : List Elt}
    (hp : Prepared key value .set hv) (h : SetEffect hv l l') :
    othersOf (escape .headerName key) l' = othersOf (escape .headerName key) l := by
  have hself : SameKey (escape .headerName key) hv.elt.key := hp.same
  cases h with
  | added miss result =>
    rw [result, othersOf_append, othersOf_same hself]
    exact List.append_nil _
  | updated a e b eq before hit after result =>
    have hkey := ((hp.hits_iff e).mp hit).2
    rw [result, eq, othersOf_append, othersOf_append, othersOf_same hself, othersOf_same hkey]
  | cleared a e b hash eq before hit after result =>
    have hkey := ((hp.hits_iff e).mp hit).2
    rw [result, eq, othersOf_append, othersOf_append, othersOf_same hkey, ← othersOf_cleared hp b]
    have hzero : SameKey (escape .headerName key) { hv.elt with hash := 0 }.key := hself
    rw [othersOf_same hzero]

theorem named_zero {key : Bytes} {list : HeaderList} (hashed : Hashed list)
    (hzero : hashKeyLc key = 0) : ∀ e ∈ list.elts, named key e = false := by
  intro e he
  cases hn : named key e with
  | false => rfl
  | true =>
    simp only [named, Bool.and_eq_true, bne_iff_ne, decide_eq_true_eq] at hn
    have hlive : e ∈ list.live := by
      simp only [HeaderList.live, List.mem_filter, bne_iff_ne]
      exact ⟨he, hn.1⟩
    exact absurd ((hashed e hlive).trans ((hashKeyLc_congr hn.2.symm).trans hzero)) hn.1

/-- The values after a SET whose key has hash zero: the new element is not in use. -/
theorem set_values_zero {key : Bytes} {value : Option Bytes} {hv : HeaderSet}
    {list list' : HeaderList} (hashed : Hashed list) (hp : Prepared key value .set hv)
    (hzero : hv.hash = 0) (h : SetEffect hv list.elts list'.elts) :
    valuesOf (escape .headerName key) list'.elts = [] := by
  have hkey : hashKeyLc (escape .headerName key) = 0 := by rw [← hp.hash, hzero]
  have hold := named_zero hashed hkey
  have hnew : named (escape .headerName key) hv.elt = false := by
    simp [named, HeaderSet.elt, hzero]
  apply valuesOf_miss
  intro x hx
  cases h with
  | added miss result =>
    rw [result] at hx
    rcases List.mem_append.mp hx with hx | hx
    · exact hold x hx
    · rw [List.mem_singleton.mp hx]
      exact hnew
  | updated a e b eq before hit after result =>
    rw [result] at hx
    rcases List.mem_append.mp hx with hx | hx
    · exact hold x (by rw [eq]; exact List.mem_append_left _ hx)
    · rcases List.mem_cons.mp hx with rfl | hx
      · exact hnew
      · exact hold x (by rw [eq]; exact List.mem_append_right _ (List.mem_cons_of_mem _ hx))
  | cleared a e b hash => exact absurd hzero hash

/-- The values after a SET whose key has a hash: the second element of the key is what
takes the new value away again. -/
theorem set_values {key : Bytes} {value : Option Bytes} {hv : HeaderSet}
    {list list' : HeaderList} (hashed : Hashed list) (hp : Prepared key value .set hv)
    (hhash : hv.hash ≠ 0) (h : SetEffect hv list.elts list'.elts) :
    valuesOf (escape .headerName key) list'.elts =
      if (valuesOf (escape .headerName key) list.elts).length ≤ 1 then [hv.elt.value] else [] := by
  have hnew : named (escape .headerName key) hv.elt = true := by
    simp only [named, HeaderSet.elt, Bool.and_eq_true, bne_iff_ne]
    exact ⟨hhash, decide_eq_true hp.same⟩
  have hnamed : ∀ x ∈ list.elts, named (escape .headerName key) x = hv.hits x :=
    fun x hx => named_iff hashed hp hhash hx
  have hmiss : ∀ l : List Elt, (∀ x ∈ l, x ∈ list.elts) → (∀ x ∈ l, hv.hits x = false) →
      valuesOf (escape .headerName key) l = [] := by
    intro l hsub hl
    apply valuesOf_miss
    intro x hx
    rw [hnamed x (hsub x hx), hl x hx]
  cases h with
  | added miss result =>
    rw [result, valuesOf_append, hmiss list.elts (fun _ hx => hx) miss, valuesOf_cons,
      if_pos hnew]
    simp [valuesOf]
  | updated a e b eq before hit after result =>
    have ha := hmiss a (fun x hx => by rw [eq]; exact List.mem_append_left _ hx) before
    have hb := hmiss b (fun x hx => by
      rw [eq]; exact List.mem_append_right _ (List.mem_cons_of_mem _ hx)) after
    have he : named (escape .headerName key) e = true := by
      rw [hnamed e (by rw [eq]; simp), hit]
    rw [result, eq, valuesOf_append, valuesOf_append, valuesOf_cons, valuesOf_cons, if_pos hnew,
      if_pos he, ha, hb]
    simp
  | cleared a e b hash eq before hit after result =>
    have ha := hmiss a (fun x hx => by rw [eq]; exact List.mem_append_left _ hx) before
    have he : named (escape .headerName key) e = true := by
      rw [hnamed e (by rw [eq]; simp), hit]
    have hsub : ∀ x ∈ b, x ∈ list.elts := fun x hx => by
      rw [eq]; exact List.mem_append_right _ (List.mem_cons_of_mem _ hx)
    have hmany : ¬ (valuesOf (escape .headerName key) list.elts).length ≤ 1 := by
      obtain ⟨x, hx, hxhit⟩ := after
      have hpos : 0 < (valuesOf (escape .headerName key) b).length := by
        rw [valuesOf, List.length_map]
        apply List.length_pos_of_mem (List.mem_filter.mpr ⟨hx, _⟩)
        rw [hnamed x (hsub x hx), hxhit]
      rw [eq, valuesOf_append, valuesOf_cons, if_pos he, ha]
      simp only [List.nil_append, List.length_cons]
      omega
    have hrest : valuesOf (escape .headerName key) (b.map (cleared hv)) = [] := by
      apply valuesOf_miss
      intro y hy
      obtain ⟨x, hx, rfl⟩ := List.mem_map.mp hy
      cases hxhit : hv.hits x with
      | true => simp [named, cleared, hxhit]
      | false =>
        have hsame : cleared hv x = x := by simp [cleared, hxhit]
        rw [hsame, hnamed x (hsub x hx), hxhit]
    have hzero : named (escape .headerName key) { hv.elt with hash := 0 } = false := by
      simp [named]
    rw [if_neg hmany, result, valuesOf_append, valuesOf_cons, ha, hrest, hzero]
    rfl

/-- A SET that comes to the helper replaces the header exactly when its key has a hash
and at most one element of that key is in use. -/
theorem set_replaces_iff {pool : Pool} {handlers : List Handler} {key value : Bytes}
    {handler : Handler} {hv : HeaderSet} {list list' : HeaderList} {out : Option (Option ℕ)}
    (hashed : Hashed list)
    (prepared : prepare pool handlers key (some value) .set = some (handler, hv))
    (result : setHeaderHelper pool hv list = .ok (.ok, list', out)) :
    Replaced list list' (escape .headerName key) (escape .headerValue value) ↔
      hashKeyLc (escape .headerName key) ≠ 0 ∧
        (valuesOf (escape .headerName key) list.elts).length ≤ 1 := by
  have hp := prepare_spec prepared
  have hvalue : hv.elt.value = escape .headerValue value := by
    simp [HeaderSet.elt, hp.value]
  have heffect := set_effect hp.mode hp.hits_elt result
  have hothers := set_others hp heffect
  constructor
  · intro hr
    by_cases hzero : hv.hash = 0
    · have hnone := set_values_zero hashed hp hzero heffect
      rw [hr.values] at hnone
      cases hnone
    · have hvalues := set_values hashed hp hzero heffect
      rw [hr.values] at hvalues
      apply And.intro (by rw [← hp.hash]; exact hzero)
      by_contra hmany
      rw [if_neg hmany] at hvalues
      cases hvalues
  · rintro ⟨hhash, hone⟩
    have hvalues := set_values hashed hp (by rw [hp.hash]; exact hhash) heffect
    rw [if_pos hone, hvalue] at hvalues
    exact ⟨hvalues, hothers⟩

def roomy : Pool := ⟨20, true, true, true, true⟩

def single : HeaderList := ⟨[⟨97, [97], [49]⟩], [], by simp⟩

def setA : HeaderSet := ⟨[97], some [110], 97, .set⟩

theorem set_replaces_single :
    Replaced single (single.assign 0 setA.elt) (escape .headerName [97])
        (escape .headerValue [110]) ↔
      hashKeyLc (escape .headerName [97]) ≠ 0 ∧
        (valuesOf (escape .headerName [97]) single.elts).length ≤ 1 := by
  have hashed : Hashed single := by
    unfold Hashed
    decide
  have prepared : prepare roomy [] [97] (some [110]) .set =
      some (⟨[97], .none, .header⟩, setA) := rfl
  have result : setHeaderHelper roomy setA single =
      .ok (.ok, single.assign 0 setA.elt, some (some 0)) := rfl
  exact set_replaces_iff hashed prepared result

/-- `a: 1`, `b: 2` and, in a part of its own, `A: 3`. -/
def twice : HeaderList := ⟨[⟨97, [97], [49]⟩, ⟨98, [98], [50]⟩], [[⟨97, [65], [51]⟩]], by simp⟩

/-- A SET of `a` clears both elements and returns `NGX_OK`. -/
theorem second_element_clears_both :
    Hashed twice ∧ prepare roomy [] [97] (some [110]) .set =
        some (⟨[97], .none, .header⟩, setA) ∧
      ∃ list', setHeaderHelper roomy setA twice = .ok (.ok, list', some none) ∧
        ¬ Replaced twice list' (escape .headerName [97]) (escape .headerValue [110]) := by
  refine ⟨by unfold Hashed; decide, rfl, _, rfl, ?_⟩
  intro h
  exact absurd h.values (by decide)

end NgxWasm.Http.HeaderSet
