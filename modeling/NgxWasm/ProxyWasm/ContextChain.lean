import NgxWasm.ProxyWasm.Context

/-!
# Entries of a ready context

A context that is ready has one entry for each filter id, in order, exactly when
no creation behind the first one failed before its entry was pushed.
-/

namespace NgxWasm.ProxyWasm.ContextChain
open NgxWasm.ProxyWasm.Context

def Aligned (lookupFilter : ℕ → Option Filter) (ids : List ℕ) (pwexecs : List Exec) : Prop :=
  pwexecs.length = ids.length ∧
    ∀ i (e : Exec), pwexecs[i]? = some e → e.index = i ∧
      ∃ id, ids[i]? = some id ∧ lookupFilter id = some e.filter

def rootStarts (o : Outcome) (filter : Filter) : Bool :=
  o.rexecAlloc && (!filter.acl || (o.aclAlloc && o.aclInit)) && o.rexecLogAlloc &&
    o.parentAlloc && o.rootContextCreate && o.pluginStart

/-- The creation fails before `ngx_array_push` has returned an entry. -/
def FailsEarly (isolation : Isolation) (o : Outcome) (filter : Filter) (w : Worker) : Prop :=
  chooseStore isolation o = false ∨ o.arrayPush = false ∨
    ∀ ictx, o.getInstance = some ictx →
      filter.id ∉ w.rootCtxs ictx ∧ rootStarts o filter = false

/-! ### One creation -/

theorem startRoot_ok (o : Outcome) (filter : Filter) (w : Worker) (ictx : ℕ)
    (h : filter.id ∈ w.rootCtxs ictx ∨ rootStarts o filter = true) :
    ∃ w', startRoot o filter w ictx = .ok w' ∧ w'.treeCtxs = w.treeCtxs ∧ w'.nextId = w.nextId := by
  unfold startRoot
  by_cases hm : filter.id ∈ w.rootCtxs ictx
  · exact ⟨w, by rw [if_pos hm], rfl, rfl⟩
  · have hr := h.resolve_left hm
    simp only [rootStarts, Bool.and_eq_true, Bool.or_eq_true, Bool.not_eq_true'] at hr
    obtain ⟨⟨⟨⟨⟨h1, h2⟩, h3⟩, h4⟩, h5⟩, h6⟩ := hr
    refine ⟨{ w with
      rootCtxs := Function.update w.rootCtxs ictx (filter.id :: w.rootCtxs ictx) }, ?_, rfl, rfl⟩
    rw [if_neg hm]
    rcases h2 with h2 | ⟨h2, h2'⟩ <;> simp [*]

theorem startRoot_error (o : Outcome) (filter : Filter) (w : Worker) (ictx : ℕ)
    (hm : filter.id ∉ w.rootCtxs ictx) (hr : rootStarts o filter = false) :
    ∃ e, startRoot o filter w ictx = .error e := by
  unfold startRoot
  rw [if_neg hm]
  split_ifs with h1 h2 h3 h4 h5 h6 h7
  case neg => simp_all [rootStarts]
  all_goals exact ⟨_, rfl⟩

theorem prepare_ok {isolation : Isolation} {o : Outcome} {filter : Filter} {w : Worker} {ictx : ℕ}
    (hs : chooseStore isolation o = true) (hi : o.getInstance = some ictx)
    (hr : filter.id ∈ w.rootCtxs ictx ∨ rootStarts o filter = true) :
    ∃ w', prepare isolation o filter w = .ok (ictx, w') ∧ w'.treeCtxs = w.treeCtxs := by
  obtain ⟨w', hw, ht, -⟩ := startRoot_ok o filter w ictx hr
  exact ⟨w', by simp [prepare, hs, hi, hw], ht⟩

theorem prepare_error {isolation : Isolation} {o : Outcome} {filter : Filter} {w : Worker}
    (h : chooseStore isolation o = false ∨ ∀ ictx, o.getInstance = some ictx →
      filter.id ∉ w.rootCtxs ictx ∧ rootStarts o filter = false) :
    ∃ e, prepare isolation o filter w = .error e := by
  cases hs : chooseStore isolation o with
  | false => exact ⟨.unknown, by simp [prepare, hs]⟩
  | true =>
    cases hi : o.getInstance with
    | none => exact ⟨.unknown, by simp [prepare, hs, hi]⟩
    | some ictx =>
      obtain ⟨hm, hr⟩ := (h.resolve_left (by simp [hs])) ictx hi
      obtain ⟨e, he⟩ := startRoot_error o filter w ictx hm hr
      exact ⟨e, by simp [prepare, hs, hi, he]⟩

theorem createContext_early {isolation : Isolation} {o : Outcome} {filter : Filter} {w : Worker}
    (hfresh : ∀ ictx, w.nextId ∉ w.treeCtxs ictx) (h : FailsEarly isolation o filter w)
    (pwexecs : List Exec) :
    (createContext isolation o filter w pwexecs).2.1 = pwexecs ∧
      ∃ e, (createContext isolation o filter w pwexecs).2.2 = .error e := by
  by_cases hp : chooseStore isolation o = false ∨ ∀ ictx, o.getInstance = some ictx →
      filter.id ∉ w.rootCtxs ictx ∧ rootStarts o filter = false
  · obtain ⟨e, he⟩ := prepare_error hp
    simp only [createContext, he]
    exact ⟨trivial, e, rfl⟩
  · have hpush : o.arrayPush = false := by
      rcases h with h | h | h
      · exact absurd (.inl h) hp
      · exact h
      · exact absurd (.inr h) hp
    simp only [not_or, Bool.not_eq_false, not_forall] at hp
    obtain ⟨hs, ictx, hi, hr⟩ := hp
    have hroot : filter.id ∈ w.rootCtxs ictx ∨ rootStarts o filter = true := by
      by_cases hm : filter.id ∈ w.rootCtxs ictx
      · exact .inl hm
      · exact .inr (by simpa [hm] using hr)
    obtain ⟨w', hok, ht⟩ := prepare_ok hs hi hroot
    have hn : w.nextId ∉ w'.treeCtxs ictx := by rw [ht]; exact hfresh ictx
    simp only [createContext, hok, hn, hpush, if_false, Bool.not_false, if_true]
    exact ⟨trivial, _, rfl⟩

theorem createContext_pushes {isolation : Isolation} {o : Outcome} {filter : Filter} {w : Worker}
    (hfresh : ∀ ictx, w.nextId ∉ w.treeCtxs ictx) (h : ¬ FailsEarly isolation o filter w)
    (pwexecs : List Exec) :
    (∃ e : Exec, (createContext isolation o filter w pwexecs).2.1 = pwexecs ++ [e] ∧
      e.index = pwexecs.length ∧ e.filter = filter) ∧
    ((∃ id, (createContext isolation o filter w pwexecs).2.2 = .ok id) ↔
      o.logAlloc = true ∧ o.contextCreate = true) := by
  simp only [FailsEarly, not_or, Bool.not_eq_false, not_forall] at h
  obtain ⟨hs, hp, ictx, hi, hroot⟩ := h
  have hroot : filter.id ∈ w.rootCtxs ictx ∨ rootStarts o filter = true := by
    by_cases hm : filter.id ∈ w.rootCtxs ictx
    · exact .inl hm
    · exact .inr (by simpa [hm] using hroot)
  obtain ⟨w', hok, ht⟩ := prepare_ok hs hi hroot
  have hn : w.nextId ∉ w'.treeCtxs ictx := by rw [ht]; exact hfresh ictx
  simp only [createContext, hok, hn, hp, if_false, Bool.not_true, Bool.false_eq_true]
  cases hl : o.logAlloc with
  | false => exact ⟨⟨_, rfl, rfl, rfl⟩, by simp⟩
  | true =>
    cases hc : o.contextCreate with
    | false => exact ⟨⟨_, rfl, rfl, rfl⟩, by simp⟩
    | true => exact ⟨⟨_, rfl, rfl, rfl⟩, by simp⟩

theorem incNextId_fresh (w : Worker) (ictx : ℕ) :
    (incNextId w).nextId ∉ (incNextId w).treeCtxs ictx := by
  intro h
  have hle : w.nextId + 1 ≤ w.nextId := w.treeCtxs_le ictx _ h
  omega

/-! ### The loop -/

section Loop

variable (lookupFilter : ℕ → Option Filter) (isolation : Isolation) (outcome : ℕ → Outcome)

/-- No creation from position `i` on fails early, each judged in the state it starts from. -/
def NoGap : ℕ → List ℕ → Worker → List Exec → Prop
  | _, [], _, _ => True
  | i, id :: ids, w, pwexecs =>
    match lookupFilter id with
    | none => True
    | some filter =>
      ¬ FailsEarly isolation (outcome i) filter (incNextId w) ∧
        NoGap (i + 1) ids (createContext isolation (outcome i) filter (incNextId w) pwexecs).1
          (createContext isolation (outcome i) filter (incNextId w) pwexecs).2.1

theorem ctxLoop_cons (i : ℕ) (ids : List ℕ) (w : Worker) (pwexecs : List Exec) (p : ℕ) {id : ℕ}
    {filter : Filter} (hl : lookupFilter id = some filter) :
    ∃ p', ctxLoop lookupFilter isolation outcome i (id :: ids) w pwexecs (some p) =
      ctxLoop lookupFilter isolation outcome (i + 1) ids
        (createContext isolation (outcome i) filter (incNextId w) pwexecs).1
        (createContext isolation (outcome i) filter (incNextId w) pwexecs).2.1 (some p') := by
  simp only [ctxLoop, hl]
  cases (createContext isolation (outcome i) filter (incNextId w) pwexecs).2.2 with
  | ok p' => exact ⟨p', rfl⟩
  | error e => exact ⟨p, rfl⟩

theorem ctxLoop_true (ids : List ℕ) : ∀ (i : ℕ) (w : Worker) (pwexecs : List Exec) (p : ℕ),
    (ctxLoop lookupFilter isolation outcome i ids w pwexecs (some p)).2.2 = true ↔
      ∀ id ∈ ids, lookupFilter id ≠ none := by
  induction ids with
  | nil => intro i w pwexecs p; simp [ctxLoop]
  | cons id ids ih =>
    intro i w pwexecs p
    cases hl : lookupFilter id with
    | none => simp [ctxLoop, hl]
    | some filter =>
      obtain ⟨p', hp⟩ := ctxLoop_cons lookupFilter isolation outcome i ids w pwexecs p hl
      rw [hp, ih]
      simp [hl]

theorem createContext_length (o : Outcome) (filter : Filter) (w : Worker) (pwexecs : List Exec) :
    (createContext isolation o filter (incNextId w) pwexecs).2.1.length ≤ pwexecs.length + 1 := by
  by_cases hf : FailsEarly isolation o filter (incNextId w)
  · rw [(createContext_early (incNextId_fresh w) hf pwexecs).1]
    omega
  · obtain ⟨⟨e, he, -⟩, -⟩ := createContext_pushes (incNextId_fresh w) hf pwexecs
    simp [he]

theorem ctxLoop_length (ids : List ℕ) (hk : ∀ id ∈ ids, lookupFilter id ≠ none) :
    ∀ (i : ℕ) (w : Worker) (pwexecs : List Exec) (p : ℕ),
      (ctxLoop lookupFilter isolation outcome i ids w pwexecs (some p)).2.1.length ≤
          pwexecs.length + ids.length ∧
        ((ctxLoop lookupFilter isolation outcome i ids w pwexecs (some p)).2.1.length =
          pwexecs.length + ids.length → NoGap lookupFilter isolation outcome i ids w pwexecs) := by
  induction ids with
  | nil => intro i w pwexecs p; simp [ctxLoop, NoGap]
  | cons id ids ih =>
    intro i w pwexecs p
    cases hl : lookupFilter id with
    | none => exact absurd hl (hk id (List.mem_cons_self ..))
    | some filter =>
      obtain ⟨p', hp⟩ := ctxLoop_cons lookupFilter isolation outcome i ids w pwexecs p hl
      obtain ⟨hle, hgap⟩ := ih (fun j hj => hk j (List.mem_cons_of_mem _ hj)) (i + 1)
        (createContext isolation (outcome i) filter (incNextId w) pwexecs).1
        (createContext isolation (outcome i) filter (incNextId w) pwexecs).2.1 p'
      have hone := createContext_length isolation (outcome i) filter w pwexecs
      rw [hp, List.length_cons]
      refine ⟨by omega, fun heq => ?_⟩
      simp only [NoGap, hl]
      refine ⟨fun hf => ?_, hgap (by omega)⟩
      rw [(createContext_early (incNextId_fresh w) hf pwexecs).1] at hle heq
      omega

theorem aligned_snoc {lookupFilter : ℕ → Option Filter} {ids : List ℕ} {pwexecs : List Exec}
    (h : Aligned lookupFilter ids pwexecs) {id : ℕ} {e : Exec} (hi : e.index = pwexecs.length)
    (hl : lookupFilter id = some e.filter) :
    Aligned lookupFilter (ids ++ [id]) (pwexecs ++ [e]) := by
  refine ⟨by simp [h.1], fun i f hf => ?_⟩
  by_cases hlt : i < pwexecs.length
  · rw [List.getElem?_append_left hlt] at hf
    obtain ⟨hx, j, hj, hlf⟩ := h.2 i f hf
    exact ⟨hx, j, by rw [List.getElem?_append_left (h.1 ▸ hlt)]; exact hj, hlf⟩
  · rw [List.getElem?_append_right (Nat.le_of_not_lt hlt)] at hf
    have hz : i - pwexecs.length = 0 := by
      by_contra hne
      rw [List.getElem?_eq_none (by simp; omega)] at hf
      exact absurd hf (by simp)
    rw [hz] at hf
    obtain rfl : e = f := by simpa using hf
    refine ⟨by omega, id, ?_, hl⟩
    rw [List.getElem?_append_right (by have := h.1; omega), ← h.1, hz]
    rfl

theorem ctxLoop_aligned (ids : List ℕ) (hk : ∀ id ∈ ids, lookupFilter id ≠ none) :
    ∀ (i : ℕ) (w : Worker) (pre : List ℕ) (pwexecs : List Exec) (p : ℕ),
      Aligned lookupFilter pre pwexecs → NoGap lookupFilter isolation outcome i ids w pwexecs →
      Aligned lookupFilter (pre ++ ids)
        (ctxLoop lookupFilter isolation outcome i ids w pwexecs (some p)).2.1 := by
  induction ids with
  | nil => intro i w pre pwexecs p h _; simpa [ctxLoop] using h
  | cons id ids ih =>
    intro i w pre pwexecs p h hgap
    cases hl : lookupFilter id with
    | none => exact absurd hl (hk id (List.mem_cons_self ..))
    | some filter =>
      obtain ⟨p', hp⟩ := ctxLoop_cons lookupFilter isolation outcome i ids w pwexecs p hl
      simp only [NoGap, hl] at hgap
      obtain ⟨⟨e, he, hidx, hfil⟩, -⟩ := createContext_pushes (incNextId_fresh w) hgap.1 pwexecs
      have hal := aligned_snoc h hidx (hfil ▸ hl)
      rw [hp, List.append_cons]
      refine ih (fun j hj => hk j (List.mem_cons_of_mem _ hj)) _ _ _ _ p' ?_ hgap.2
      rw [he]
      exact hal

def FirstFails (ids : List ℕ) (w : Worker) : Prop :=
  ∃ id filter, ids.head? = some id ∧ lookupFilter id = some filter ∧
    (FailsEarly isolation (outcome 0) filter (incNextId w) ∨
      (outcome 0).logAlloc = false ∨ (outcome 0).contextCreate = false)

theorem ctxLoop_first (ids : List ℕ) (w : Worker) {id : ℕ} {filter : Filter}
    (hl : lookupFilter id = some filter) :
    FirstFails lookupFilter isolation outcome (id :: ids) w ∧
        (ctxLoop lookupFilter isolation outcome 0 (id :: ids) w [] none).2.2 = false ∨
      ¬ FirstFails lookupFilter isolation outcome (id :: ids) w ∧
        ¬ FailsEarly isolation (outcome 0) filter (incNextId w) ∧
        ∃ p, ctxLoop lookupFilter isolation outcome 0 (id :: ids) w [] none =
          ctxLoop lookupFilter isolation outcome 1 ids
            (createContext isolation (outcome 0) filter (incNextId w) []).1
            (createContext isolation (outcome 0) filter (incNextId w) []).2.1 (some p) := by
  simp only [ctxLoop, hl]
  by_cases hf : FailsEarly isolation (outcome 0) filter (incNextId w)
  · obtain ⟨-, e, he⟩ := createContext_early (incNextId_fresh w) hf []
    refine .inl ⟨⟨id, filter, rfl, hl, .inl hf⟩, ?_⟩
    simp only [he]
  · obtain ⟨-, hok⟩ := createContext_pushes (incNextId_fresh w) hf []
    cases hr : (createContext isolation (outcome 0) filter (incNextId w) []).2.2 with
    | ok p =>
      refine .inr ⟨?_, hf, p, rfl⟩
      rintro ⟨id', filter', hid, hl', hfail⟩
      obtain rfl : id = id' := by simpa using hid
      obtain rfl : filter = filter' := Option.some.inj (hl.symm.trans hl')
      obtain ⟨hlog, hcreate⟩ := hok.mp ⟨p, hr⟩
      rcases hfail with hfail | hfail | hfail
      · exact hf hfail
      · rw [hlog] at hfail
        exact absurd hfail (by simp)
      · rw [hcreate] at hfail
        exact absurd hfail (by simp)
    | error e =>
      refine .inl ⟨⟨id, filter, rfl, hl, .inr ?_⟩, rfl⟩
      by_contra hno
      simp only [not_or, Bool.not_eq_false] at hno
      obtain ⟨p, hp⟩ := hok.mpr hno
      rw [hr] at hp
      exact absurd hp (by simp)

theorem ctxLoop_aligned_iff (ids : List ℕ) (w : Worker) :
    ((ctxLoop lookupFilter isolation outcome 0 ids w [] none).2.2 = true →
      Aligned lookupFilter ids (ctxLoop lookupFilter isolation outcome 0 ids w [] none).2.1) ↔
    (∃ id ∈ ids, lookupFilter id = none) ∨ FirstFails lookupFilter isolation outcome ids w ∨
      NoGap lookupFilter isolation outcome 0 ids w [] := by
  cases ids with
  | nil => simp [ctxLoop, NoGap, Aligned]
  | cons id ids =>
    cases hl : lookupFilter id with
    | none =>
      have hfalse : (ctxLoop lookupFilter isolation outcome 0 (id :: ids) w [] none).2.2 = false := by
        simp [ctxLoop, hl]
      rw [hfalse]
      exact ⟨fun _ => .inl ⟨id, List.mem_cons_self .., hl⟩, fun _ h => absurd h (by simp)⟩
    | some filter =>
      rcases ctxLoop_first lookupFilter isolation outcome ids w hl with
        ⟨hff, hfalse⟩ | ⟨hff, hf, p, hp⟩
      · rw [hfalse]
        exact ⟨fun _ => .inr (.inl hff), fun _ h => absurd h (by simp)⟩
      · obtain ⟨⟨e, he, hidx, hfil⟩, -⟩ := createContext_pushes (incNextId_fresh w) hf []
        have hnog : NoGap lookupFilter isolation outcome 0 (id :: ids) w [] ↔
            NoGap lookupFilter isolation outcome 1 ids
              (createContext isolation (outcome 0) filter (incNextId w) []).1
              (createContext isolation (outcome 0) filter (incNextId w) []).2.1 := by
          simp [NoGap, hl, hf]
        rw [hp, ctxLoop_true, hnog, he]
        rw [he] at hp
        constructor
        · intro hal
          by_cases hk : ∀ id ∈ ids, lookupFilter id ≠ none
          · refine .inr (.inr ?_)
            have hlen := (hal hk).1
            apply (ctxLoop_length lookupFilter isolation outcome ids hk _ _ _ p).2
            rw [hlen]
            simp [Nat.add_comm]
          · simp only [not_forall, not_not] at hk
            obtain ⟨id', hm, hn⟩ := hk
            exact .inl ⟨id', List.mem_cons_of_mem _ hm, hn⟩
        · rintro (⟨id', hm, hn⟩ | hfirst | hgap) hk
          · rcases List.mem_cons.mp hm with rfl | hm
            · rw [hl] at hn
              exact absurd hn (by simp)
            · exact absurd hn (hk id' hm)
          · exact absurd hfirst hff
          · refine ctxLoop_aligned lookupFilter isolation outcome ids hk 1 _ [id] _ p ?_ hgap
            have hnil : Aligned lookupFilter [] [] := ⟨rfl, by simp⟩
            exact aligned_snoc hnil hidx (hfil ▸ hl)

end Loop

def Sound (lookupFilter : ℕ → Option Filter) (ids : List ℕ) (c : PwCtx) : Prop :=
  c.nfilters = ids.length ∧ Aligned lookupFilter ids c.pwexecs

/-- A context returned as ready by `ngx_proxy_wasm_ctx` is sound iff it came in
ready and sound, or the call gives up (an id is unknown, the first creation
fails), or no creation behind the first one fails early. -/
theorem ready_aligned_iff (lookupFilter : ℕ → Option Filter) (isolation : Isolation)
    (outcome : ℕ → Outcome) (ids : List ℕ) (w : Worker) (c : PwCtx) :
    ((ngxProxyWasmCtx lookupFilter isolation outcome (some ids) w c).2.2 = true →
      (ngxProxyWasmCtx lookupFilter isolation outcome (some ids) w c).2.1.ready = true →
        Sound lookupFilter ids
          (ngxProxyWasmCtx lookupFilter isolation outcome (some ids) w c).2.1) ↔
    c.ready = true ∧ Sound lookupFilter ids c ∨ c.ready = false ∧
      ((∃ id ∈ ids, lookupFilter id = none) ∨ FirstFails lookupFilter isolation outcome ids w ∨
        NoGap lookupFilter isolation outcome 0 ids w []) := by
  rw [← ctxLoop_aligned_iff]
  cases hr : c.ready with
  | true =>
    -- a ready context is returned as it is
    cases hi : c.init <;> simp [ngxProxyWasmCtx, hi, hr, Sound]
  | false =>
    cases hi : c.init <;> simp [ngxProxyWasmCtx, hi, hr, Sound]

def allOk : Outcome :=
  ⟨true, some 0, true, true, true, true, true, true, true, true, true, true⟩

def freshWorker : Worker := ⟨0, fun _ => [], fun _ => [], fun _ => none, by simp⟩

def freshCtx : PwCtx := ⟨false, false, false, .none, 0, []⟩

def anyFilter (id : ℕ) : Option Filter := some ⟨id, false⟩

/-- The second of three filters fails in `proxy_on_plugin_start`: the context is
ready with two entries, and the third filter stands at position 1. -/
theorem ready_with_missing_entry :
    ¬ let r := ngxProxyWasmCtx anyFilter .none
        (fun i => if i = 1 then { allOk with pluginStart := false } else allOk)
        (some [7, 9, 11]) freshWorker freshCtx
      r.2.2 = true → r.2.1.ready = true → Sound anyFilter [7, 9, 11] r.2.1 := by
  intro h
  have hlen := (h (by decide) (by decide)).2.1
  revert hlen
  decide

end NgxWasm.ProxyWasm.ContextChain
