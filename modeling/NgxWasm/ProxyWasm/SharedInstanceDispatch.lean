import NgxWasm.ProxyWasm.SharedInstance
import NgxWasm.ProxyWasm.InstanceScan
import Mathlib.Logic.Function.Basic
import Mathlib.Tactic.Common

/-!
# Completions of dispatched calls on shared instances

A context that waits for a call keeps its instance and its log as long as no
creation invalidates an instance in whose trees it stands and its request does not
finish. The instance of a waiting context may trap: then the completion takes the
error path.
-/

namespace NgxWasm.ProxyWasm.SharedInstance

set_option maxRecDepth 8192

open InstanceStore NgxWasm.Lib.Run

variable {M : Type}

/-! ### Stripping -/

@[simp] theorem strip_store (w : World M) (i : ℕ) : (w.strip i).store = w.store := rfl

@[simp] theorem strip_fresh (w : World M) (i : ℕ) : (w.strip i).fresh = w.fresh := rfl

theorem strip_linked (w : World M) (i j : ℕ) :
    (w.strip i).linked j = if j = i then [] else w.linked j := by
  by_cases h : j = i
  · subst h
    simp [World.linked, World.strip]
  · simp [World.linked, World.strip, h]

theorem strip_exec_of_not_mem {w : World M} {i c : ℕ} (h : c ∉ w.linked i) :
    (w.strip i).exec c = w.exec c := by
  simp only [World.linked, List.mem_append, not_or] at h
  simp only [World.strip, h.1, h.2, ↓reduceIte]
  cases w.exec c <;> rfl

theorem strip_waiting {w : World M} {i c : ℕ} {e' : Exec M} (h : (w.strip i).exec c = some e') :
    ∃ e, w.exec c = some e ∧ e'.waiting = e.waiting := by
  simp only [World.strip, Option.map_eq_some_iff] at h
  obtain ⟨e, he, rfl⟩ := h
  refine ⟨e, he, ?_⟩
  split
  · rfl
  · split <;> rfl

theorem strip_empty {w : World M} {i : ℕ} (h : w.linked i = []) : w.strip i = w := by
  have htree : w.treeCtxs i = [] := (List.append_eq_nil_iff.mp h).1
  have hroot : w.rootCtxs i = [] := (List.append_eq_nil_iff.mp h).2
  have hexec : (w.strip i).exec = w.exec := by
    funext c
    apply strip_exec_of_not_mem
    rw [h]
    simp
  have htrees : Function.update w.treeCtxs i [] = w.treeCtxs := by
    rw [← htree, Function.update_eq_self]
  have hroots : Function.update w.rootCtxs i [] = w.rootCtxs := by
    rw [← hroot, Function.update_eq_self]
  calc w.strip i
      = { w with exec := (w.strip i).exec, rootCtxs := Function.update w.rootCtxs i [],
                 treeCtxs := Function.update w.treeCtxs i [] } := rfl
    _ = w := by rw [hexec, htrees, hroots]

@[simp] theorem stripAll_store (w : World M) (xs : List (Ictx M)) :
    (w.stripAll xs).store = w.store := by
  induction xs generalizing w with
  | nil => rfl
  | cons x xs ih => exact ih (w.strip x.id)

@[simp] theorem stripAll_fresh (w : World M) (xs : List (Ictx M)) :
    (w.stripAll xs).fresh = w.fresh := by
  induction xs generalizing w with
  | nil => rfl
  | cons x xs ih => exact ih (w.strip x.id)

theorem stripAll_linked_subset (w : World M) (xs : List (Ictx M)) (j : ℕ) :
    (w.stripAll xs).linked j = [] ∨ (w.stripAll xs).linked j = w.linked j := by
  induction xs generalizing w with
  | nil => exact .inr rfl
  | cons x xs ih =>
    rcases ih (w.strip x.id) with h | h
    · exact .inl h
    · rw [strip_linked] at h
      split at h
      · exact .inl h
      · exact .inr h

theorem stripAll_linked_mem {w : World M} {xs : List (Ictx M)} {x : Ictx M} (hx : x ∈ xs) :
    (w.stripAll xs).linked x.id = [] := by
  induction xs generalizing w with
  | nil => cases hx
  | cons y xs ih =>
    rcases List.mem_cons.mp hx with rfl | hx
    · have hempty : (w.strip x.id).linked x.id = [] := by
        rw [strip_linked, if_pos rfl]
      rcases stripAll_linked_subset (w.strip x.id) xs x.id with h | h
      · exact h
      · exact h.trans hempty
    · exact ih hx

theorem stripAll_waiting {w : World M} {xs : List (Ictx M)} {c : ℕ} {e' : Exec M}
    (h : (w.stripAll xs).exec c = some e') :
    ∃ e, w.exec c = some e ∧ e'.waiting = e.waiting := by
  induction xs generalizing w with
  | nil => exact ⟨e', h, rfl⟩
  | cons x xs ih =>
    obtain ⟨e₁, he₁, hw₁⟩ := ih h
    obtain ⟨e, he, hw⟩ := strip_waiting he₁
    exact ⟨e, he, hw₁.trans hw⟩

/-- A context in none of the trees that are emptied stays as it is, where it is. -/
theorem stripAll_spares {w : World M} {xs : List (Ictx M)} {c : ℕ}
    (h : ∀ x ∈ xs, c ∉ w.linked x.id) :
    (w.stripAll xs).exec c = w.exec c ∧
      ∀ i, c ∈ w.linked i → c ∈ (w.stripAll xs).linked i := by
  induction xs generalizing w with
  | nil => exact ⟨rfl, fun _ hc => hc⟩
  | cons x xs ih =>
    have hx := h x List.mem_cons_self
    have hlinked : ∀ i, c ∈ w.linked i → c ∈ (w.strip x.id).linked i := by
      intro i hc
      rw [strip_linked, if_neg]
      · exact hc
      · intro heq
        exact hx (heq ▸ hc)
    have hrest : ∀ y ∈ xs, c ∉ (w.strip x.id).linked y.id := by
      intro y hy hc
      rw [strip_linked] at hc
      split at hc
      · cases hc
      · exact h y (List.mem_cons_of_mem x hy) hc
    obtain ⟨hexec, hmem⟩ := ih hrest
    exact ⟨hexec.trans (strip_exec_of_not_mem hx), fun i hc => hmem i (hlinked i hc)⟩

/-! ### Invariant -/

structure Inv (w : World M) : Prop where
  placed : Placed w.store
  fresh : ∀ c, w.fresh ≤ c → w.exec c = none
  emptied : ∀ x ∈ w.store.sweep, w.linked x.id = []

/-- The context has a log and stands in a tree of its instance, which exists. -/
def Held (w : World M) (c : ℕ) : Prop :=
  ∃ e i, w.exec c = some e ∧ e.ictx = some i ∧ e.log = true ∧
    (∃ x ∈ w.store.busy, x.id = i) ∧ c ∈ w.linked i

/-- Every context that waits for a call is held, `except` possibly one. -/
def Waits (w : World M) (except : Option ℕ) : Prop :=
  ∀ c e, w.exec c = some e → 0 < e.waiting → except ≠ some c → Held w c

theorem sweepStore_eq {w : World M} (h : Inv w) :
    w.sweepStore = { w with store := storeSweep w.store } := by
  have hall : ∀ xs : List (Ictx M), (∀ x ∈ xs, w.linked x.id = []) → w.stripAll xs = w := by
    intro xs
    induction xs with
    | nil =>
      intro _
      rfl
    | cons x xs ih =>
      intro hx
      have hstep : w.stripAll (x :: xs) = (w.strip x.id).stripAll xs := rfl
      rw [hstep, strip_empty (hx x List.mem_cons_self)]
      exact ih fun y hy => hx y (List.mem_cons_of_mem x hy)
  rw [World.sweepStore, hall w.store.sweep h.emptied]

theorem inv_sweepStore {w : World M} (h : Inv w) : Inv w.sweepStore := by
  rw [sweepStore_eq h]
  refine ⟨?_, h.fresh, ?_⟩
  · have hp := h.placed
    unfold Placed at hp ⊢
    rw [List.perm_iff_count] at hp ⊢
    intro a
    have ha := hp a
    simp only [storeSweep, List.map_append, List.map_nil, List.count_append,
      List.count_nil] at ha ⊢
    omega
  · intro x hx
    cases hx

theorem waits_sweepStore {w : World M} (h : Inv w) {p : Option ℕ} (hw : Waits w p) :
    Waits w.sweepStore p := by
  rw [sweepStore_eq h]
  exact hw

theorem running_iff {s : Store M} {i : ℕ} :
    running s i = true ↔ ∃ x ∈ s.busy, x.id = i ∧ x.trapped = false := by
  simp [running]

theorem inv_newWorld : Inv (newWorld : World M) :=
  ⟨List.Perm.refl _, fun _ _ => rfl, fun _ h => by cases h⟩

/-! ### The choice of the instance -/

section Lookup

variable [DecidableEq M]

theorem getInstance_sweep (s : Store M) (module : M) (ok : Bool) :
    (getInstance s module ok).1.sweep = s.sweep ++ invalidated s module := by
  have hscan := scan_append module [] s.busy s.sweep []
  rw [List.append_nil] at hscan
  have hsweep : (scan module [] s.busy s.sweep).sweep = s.sweep ++ invalidated s module := by
    rw [hscan]
    rfl
  obtain ⟨_, _, heq⟩ | ⟨_, _, heq⟩ | ⟨_, _, heq⟩ := getInstance_cases s module ok
  all_goals
    rw [heq]
    exact hsweep

theorem getInstance_keeps {s : Store M} {module : M} {ok : Bool} {x : Ictx M} (hx : x ∈ s.busy)
    (hleft : x ∉ invalidated s module) : x ∈ (getInstance s module ok).1.busy := by
  have hscan : x ∈ (scan module [] s.busy s.sweep).busy := by
    have happend := scan_append module [] s.busy s.sweep []
    rw [List.append_nil] at happend
    have hperm := scan_perm module [] s.busy []
    have hmem : x ∈ (scan module [] s.busy []).busy ++ (scan module [] s.busy []).sweep := by
      apply hperm.symm.subset
      simpa using hx
    rw [happend]
    rcases List.mem_append.mp hmem with h | h
    · exact h
    · exact absurd h hleft
  obtain ⟨_, _, heq⟩ | ⟨_, _, heq⟩ | ⟨_, _, heq⟩ := getInstance_cases s module ok
  · rw [heq]
    exact hscan
  · rw [heq]
    exact List.mem_append_left _ hscan
  · rw [heq]
    exact hscan

/-- The world after the lookup of `instanceFor`. -/
def lookedUp (w : World M) (module : M) (ok : Bool) : World M :=
  { w.stripAll (invalidated w.store module) with store := (getInstance w.store module ok).1 }

theorem inv_lookedUp {w : World M} (h : Inv w) (module : M) (ok : Bool) :
    Inv (lookedUp w module ok) := by
  refine ⟨placed_getInstance h.placed module ok, ?_, ?_⟩
  · intro c hc
    have hc : w.fresh ≤ c := by simpa [lookedUp] using hc
    cases he : (lookedUp w module ok).exec c with
    | none => rfl
    | some e' =>
      obtain ⟨e, hold, _⟩ := stripAll_waiting he
      rw [h.fresh c hc] at hold
      cases hold
  · intro x hx
    simp only [lookedUp, getInstance_sweep] at hx
    rcases List.mem_append.mp hx with hx | hx
    · rcases stripAll_linked_subset w (invalidated w.store module) x.id with hl | hl
      · exact hl
      · exact hl.trans (h.emptied x hx)
    · exact stripAll_linked_mem hx

/-- Nobody but `c?` waits in the trees of the instances that the lookup takes away. -/
def Untouched (w : World M) (module : M) (c? : Option ℕ) : Prop :=
  ∀ x ∈ invalidated w.store module, ∀ d ∈ w.linked x.id, ∀ e, w.exec d = some e →
    0 < e.waiting → c? = some d

theorem waits_lookedUp {w : World M} {module : M} {c? : Option ℕ} (hw : Waits w none)
    (hu : Untouched w module c?) (ok : Bool) : Waits (lookedUp w module ok) c? := by
  intro d e' he' hpos hne
  obtain ⟨e, he, hwait⟩ := stripAll_waiting he'
  obtain ⟨e₀, i, he₀, hictx, hlog, ⟨x, hx, hid⟩, hlinked⟩ := hw d e he (hwait ▸ hpos) (by simp)
  have hclear : ∀ y ∈ invalidated w.store module, d ∉ w.linked y.id := by
    intro y hy hd
    exact hne (hu y hy d hd e he (hwait ▸ hpos))
  obtain ⟨hexec, hmem⟩ := stripAll_spares hclear
  refine ⟨e₀, i, hexec.trans he₀, hictx, hlog, ⟨x, ?_, hid⟩, hmem i hlinked⟩
  apply getInstance_keeps hx
  intro hgone
  exact hclear x hgone (hid ▸ hlinked)

theorem getInstance_running {s : Store M} {module : M} {ok : Bool} {ictx : Ictx M}
    (h : (getInstance s module ok).2 = some ictx) :
    running (getInstance s module ok).1 ictx.id = true := by
  obtain ⟨hlive, hmem⟩ := getInstance_answer h
  exact running_iff.mpr ⟨ictx, hmem, rfl, (live_iff.mp hlive).1⟩

end Lookup

/-! ### Starting contexts -/

/-- What starting contexts on instance `i`, on behalf of `c?`, does to contexts
that wait: their logs and places stay, and only `c?` may change its instance. -/
structure Kept (c? : Option ℕ) (i : ℕ) (w w' : World M) : Prop where
  store : w'.store = w.store
  keeps : ∀ d e', w'.exec d = some e' → 0 < e'.waiting → ∃ e, w.exec d = some e ∧
    e.waiting = e'.waiting ∧ (e.log = true → e'.log = true) ∧
    (e'.ictx = e.ictx ∨ (c? = some d ∧ e'.ictx = some i))
  linked : ∀ j d, d ∈ w.linked j → d ∈ w'.linked j

def Stage (c? : Option ℕ) (i : ℕ) (w w' : World M) : Prop :=
  Inv w → running w.store i = true → Inv w' ∧ Kept c? i w w'

variable {c? : Option ℕ} {i : ℕ} {w w' w'' : World M}

theorem Stage.refl (w : World M) : Stage c? i w w := by
  intro h _
  exact ⟨h, rfl, fun d e' he' _ => ⟨e', he', rfl, id, .inl rfl⟩, fun _ _ hd => hd⟩

theorem Stage.trans (h₁ : Stage c? i w w') (h₂ : Stage c? i w' w'') : Stage c? i w w'' := by
  intro h hrun
  obtain ⟨hinv₁, hk₁⟩ := h₁ h hrun
  obtain ⟨hinv₂, hk₂⟩ := h₂ hinv₁ (by rw [hk₁.store]; exact hrun)
  refine ⟨hinv₂, hk₂.store.trans hk₁.store, ?_, fun j d hd => hk₂.linked j d (hk₁.linked j d hd)⟩
  intro d e'' he'' hpos
  obtain ⟨e', he', hwait', hlog', hictx'⟩ := hk₂.keeps d e'' he'' hpos
  obtain ⟨e, he, hwait, hlog, hictx⟩ := hk₁.keeps d e' he' (hwait' ▸ hpos)
  refine ⟨e, he, hwait.trans hwait', fun hl => hlog' (hlog hl), ?_⟩
  rcases hictx' with h' | h'
  · rw [h']
    exact hictx
  · exact .inr h'

theorem stage_put {c : ℕ} {e e' : Exec M} (he : w.exec c = some e) (hwait : e'.waiting = e.waiting)
    (hlog : e.log = true → e'.log = true)
    (hictx : e'.ictx = e.ictx ∨ (c? = some c ∧ e'.ictx = some i)) :
    Stage c? i w (w.put c e') := by
  intro h _
  refine ⟨⟨h.placed, ?_, h.emptied⟩, rfl, ?_, fun _ _ hd => hd⟩
  · intro d hd
    have hne : d ≠ c := by
      intro heq
      rw [← heq, h.fresh d hd] at he
      cases he
    simp only [World.put, Function.update_of_ne hne]
    exact h.fresh d hd
  · intro d e'' he'' hpos
    by_cases hd : d = c
    · subst hd
      simp only [World.put, Function.update_self, Option.some.injEq] at he''
      subst he''
      exact ⟨e, he, hwait.symm, hlog, hictx⟩
    · simp only [World.put, Function.update_of_ne hd] at he''
      exact ⟨e'', he'', rfl, id, .inl rfl⟩

theorem stage_push {e' : Exec M} (hwait : e'.waiting = 0) : Stage c? i w (w.push e') := by
  intro h _
  refine ⟨⟨h.placed, ?_, h.emptied⟩, rfl, ?_, fun _ _ hd => hd⟩
  · intro d hd
    have hd : w.fresh + 1 ≤ d := hd
    have hne : d ≠ w.fresh := by omega
    simp only [World.push, World.put, Function.update_of_ne hne]
    exact h.fresh d (by omega)
  · intro d e'' he'' hpos
    by_cases hd : d = w.fresh
    · subst hd
      simp only [World.push, World.put, Function.update_self, Option.some.injEq] at he''
      subst he''
      omega
    · simp only [World.push, World.put, Function.update_of_ne hd] at he''
      exact ⟨e'', he'', rfl, id, .inl rfl⟩

theorem Inv.ne_swept (h : Inv w) (hrun : running w.store i = true) {x : Ictx M}
    (hx : x ∈ w.store.sweep) : x.id ≠ i := by
  intro heq
  obtain ⟨y, hy, hid, _⟩ := running_iff.mp hrun
  have hnodup : ((w.store.busy ++ w.store.free ++ w.store.sweep).map Ictx.id).Nodup :=
    (List.nodup_append.mp (h.placed.nodup_iff.mpr List.nodup_range)).1
  rw [List.map_append, List.map_append, List.nodup_append] at hnodup
  exact hnodup.2.2 y.id (List.mem_append_left _ (List.mem_map_of_mem hy)) x.id
    (List.mem_map_of_mem hx) (hid.trans heq.symm)

theorem stage_insert {c : ℕ} (root : Bool) : Stage c? i w
    (if root then { w with rootCtxs := Function.update w.rootCtxs i (c :: w.rootCtxs i) }
      else { w with treeCtxs := Function.update w.treeCtxs i (c :: w.treeCtxs i) }) := by
  intro h hrun
  have hsame : ∀ j, j ≠ i → (if root then
        { w with rootCtxs := Function.update w.rootCtxs i (c :: w.rootCtxs i) }
      else { w with treeCtxs := Function.update w.treeCtxs i (c :: w.treeCtxs i) }).linked j =
      w.linked j := by
    intro j hj
    cases root <;> simp [World.linked, hj]
  refine ⟨⟨?_, ?_, ?_⟩, ?_, ?_, ?_⟩
  · cases root <;> exact h.placed
  · cases root <;> exact h.fresh
  · intro x hx
    have hx : x ∈ w.store.sweep := by
      cases root <;> exact hx
    rw [hsame x.id (h.ne_swept hrun hx)]
    exact h.emptied x hx
  · cases root <;> rfl
  · intro d e' he' _
    have he' : w.exec d = some e' := by
      cases root <;> exact he'
    exact ⟨e', he', rfl, id, .inl rfl⟩
  · intro j d hd
    by_cases hj : j = i
    · subst hj
      have hd : d ∈ w.treeCtxs j ∨ d ∈ w.rootCtxs j := List.mem_append.mp hd
      cases root
      · simp only [World.linked, Function.update_self, List.mem_append, List.mem_cons,
          Bool.false_eq_true, ↓reduceIte]
        tauto
      · simp only [World.linked, Function.update_self, List.mem_append, List.mem_cons, ↓reduceIte]
        tauto
    · rw [hsame j hj]
      exact hd

theorem stage_launch (w : World M) (c i : ℕ) (root ok : Bool) :
    Stage c? i w (launch w c i root ok).1 := by
  unfold launch
  cases he : w.exec c with
  | none => exact .refl w
  | some e =>
    simp only
    split
    · exact .refl w
    · split
      · exact .refl w
      · have hput : Stage c? i w (w.put c { e with started := true }) :=
          stage_put he rfl id (.inl rfl)
        have hins := hput.trans (stage_insert (c := c) root)
        cases root <;> exact hins

theorem stage_attach (w : World M) (c i : ℕ) : Stage (some c) i w (attach w c i) := by
  unfold attach
  cases he : w.exec c with
  | none => exact .refl w
  | some e =>
    simp only
    split
    · exact .refl w
    · exact stage_put he rfl id (.inr ⟨rfl, rfl⟩)

theorem stage_giveLog (w : World M) (c i : ℕ) (ok : Bool) :
    Stage c? i w (giveLog w c ok).1 := by
  unfold giveLog
  cases he : w.exec c with
  | none => exact .refl w
  | some e =>
    simp only
    split
    · exact .refl w
    · split
      · exact stage_put he rfl (fun _ => rfl) (.inl rfl)
      · exact .refl w

theorem stage_startRoot (w : World M) (f : Filter M) (i : ℕ) (in? : Option ℕ) (o : Outcome)
    (hin : in? = none ∨ in? = c?) : Stage c? i w (startRoot w f i in? o).1 := by
  unfold startRoot
  cases lookupRoot w f i with
  | some r => exact stage_launch w r i true o.rootStart
  | none =>
    cases in? with
    | none =>
      simp only
      split
      · exact .refl w
      · exact (stage_push rfl).trans (stage_launch _ _ i true o.rootStart)
    | some c =>
      rcases hin with hin | hin
      · cases hin
      · subst hin
        exact (stage_attach w c i).trans (stage_launch _ c i true o.rootStart)

/-- A log, then the start. -/
theorem stage_giveLog_launch (w : World M) (c i : ℕ) (o : Outcome) :
    Stage c? i w (match giveLog w c o.logAlloc with
      | (w, false) => (w, none)
      | (w, true) => launch w c i false o.start).1 := by
  have hlog : Stage c? i w (giveLog w c o.logAlloc).1 := stage_giveLog w c i o.logAlloc
  rcases hg : giveLog w c o.logAlloc with ⟨w', ok⟩
  rw [hg] at hlog
  cases ok with
  | false => exact hlog
  | true => exact hlog.trans (stage_launch w' c i false o.start)

theorem stage_startFilter (w : World M) (f : Filter M) (i : ℕ) (o : Outcome) :
    Stage c? i w (startFilter w f i c? o).1 := by
  unfold startFilter
  cases c? with
  | none =>
    simp only
    split
    · exact .refl w
    · exact (stage_push rfl).trans (stage_giveLog_launch _ _ i o)
  | some c =>
    simp only
    split
    · exact stage_launch w c i false o.start
    · exact (stage_attach w c i).trans (stage_giveLog_launch _ c i o)

theorem stage_startContexts (w : World M) (f : Filter M) (start : Bool) (c? : Option ℕ) (i : ℕ)
    (o : Outcome) : Stage c? i w (startContexts w f start c? i o).1 := by
  have hroot : Stage c? i w (startRoot w f i (if w.isRoot c? then c? else none) o).1 :=
    stage_startRoot w f i (if w.isRoot c? then c? else none) o (by
      split
      · exact .inr rfl
      · exact .inl rfl)
  unfold startContexts
  simp only
  rcases hr : startRoot w f i (if w.isRoot c? then c? else none) o with ⟨w', r?⟩
  rw [hr] at hroot
  cases r? with
  | none => exact hroot
  | some r =>
    simp only
    split
    · exact hroot
    · exact hroot.trans (stage_startFilter w' f i o)

theorem Kept.waits (h : Kept c? i w w') {p : Option ℕ} (hw : Waits w p)
    (hc : ∀ c e, c? = some c → w.exec c = some e → p ≠ some c → e.ictx = some i) :
    Waits w' p := by
  intro d e' he' hpos hne
  obtain ⟨e, he, hwait, hlog, hictx⟩ := h.keeps d e' he' hpos
  obtain ⟨e₀, j, he₀, hj, hl, hbusy, hlinked⟩ := hw d e he (hwait ▸ hpos) hne
  cases he.symm.trans he₀
  have hictx' : e'.ictx = some j := by
    rcases hictx with h | ⟨hd, h⟩
    · rw [h, hj]
    · rw [h, ← hj, hc d e hd he hne]
  refine ⟨e', j, he', hictx', hlog hl, ?_, h.linked j d hlinked⟩
  rw [h.store]
  exact hbusy

/-! ### Steps -/

variable [DecidableEq M]

/-- A creation that needs an instance takes none away on which another context
waits; if the context it is made for waits, it is given an instance and a log. -/
def Spares (w : World M) (f : Filter M) (start : Bool) (c? : Option ℕ) (o : Outcome) : Prop :=
  w.runsOn c? = none → Untouched w f.module c? ∧
    ∀ c e, c? = some c → (createContext w f start c? o).1.exec c = some e → 0 < e.waiting →
      Held (createContext w f start c? o).1 c

theorem swept_same {w : World M} (hinv : Inv w) (hw : Waits w none) (f : Filter M)
    (start : Bool) (c? : Option ℕ) :
    ∃ w₁, (if start || w.isRoot c? then w.sweepStore else w) = w₁ ∧ Inv w₁ ∧ Waits w₁ none ∧
      w₁.runsOn c? = w.runsOn c? ∧ (Untouched w f.module c? → Untouched w₁ f.module c?) := by
  split
  · refine ⟨_, rfl, inv_sweepStore hinv, waits_sweepStore hinv hw, ?_, ?_⟩
    · rw [sweepStore_eq hinv]
      rfl
    · rw [sweepStore_eq hinv]
      exact id
  · exact ⟨w, rfl, hinv, hw, rfl, id⟩

omit [DecidableEq M] in
theorem runsOn_running {w : World M} {c? : Option ℕ} {i : ℕ} (h : w.runsOn c? = some i) :
    running w.store i = true ∧
      ∀ c e, c? = some c → w.exec c = some e → e.ictx = some i := by
  simp only [World.runsOn, Option.bind_eq_some_iff, Option.filter_eq_some_iff] at h
  obtain ⟨e, ⟨c, rfl, he⟩, hictx, hrun⟩ := h
  refine ⟨hrun, ?_⟩
  intro c' e' hc he'
  cases hc
  cases he.symm.trans he'
  exact hictx

theorem createContext_waits {w : World M} (hinv : Inv w) (hw : Waits w none) {f : Filter M}
    {start : Bool} {c? : Option ℕ} {o : Outcome} (hs : Spares w f start c? o) :
    Inv (createContext w f start c? o).1 ∧ Waits (createContext w f start c? o).1 none := by
  obtain ⟨w₁, hw₁, hinv₁, hwaits₁, hruns, huntouched⟩ := swept_same hinv hw f start c?
  have hcreate : ∀ w₂ i?, instanceFor w₁ f c? o = (w₂, i?) →
      createContext w f start c? o =
        i?.elim (w₂, none) fun i => startContexts w₂ f start c? i o := by
    intro w₂ i? hfor
    simp only [createContext, hw₁, hfor]
    cases i? <;> rfl
  cases hr : w.runsOn c? with
  | some i =>
    rw [hr] at hruns
    obtain ⟨hrun, hictx⟩ := runsOn_running hruns
    have hfor : instanceFor w₁ f c? o = (w₁, some i) := by
      simp only [instanceFor, hruns]
    obtain ⟨hinv', hkept⟩ := stage_startContexts w₁ f start c? i o hinv₁ hrun
    rw [hcreate _ _ hfor]
    exact ⟨hinv', hkept.waits hwaits₁ fun c e hc he _ => hictx c e hc he⟩
  | none =>
    rw [hr] at hruns
    obtain ⟨hu, hself⟩ := hs hr
    have hfor : instanceFor w₁ f c? o = (lookedUp w₁ f.module o.instanceOk,
        (getInstance w₁.store f.module o.instanceOk).2.map Ictx.id) := by
      simp only [instanceFor, hruns]
      rfl
    have hinv₂ := inv_lookedUp hinv₁ f.module o.instanceOk
    have hwaits₂ := waits_lookedUp hwaits₁ (huntouched hu) o.instanceOk
    have hrest : Inv (createContext w f start c? o).1 ∧
        Waits (createContext w f start c? o).1 c? := by
      rw [hcreate _ _ hfor]
      cases hget : (getInstance w₁.store f.module o.instanceOk).2 with
      | none => exact ⟨hinv₂, hwaits₂⟩
      | some ictx =>
        obtain ⟨hinv', hkept⟩ := stage_startContexts (lookedUp w₁ f.module o.instanceOk) f start c?
          ictx.id o hinv₂ (getInstance_running hget)
        exact ⟨hinv', hkept.waits hwaits₂ fun c _ hc _ hne => absurd hc hne⟩
    refine ⟨hrest.1, ?_⟩
    intro d e he hpos _
    by_cases hd : c? = some d
    · exact hself d e hd he hpos
    · exact hrest.2 d e he hpos hd

/-- The contexts that an operation creates or starts are created sparingly, and no request
finishes that waits for a call. -/
def Guard (w : World M) : Op M → Prop
  | .start f o => Spares w f true none o
  | .create f o => Spares w f false none o
  | .run c o => ∀ e, w.exec c = some e → Spares w e.filter false (some c) o
  | .complete c _ o => ∀ e, w.exec c = some e → Spares (w.done c e) e.filter false (some c) o
  | .finish c => ∀ e, w.exec c = some e → e.root = false → e.waiting = 0
  | _ => True

omit [DecidableEq M] in
/-- Changing how many calls a context waits for. -/
theorem waits_put {w : World M} (hinv : Inv w) (hw : Waits w none) {c : ℕ} {e : Exec M}
    (he : w.exec c = some e) (n : ℕ) (hheld : Held w c ∨ n ≤ e.waiting) :
    Inv (w.put c { e with waiting := n }) ∧ Waits (w.put c { e with waiting := n }) none := by
  constructor
  · refine ⟨hinv.placed, ?_, hinv.emptied⟩
    intro d hd
    have hne : d ≠ c := by
      intro heq
      rw [← heq, hinv.fresh d hd] at he
      cases he
    simp only [World.put, Function.update_of_ne hne]
    exact hinv.fresh d hd
  · intro d e' he' hpos hne
    by_cases hd : d = c
    · subst hd
      simp only [World.put, Function.update_self, Option.some.injEq] at he'
      subst he'
      have hold : Held w d := by
        rcases hheld with h | h
        · exact h
        · exact hw d e he (Nat.lt_of_lt_of_le hpos h) hne
      obtain ⟨e₀, i, he₀, hictx, hlog, hbusy, hlinked⟩ := hold
      cases he.symm.trans he₀
      refine ⟨{ e with waiting := n }, i, ?_, hictx, hlog, hbusy, hlinked⟩
      simp only [World.put, Function.update_self]
    · simp only [World.put, Function.update_of_ne hd] at he'
      obtain ⟨e₀, i, he₀, hrest⟩ := hw d e' he' hpos hne
      exact ⟨e₀, i, by simp only [World.put, Function.update_of_ne hd, he₀], hrest⟩

omit [DecidableEq M] in
theorem trapIn_mem_id {id : ℕ} {q : List (Ictx M)} {x : Ictx M} (hx : x ∈ trapIn id q) :
    ∃ y ∈ q, y.id = x.id := by
  obtain ⟨y, hy, rfl⟩ := List.mem_map.mp hx
  refine ⟨y, hy, ?_⟩
  split <;> rfl

omit [DecidableEq M] in
theorem trapIn_has_id (id : ℕ) {q : List (Ictx M)} {x : Ictx M} (hx : x ∈ q) :
    ∃ y ∈ trapIn id q, y.id = x.id := by
  refine ⟨_, List.mem_map_of_mem hx, ?_⟩
  split <;> rfl

theorem trap_waits {w : World M} (hinv : Inv w) (hw : Waits w none) (i : ℕ) :
    Inv { w with store := trap w.store i } ∧ Waits { w with store := trap w.store i } none := by
  constructor
  · refine ⟨placed_step hinv.placed (.trap i), hinv.fresh, ?_⟩
    intro x hx
    obtain ⟨y, hy, hid⟩ := trapIn_mem_id hx
    have hempty := hinv.emptied y hy
    rw [hid] at hempty
    exact hempty
  · intro d e he hpos hne
    obtain ⟨e₀, j, he₀, hictx, hlog, ⟨x, hx, hid⟩, hlinked⟩ := hw d e he hpos hne
    obtain ⟨y, hy, hid'⟩ := trapIn_has_id i hx
    exact ⟨e₀, j, he₀, hictx, hlog, ⟨y, hy, hid'.trans hid⟩, hlinked⟩

omit [DecidableEq M] in
theorem dispatch_waits {w : World M} (hinv : Inv w) (hw : Waits w none) (c : ℕ) :
    Inv (dispatch w c) ∧ Waits (dispatch w c) none := by
  unfold dispatch
  cases he : w.exec c with
  | none => exact ⟨hinv, hw⟩
  | some e =>
    simp only
    split
    · next hrun =>
      simp only [Bool.and_eq_true, Option.any_eq_true, decide_eq_true_eq] at hrun
      obtain ⟨hlog, i, hictx, hi, hlinked⟩ := hrun
      obtain ⟨x, hx, hid, _⟩ := running_iff.mp hi
      exact waits_put hinv hw he (e.waiting + 1)
        (.inl ⟨e, i, he, hictx, hlog, ⟨x, hx, hid⟩, hlinked⟩)
    · exact ⟨hinv, hw⟩

omit [DecidableEq M] in
/-- A finished context leaves its tree. -/
theorem unlink_waits {w : World M} (hinv : Inv w) (hw : Waits w none) (c i : ℕ) :
    Inv { w with treeCtxs := Function.update w.treeCtxs i ((w.treeCtxs i).erase c) } ∧
    Waits { w with treeCtxs := Function.update w.treeCtxs i ((w.treeCtxs i).erase c) }
      (some c) := by
  constructor
  · refine ⟨hinv.placed, hinv.fresh, ?_⟩
    intro x hx
    have hempty := List.append_eq_nil_iff.mp (hinv.emptied x hx)
    by_cases hi : x.id = i
    · subst hi
      simp [World.linked, hempty]
    · simp [World.linked, hi, hempty]
  · intro d e he hpos hne
    obtain ⟨e₀, j, he₀, hictx, hlog, hbusy, hlinked⟩ := hw d e he hpos (by simp)
    refine ⟨e₀, j, he₀, hictx, hlog, hbusy, ?_⟩
    have hdc : d ≠ c := by
      intro heq
      exact hne (by rw [heq])
    simp only [World.linked, List.mem_append] at hlinked ⊢
    by_cases hj : j = i
    · subst hj
      simpa [List.mem_erase_of_ne hdc] using hlinked
    · simpa [hj] using hlinked

omit [DecidableEq M] in
/-- A context that waits for nothing is destroyed. -/
theorem destroyed_waits {w : World M} (hinv : Inv w) {c : ℕ} (hw : Waits w (some c)) {e : Exec M}
    (he : w.exec c = some e) (hzero : e.waiting = 0) :
    Inv (w.put c { destroyPwexec e with finished := true }) ∧
      Waits (w.put c { destroyPwexec e with finished := true }) none := by
  constructor
  · refine ⟨hinv.placed, ?_, hinv.emptied⟩
    intro d hd
    have hne : d ≠ c := by
      intro heq
      rw [← heq, hinv.fresh d hd] at he
      cases he
    simp only [World.put, Function.update_of_ne hne]
    exact hinv.fresh d hd
  · intro d e' he' hpos _
    by_cases hdc : d = c
    · subst hdc
      simp only [World.put, Function.update_self, Option.some.injEq] at he'
      subst he'
      exact absurd hpos (by simp [destroyPwexec, hzero])
    · simp only [World.put, Function.update_of_ne hdc] at he'
      obtain ⟨e₀, i, he₀, hrest⟩ := hw d e' he' hpos (by simpa using Ne.symm hdc)
      exact ⟨e₀, i, by simp only [World.put, Function.update_of_ne hdc, he₀], hrest⟩

omit [DecidableEq M] in
theorem finish_waits {w : World M} (hinv : Inv w) (hw : Waits w none) (c : ℕ)
    (hzero : ∀ e, w.exec c = some e → e.root = false → e.waiting = 0) :
    Inv (finish w c) ∧ Waits (finish w c) none := by
  unfold finish
  cases he : w.exec c with
  | none => exact ⟨hinv, hw⟩
  | some e =>
    simp only
    split
    · exact ⟨hinv, hw⟩
    · next hroot =>
      have hidle := hzero e he (by simpa using hroot)
      cases e.ictx with
      | none =>
        exact destroyed_waits hinv (fun d e he hpos _ => hw d e he hpos (by simp)) he hidle
      | some i =>
        obtain ⟨hinv', hw'⟩ := unlink_waits hinv hw c i
        refine destroyed_waits (inv_sweepStore hinv') (waits_sweepStore hinv' hw') ?_ hidle
        rw [sweepStore_eq hinv']
        exact he

theorem complete_waits {w : World M} (hinv : Inv w) (hw : Waits w none) (c : ℕ) (sockErr : Bool)
    (o : Outcome)
    (hs : ∀ e, w.exec c = some e → Spares (w.done c e) e.filter false (some c) o) :
    Inv (complete w c sockErr o).1 ∧ Waits (complete w c sockErr o).1 none := by
  unfold complete
  cases he : w.exec c with
  | none => exact ⟨hinv, hw⟩
  | some e =>
    have hdone : Inv (w.done c e) ∧ Waits (w.done c e) none :=
      waits_put hinv hw he (e.waiting - 1) (.inr (Nat.sub_le _ _))
    have hcreate := createContext_waits hdone.1 hdone.2 (hs e he)
    simp only
    split
    · exact ⟨hinv, hw⟩
    · split
      · exact ⟨hinv, hw⟩
      · split
        · exact ⟨hinv, hw⟩
        · split
          · exact ⟨hinv, hw⟩
          · split
            · exact hcreate
            · split
              · exact hdone
              · exact hcreate

theorem step_waits {w : World M} (h : Inv w ∧ Waits w none) {op : Op M} (hop : Guard w op) :
    Inv (step w op).1 ∧ Waits (step w op).1 none := by
  cases op with
  | start f o => exact createContext_waits h.1 h.2 hop
  | create f o => exact createContext_waits h.1 h.2 hop
  | run c o =>
    simp only [step, World.runStep]
    cases he : w.exec c with
    | none => exact h
    | some e =>
      simp only
      split
      · exact h
      · exact createContext_waits h.1 h.2 (hop e he)
  | trap i => exact trap_waits h.1 h.2 i
  | dispatch c => exact dispatch_waits h.1 h.2 c
  | complete c sockErr o => exact complete_waits h.1 h.2 c sockErr o hop
  | sweep => exact ⟨inv_sweepStore h.1, waits_sweepStore h.1 h.2⟩
  | finish c => exact finish_waits h.1 h.2 c hop

omit [DecidableEq M] in
theorem present_of_busy {s : Store M} {i : ℕ} (h : ∃ x ∈ s.busy, x.id = i) :
    present s i = true := by
  obtain ⟨x, hx, hid⟩ := h
  simp only [present, List.any_eq_true, List.mem_append, beq_iff_eq]
  exact ⟨x, .inl (.inl hx), hid⟩

/-- In a run whose context creations are sparing and in which no waiting request finishes, no
completion finds its context without an instance or without a log. -/
theorem completion_has_instance (ops : List (Op M)) (h : Meets step Guard newWorld ops)
    (c : ℕ) (sockErr : Bool) (o : Outcome) :
    (complete (exec step newWorld ops).1 c sockErr o).2 ∈
      [none, some .normal, some .trapped, some .failed] := by
  have hrun : Inv (exec step newWorld ops).1 ∧ Waits (exec step newWorld ops).1 none := by
    apply exec_invariant step Guard (fun w => Inv w ∧ Waits w none) _ ops newWorld _ h
    · intro w op hw hop
      exact step_waits hw hop
    · exact ⟨inv_newWorld, fun c e he => by cases he⟩
  unfold complete
  cases he : (exec step newWorld ops).1.exec c with
  | none => simp
  | some e =>
    simp only
    split
    · simp
    · next hwait =>
      obtain ⟨e₀, i, he₀, hictx, hlog, hbusy, _⟩ :=
        hrun.2 c e he (Nat.pos_of_ne_zero hwait) (by simp)
      cases he.symm.trans he₀
      simp only [hictx, present_of_busy hbusy, hlog, Bool.not_true, Bool.false_eq_true, ↓reduceIte]
      split
      · simp
      · split <;> simp

theorem Spares.of_all_running {w : World M} {f : Filter M} {start : Bool} {o : Outcome}
    (h : invalidated w.store f.module = []) : Spares w f start none o := by
  intro _
  refine ⟨?_, fun c e hc => by cases hc⟩
  intro x hx
  rw [h] at hx
  cases hx

def allOk : Outcome := ⟨true, true, true, true, true, true⟩

def filter7 : Filter ℕ := ⟨1, 7⟩

/-- Two requests share an instance; the first waits for a call when it traps. -/
def trapsWhileWaiting : List (Op ℕ) :=
  [.create filter7 allOk, .create filter7 allOk, .dispatch 1, .trap 0]

/-- The second request of these finishes. -/
def trapsAndFinishes : List (Op ℕ) := trapsWhileWaiting ++ [.finish 2]

theorem completion_has_instance_trapped :
    (complete (exec step newWorld trapsAndFinishes).1 1 false allOk).2 ∈
      [none, some .normal, some .trapped, some .failed] := by
  apply completion_has_instance trapsAndFinishes
  have hempty : invalidated (newWorld : World ℕ).store filter7.module = [] := by
    simp [invalidated, newWorld, init, scan]
  refine ⟨.of_all_running hempty, .of_all_running (by decide +kernel), trivial, trivial, ?_,
    trivial⟩
  intro e he _
  have hidle : ((exec step newWorld trapsWhileWaiting).1.exec 2).all fun e => e.waiting == 0 := by
    decide +kernel
  rw [show (exec step newWorld trapsWhileWaiting).1.exec 2 = some e from he] at hidle
  simpa using hidle

/-- A third request creates its context before the first one's call completes, or the first one's
client is gone. -/
theorem completion_without_instance :
    (complete (exec step newWorld
      (trapsWhileWaiting ++ [.create filter7 allOk])).1 1 false allOk).2 = some .noInstance ∧
    (complete (exec step newWorld
      (trapsWhileWaiting ++ [.finish 1])).1 1 false allOk).2 = some .noInstance := by
  decide +kernel

end NgxWasm.ProxyWasm.SharedInstance
