import NgxWasm.Lib.Run
import NgxWasm.Lua.Resolver
import NgxWasm.Lua.ResolverThreads

/-!
# A resolver context is released once

The context of a dispatch is freed and its handler called when the thread is over, in runs
that meet `Proper`. A text that nginx takes for no address calls the handler twice, so does
a socket that is destroyed again after its thread was cancelled.
-/

namespace NgxWasm.Lua.ResolverOnce
open NgxWasm NgxWasm.Lib NgxWasm.Lib.Run
open NgxWasm.Lua.Threads hiding Event next step leave threadHandleRc cancel
open NgxWasm.Lua.ThreadQueue NgxWasm.Lua.Resolver NgxWasm.Lua.ResolverThreads

variable {ps : Parsers} {st st' st₁ st₂ : State} {env : Env} {d : Dispatch} {t : Thread} {i j : ℕ}

/-! ### Statement -/

def isOver (t : Thread) (d : Dispatch) : Bool := t.over || decide (d.rc = some .error)

/-- Freed once at the end and not touched afterwards; the handler ran once unless
`ngx_wasm_lua_resolver_resolve` returned `NGX_ERROR`. -/
structure Released (t : Thread) (d : Dispatch) : Prop where
  free : d.log.count .free = if isOver t d then 1 else 0
  handler : d.log.count .handler = if isOver t d && decide (d.rc ≠ some .error) then 1 else 0
  last : ∀ before after, d.log = before ++ .free :: after → after = []

def Accepted (ps : Parsers) : Course → Prop
  | .finishes found pcalloc _ => pcalloc = true ∧ (ps.address found).isSome = true
  | _ => True

instance (ps : Parsers) (c : Course) : Decidable (Accepted ps c) := by
  cases c <;> unfold Accepted <;> infer_instance

/-- Threads can be created and are not cancelled while they run; one that yields has its
coroutine, one that ends was not resumed as the entry thread. A socket is destroyed while
its thread is pending or finished. -/
def Proper (ps : Parsers) (st : State) : Event → Prop
  | .resolve s => st.env.running = none → s.threadNew = true
  | .resume _ => True
  | .leave c _ => ∀ r ∈ st.env.running,
      (st.env.lctx r.thread).cancelled = false ∧ Accepted ps c ∧
        (c.outcome = .yields → ((st.env.lctx r.thread).coCtx.bind st.env.coRef).isSome = true) ∧
        (c.outcome ≠ .yields → r.caller ≠ .asEntry)
  | .destroy i => ∀ t ∈ st.env.thread i,
      t.finished = true ∨ t.started = true ∧ t.cancelled = false

instance (ps : Parsers) (st : State) (e : Event) : Decidable (Proper ps st e) := by
  cases e <;> unfold Proper <;> infer_instance

/-! ### Logs -/

def Open (log : List Access) : Prop := .free ∉ log ∧ .handler ∉ log

def Done (n : ℕ) (log : List Access) : Prop :=
  ∃ l, log = l ++ [.free] ∧ .free ∉ l ∧ l.count .handler = n

theorem Open.use {log : List Access} (h : Open log) : Open (log ++ [.use]) := by
  simpa [Open] using h

theorem Open.free {log : List Access} (h : Open log) : Done 0 (log ++ [.free]) :=
  ⟨log, rfl, h.1, List.count_eq_zero.mpr h.2⟩

theorem Open.handled {log : List Access} (h : Open log) : Done 1 (log ++ [.handler, .free]) := by
  refine ⟨log ++ [.handler], by simp, by simpa using h.1, ?_⟩
  rw [List.count_append, List.count_eq_zero.mpr h.2]
  rfl

/-- A dispatch whose thread is in its first run (`first`) or came out of it. -/
def Fits (first : Prop) (t : Thread) (d : Dispatch) : Prop :=
  match d.rc with
  | none => first ∧ t.over = false ∧ Open d.log
  | some .error => ¬ first ∧ t.pending = false ∧ Done 0 d.log
  | some .ok => t.over = true ∧ Done 1 d.log
  | some .again => t.started = true ∧ t.yielded = true ∧
      if t.over then Done 1 d.log else Open d.log
  | some _ => False

theorem Done.count {n : ℕ} {log : List Access} (h : Done n log) :
    log.count .free = 1 ∧ log.count .handler = n ∧
      ∀ before after, log = before ++ .free :: after → after = [] := by
  obtain ⟨l, rfl, hl, hn⟩ := h
  refine ⟨?_, ?_, ?_⟩
  · simp [List.count_eq_zero.mpr hl]
  · simpa using hn
  · intro before after heq
    by_contra hne
    obtain ⟨after, x, rfl⟩ := (List.eq_nil_or_concat after).resolve_left hne
    rw [List.concat_eq_append, ← List.cons_append, ← List.append_assoc] at heq
    have hinit := (List.append_inj' heq rfl).1
    exact hl (hinit ▸ by simp)

theorem Open.count {log : List Access} (h : Open log) :
    log.count .free = 0 ∧ log.count .handler = 0 ∧
      ∀ before after, log = before ++ .free :: after → after = [] := by
  refine ⟨List.count_eq_zero.mpr h.1, List.count_eq_zero.mpr h.2, ?_⟩
  intro before after heq
  exact absurd (heq ▸ by simp) h.1

theorem Fits.released {first : Prop} (h : Fits first t d) : Released t d := by
  unfold Fits at h
  split at h
  next hrc =>
    obtain ⟨hf, hh, hl⟩ := h.2.2.count
    exact ⟨by simp [isOver, hrc, h.2.1, hf], by simp [isOver, hrc, h.2.1, hh], hl⟩
  next hrc =>
    obtain ⟨hf, hh, hl⟩ := h.2.2.count
    exact ⟨by simp [isOver, hrc, hf], by simp [hrc, hh], hl⟩
  next hrc =>
    obtain ⟨hf, hh, hl⟩ := h.2.count
    exact ⟨by simp [isOver, hrc, h.1, hf], by simp [isOver, hrc, h.1, hh], hl⟩
  next hrc =>
    cases ho : t.over with
    | true =>
      rw [ho, if_pos rfl] at h
      obtain ⟨hf, hh, hl⟩ := h.2.2.count
      exact ⟨by simp [isOver, hrc, ho, hf], by simp [isOver, hrc, ho, hh], hl⟩
    | false =>
      rw [ho, if_neg (by simp)] at h
      obtain ⟨hf, hh, hl⟩ := h.2.2.count
      exact ⟨by simp [isOver, hrc, ho, hf], by simp [isOver, hrc, ho, hh], hl⟩
  next => exact h.elim

/-! ### Invariant -/

def InFirst (env : Env) (i : ℕ) : Prop := env.running = some ⟨i, .first⟩

structure Inv (st : State) : Prop where
  held : Held none st.env
  length : st.dispatches.length = st.env.threads.length
  made : ∀ i < st.env.threads.length, (st.env.thread i).isSome
  fits : ∀ i d, st.dispatches[i]? = some d → Fits (InFirst st.env i) (st.env.lctx i) d

/-- Thread `i` and its dispatch change. -/
theorem Inv.update (h : Inv st) (held : Held none env) {f : Thread → Thread}
    (hts : env.threads = (st.env.modify i f).threads) {g : Dispatch → Dispatch}
    (hfirst : ∀ j, j ≠ i → (InFirst env j ↔ InFirst st.env j))
    (hfit : ∀ d, st.dispatches[i]? = some d → Fits (InFirst env i) (env.lctx i) (g d)) :
    Inv { env := env, dispatches := st.dispatches.modify i g } where
  held := held
  length := by simpa [hts, Env.modify] using h.length
  made j hj := by
    have hj' : j < st.env.threads.length := by simpa [hts, Env.modify] using hj
    have hthread : env.thread j = (st.env.modify i f).thread j := by simp only [Env.thread, hts]
    rw [hthread, thread_modify]
    split
    next hji => rw [Option.isSome_map, ← hji]; exact h.made j hj'
    next => exact h.made j hj'
  fits j d hd := by
    rw [List.getElem?_modify] at hd
    by_cases hij : i = j
    · subst hij
      obtain ⟨d', hd', rfl⟩ := Option.map_eq_some_iff.mp hd
      rw [if_pos rfl]
      exact hfit d' hd'
    · have hji : j ≠ i := fun heq => hij heq.symm
      simp only [if_neg hij, Option.map_eq_map, Option.map_id'] at hd
      have hl : env.lctx j = st.env.lctx j := by
        have hmodified : (st.env.modify i f).lctx j = st.env.lctx j := lctx_modify_of_ne hji
        rw [← hmodified]
        simp only [Env.lctx, Env.thread, hts]
      have hfits := h.fits j d hd
      rwa [hl, show InFirst env j = InFirst st.env j from propext (hfirst j hji)]

theorem Inv.exists_dispatch (h : Inv st) (hi : (st.env.thread i).isSome) :
    ∃ d, st.dispatches[i]? = some d := by
  have hlt : i < st.env.threads.length := by
    by_contra hge
    rw [Env.thread, List.getElem?_eq_none (Nat.le_of_not_lt hge)] at hi
    exact absurd hi (by simp)
  exact ⟨_, List.getElem?_eq_getElem (h.length ▸ hlt)⟩

theorem inv_init : Inv {} where
  held := held_init
  length := rfl
  made i hi := absurd hi (by simp)
  fits i d hd := by simp at hd

/-! ### Handlers -/

/-- Context `i` logs `w` and its `rc` stays. -/
def Logs (i : ℕ) (w : List Access) (ds ds' : List Dispatch) : Prop :=
  ∃ g : Dispatch → Dispatch, ds' = ds.modify i g ∧ ∀ d, (g d).rc = d.rc ∧ (g d).log = d.log ++ w

theorem logs_modify {w : List Access} {g : Dispatch → Dispatch} {ds : List Dispatch}
    (hg : ∀ d, (g d).rc = d.rc ∧ (g d).log = d.log ++ w) : Logs i w ds (ds.modify i g) :=
  ⟨g, rfl, hg⟩

theorem logs_refl {ds : List Dispatch} : Logs i [] ds ds :=
  ⟨id, (List.modify_id i ds).symm, fun _ => ⟨rfl, (List.append_nil _).symm⟩⟩

theorem Logs.trans {v w : List Access} {ds ds₁ ds₂ : List Dispatch} (h : Logs i v ds ds₁)
    (h' : Logs i w ds₁ ds₂) : Logs i (v ++ w) ds ds₂ := by
  obtain ⟨g, rfl, hlog⟩ := h
  obtain ⟨g', rfl, hlog'⟩ := h'
  refine ⟨g' ∘ g, List.modify_modify_eq .., fun d => ⟨?_, ?_⟩⟩
  · exact (hlog' _).1.trans (hlog d).1
  · rw [Function.comp_apply, (hlog' _).2, (hlog d).2, List.append_assoc]

theorem Logs.get {w : List Access} {ds ds' : List Dispatch} (h : Logs i w ds ds')
    (hd : ds[i]? = some d) : ∃ d', ds'[i]? = some d' ∧ d'.rc = d.rc ∧ d'.log = d.log ++ w := by
  obtain ⟨g, rfl, hlog⟩ := h
  exact ⟨g d, by simp [hd], hlog d⟩

theorem handled_logs : Logs i [.handler, .free] st.dispatches (handled i st).dispatches :=
  logs_modify fun _ => ⟨rfl, rfl⟩

/-- A finished thread is not cancelled. -/
theorem tcpDestroy_finished (ht : st.env.thread i = some t) (hfin : t.finished = true) :
    ∃ st', tcpDestroy i st = some st' ∧ st'.env = st.env ∧
      Logs i [] st.dispatches st'.dispatches := by
  refine ⟨st.modify i fun d => { d with closed := true }, ?_, rfl,
    logs_modify fun _ => ⟨rfl, (List.append_nil _).symm⟩⟩
  have ht' : (st.modify i fun d => { d with closed := true }).env.thread i = some t := ht
  simp only [tcpDestroy, cancel, ht', hfin, if_true]

theorem socketResolveHandler_finished {destroyed : Bool} (ht : st.env.thread i = some t)
    (hfin : t.finished = true) (hd : st.dispatches[i]? = some d) :
    ∃ st', socketResolveHandler i destroyed st = some st' ∧ st'.env = st.env ∧
      Logs i [.handler, .free] st.dispatches st'.dispatches := by
  simp only [socketResolveHandler, hd]
  split
  next =>
    obtain ⟨st', hst', henv, hlogs⟩ := @tcpDestroy_finished (handled i st) _ _ ht hfin
    exact ⟨st', hst', henv, handled_logs.trans hlogs⟩
  next => exact ⟨_, rfl, rfl, handled_logs⟩

/-- What is logged when the code of a thread is back, and the return code. -/
def answer (o : Outcome) (yielded : Bool) : List Access × Rc :=
  match o with
  | .yields => ([], .again)
  | .finishes => ([.handler, .free], .ok)
  | .raises => if yielded then ([.use, .handler, .free], .ok) else ([], .error)

theorem threadHandleRc_logs {o : Outcome} {destroyed : Bool}
    (hdead : threadIsDead o i st.env = decide (o ≠ .yields))
    (hrc : Threads.threadHandleRc o i st.env = some env) (ht : env.thread i = some t)
    (hfin : o ≠ .yields → t.finished = true) (hcan : t.cancelled = false)
    (hd : st.dispatches[i]? = some d) :
    ∃ st', threadHandleRc o i destroyed st = some (st', (answer o t.yielded).2) ∧
      st'.env = env ∧ Logs i (answer o t.yielded).1 st.dispatches st'.dispatches := by
  let back : State := { st with env := env }
  have ht' : back.env.thread i = some t := ht
  have hl : env.lctx i = t := by simp [Env.lctx, ht]
  simp only [threadHandleRc, hrc, Option.bind_some, hdead]
  cases o with
  | yields => exact ⟨back, rfl, rfl, logs_refl⟩
  | finishes =>
    obtain ⟨st', hst', henv, hlogs⟩ := @socketResolveHandler_finished _ _ _ _ destroyed ht'
      (hfin (by simp)) hd
    refine ⟨st', ?_, henv, hlogs⟩
    simp [back, hst', answer]
  | raises =>
    have hbranch : ((env.lctx i).yielded || (env.lctx i).cancelled) = t.yielded := by
      rw [hl, hcan, Bool.or_false]
    simp only [errorHandler, hbranch, answer]
    cases hy : t.yielded with
    | false => exact ⟨back, by simp [back], rfl, logs_refl⟩
    | true =>
      let used : State := back.modify i fun d => { d.logged [.use] with state := luaResolveErr }
      have hused : Logs i [.use] st.dispatches used.dispatches :=
        logs_modify fun _ => ⟨rfl, rfl⟩
      obtain ⟨d', hd', -⟩ := hused.get hd
      obtain ⟨st', hst', henv, hlogs⟩ := @socketResolveHandler_finished used _ _ _ destroyed ht'
        (hfin (by simp)) hd'
      refine ⟨st', ?_, henv, hused.trans hlogs⟩
      simp only [used, back] at hst'
      simp [hst']

/-- A text that is accepted is recorded. -/
theorem chunkEnd_logs {c : Course} (hc : Accepted ps c) :
    ∃ st' w, chunkEnd ps i c st = some st' ∧ st'.env = st.env ∧
      Logs i w st.dispatches st'.dispatches ∧ ∀ log, Open log → Open (log ++ w) := by
  cases c with
  | yields => exact ⟨st, [], rfl, rfl, logs_refl, fun log h => by rwa [List.append_nil]⟩
  | raises => exact ⟨st, [], rfl, rfl, logs_refl, fun log h => by rwa [List.append_nil]⟩
  | finishes found pcalloc destroyed =>
    obtain ⟨hp, ha⟩ := hc
    obtain ⟨a, ha⟩ := Option.isSome_iff_exists.mp ha
    refine ⟨st.modify i fun d => { d.logged [.use] with addr := some a }, [.use], ?_, rfl,
      logs_modify fun _ => ⟨rfl, rfl⟩, fun log h => h.use⟩
    simp only [chunkEnd, resolverHandler, hp, if_true, ha]

/-! ### Steps -/

/-- `Inv.update` where the dispatch logs something. -/
theorem Inv.logs (h : Inv st) (held : Held none env) {f : Thread → Thread}
    (hts : env.threads = (st.env.modify i f).threads)
    (hfirst : ∀ j, j ≠ i → (InFirst env j ↔ InFirst st.env j)) {w : List Access}
    {ds : List Dispatch} (hlogs : Logs i w st.dispatches ds)
    (hfit : ∀ d d', st.dispatches[i]? = some d → d'.rc = d.rc → d'.log = d.log ++ w →
      Fits (InFirst env i) (env.lctx i) d') : Inv { env := env, dispatches := ds } := by
  obtain ⟨g, rfl, hlog⟩ := hlogs
  exact h.update held hts hfirst fun d hd => hfit d (g d) hd (hlog d).1 (hlog d).2

/-- A thread in its first run has not returned from `ngx_wasm_lua_resolver_resolve`. -/
theorem Fits.first {first : Prop} (h : Fits first t d) (hf : first) (hs : t.started = false)
    (ho : t.over = false) : d.rc = none ∧ Open d.log := by
  unfold Fits at h
  split at h
  next hrc => exact ⟨hrc, h.2.2⟩
  next => exact absurd hf h.1
  next => exact absurd (h.1.symm.trans ho) (by simp)
  next => exact absurd (h.1.symm.trans hs) (by simp)
  next => exact h.elim

/-- A pending thread has yielded. -/
theorem Fits.pending {first : Prop} (h : Fits first t d) (hf : ¬ first)
    (hp : t.pending = true) : d.rc = some .again ∧ t.yielded = true ∧ Open d.log := by
  have ho : t.over = false := by
    simp only [Thread.pending, Bool.and_eq_true, Bool.not_eq_true'] at hp
    exact hp.2
  unfold Fits at h
  split at h
  next => exact absurd h.1 hf
  next => exact absurd (h.2.1.symm.trans hp) (by simp)
  next => exact absurd (h.1.symm.trans ho) (by simp)
  next hrc =>
    rw [ho] at h
    exact ⟨hrc, h.2.1, h.2.2⟩
  next => exact h.elim

theorem resolve_inv (h : Inv st) (hrun : st.env.running = none) {s : Setup}
    (hnew : s.threadNew = true) : Inv (resolve s st) := by
  obtain ⟨held, hs⟩ := start_held (s := s) h.held hrun
  have hnone : ∀ j, ¬ InFirst st.env j := by
    intro j hj
    exact absurd (hrun.symm.trans hj) (by simp)
  refine ⟨held, ?_, ?_, ?_⟩
  · simp only [resolve, List.length_append, List.length_singleton, h.length]
    exact hs.length.symm
  · intro j hj
    change ((start s st.env).thread j).isSome
    change j < (start s st.env).threads.length at hj
    rw [hs.length] at hj
    by_cases hjn : j = st.env.threads.length
    · rw [hjn]
      exact hs.made hnew
    · rw [hs.same j hjn]
      exact h.made j (by omega)
  · intro j d hd
    simp only [resolve, List.getElem?_append, h.length] at hd
    split at hd
    next hj =>
      have hjn : j ≠ st.env.threads.length := Nat.ne_of_lt hj
      have hl : (resolve s st).env.lctx j = st.env.lctx j := by
        simp only [resolve, Env.lctx, hs.same j hjn]
      have hfirst : ¬ InFirst (resolve s st).env j := by
        intro hin
        rcases hs.running with hr | hr
        · exact absurd (hr.symm.trans hin) (by simp)
        · have heq := Option.some.inj (hr.symm.trans hin)
          exact hjn (congrArg Running.thread heq).symm
      have hfits := h.fits j d hd
      rwa [hl, show InFirst (resolve s st).env j = InFirst st.env j from
        propext (iff_of_false hfirst (hnone j))]
    next hj =>
      have hjn : j = st.env.threads.length := by
        by_contra hne
        rw [List.getElem?_eq_none (by simp; omega)] at hd
        exact absurd hd (by simp)
      subst hjn
      rw [Nat.sub_self, List.getElem?_cons_zero, Option.some.injEq] at hd
      have hover := held.blank _ hs.started
      have hpending : ((start s st.env).lctx st.env.threads.length).pending = false := by
        rw [Thread.pending, hs.started]
        rfl
      have hopen : Open [.use] := by simp [Open]
      subst hd
      rcases hs.running with hr | hr
      · have hfirst : ¬ InFirst (start s st.env) st.env.threads.length := by
          intro hin
          exact absurd (hr.symm.trans hin) (by simp)
        rw [hr]
        exact ⟨hfirst, hpending, hopen.free⟩
      · simp only [hr, Option.isSome_some, if_true]
        exact ⟨hr, hover, hopen⟩

/-- Nothing of a dispatch changes, and no thread is in its first run. -/
theorem Inv.quiet (h : Inv st) (held : Held none env) (hts : env.threads = st.env.threads)
    (hold : ∀ j, ¬ InFirst st.env j) (hnew : ∀ j, ¬ InFirst env j) :
    Inv { st with env := env } := by
  have hfixed : env.threads = (st.env.modify 0 id).threads := by
    rw [hts, modify_fixed (f := id) fun _ _ => rfl]
  refine h.logs held hfixed (fun j _ => iff_of_false (hnew j) (hold j)) logs_refl
    fun d d' hd hrc hlog => ?_
  have hl : env.lctx 0 = st.env.lctx 0 := by simp only [Env.lctx, Env.thread, hts]
  have hfits := h.fits 0 d hd
  rw [List.append_nil] at hlog
  rw [hl, show InFirst env 0 = InFirst st.env 0 from propext (iff_of_false (hnew 0) (hold 0))]
  unfold Fits at hfits ⊢
  rwa [hrc, hlog]

theorem resume_inv (h : Inv st) (hrun : st.env.running = none) :
    Inv { st with env := Threads.resume i st.env } := by
  obtain ⟨held, hts, hrunning⟩ := resume_held (i := i) h.held hrun
  refine h.quiet held hts ?_ fun j hin => hrunning _ hin rfl
  intro j hin
  exact absurd (hrun.symm.trans hin) (by simp)

theorem destroy_inv (h : Inv st) (hc : Proper ps st (.destroy i)) :
    ∃ st', tcpDestroy i st = some st' ∧ Inv st' := by
  let closing : State := st.modify i fun d => { d with closed := true }
  have hclosing : Logs i [] st.dispatches closing.dispatches :=
    logs_modify fun _ => ⟨rfl, (List.append_nil _).symm⟩
  -- without a thread to cancel the socket is closed only
  have hclosed : Inv closing := by
    refine h.logs (f := id) h.held (by rw [modify_fixed (f := id) fun _ _ => rfl]) (fun _ _ => Iff.rfl)
      hclosing fun d d' hd hrc hlog => ?_
    have hfits := h.fits i d hd
    rw [List.append_nil] at hlog
    change Fits (InFirst st.env i) (st.env.lctx i) d'
    unfold Fits at hfits ⊢
    rwa [hrc, hlog]
  cases ht : st.env.thread i with
  | none =>
    have ht' : closing.env.thread i = none := ht
    exact ⟨closing, by simp only [tcpDestroy, cancel]; rw [ht'], hclosed⟩
  | some t =>
    have ht' : closing.env.thread i = some t := ht
    have hl : st.env.lctx i = t := by simp [Env.lctx, ht]
    by_cases hfin : t.finished = true
    · exact ⟨closing, by simp only [tcpDestroy, cancel]; rw [ht']; exact if_pos hfin, hclosed⟩
    · obtain ⟨hs, hcan⟩ := (hc t ht).resolve_left hfin
      have hend : t.ended = false := by
        rw [← hl, ← h.held.finished, hl]
        exact Bool.not_eq_true _ ▸ hfin
      have hp : (st.env.lctx i).pending = true := by
        simp [hl, Thread.pending, Thread.over, hs, hcan, hend]
      obtain ⟨env₁, env₂, hcut, hdel, held, hrun, hts⟩ := cancel_held h.held hp
      let used : State := State.modify { closing with env := env₁ } i
        fun d => { d.logged [.use] with state := luaResolveErr }
      refine ⟨{ handled i used with env := env₂ }, ?_, ?_⟩
      · have hcut' : cancelUnlink i closing.env = some env₁ := hcut
        simp only [tcpDestroy, cancel]
        rw [ht']
        exact (if_neg hfin).trans (by rw [hcut', Option.bind_some, hdel]; rfl)
      · have hused : Logs i [.use] closing.dispatches used.dispatches :=
          logs_modify fun _ => ⟨rfl, rfl⟩
        have hfirst : ∀ j, InFirst env₂ j ↔ InFirst st.env j := by
          intro j
          rw [InFirst, hrun]
          exact Iff.rfl
        refine h.logs held hts (fun j _ => hfirst j) ((hclosing.trans hused).trans handled_logs)
          fun d d' hd hrc hlog => ?_
        have hnot : ¬ InFirst st.env i := by
          intro hin
          have hnew := ((h.held.running _ hin).first rfl).1
          exact absurd (hnew.symm.trans (started_of_pending hp)) (by simp)
        obtain ⟨hagain, hy, hopen⟩ := (h.fits i d hd).pending hnot hp
        have hl₂ : env₂.lctx i = { t with cancelled := true } := by
          have heq : env₂.lctx i = (st.env.modify i fun t => { t with cancelled := true }).lctx i := by
            simp only [Env.lctx, Env.thread, hts]
          rw [heq, lctx_modify_self (by rw [ht]; rfl), hl]
        have hover : (env₂.lctx i).over = true := by simp [hl₂, Thread.over]
        unfold Fits
        rw [hrc, hagain, hlog]
        refine ⟨by rw [hl₂]; exact hs, by rw [hl₂]; rw [hl] at hy; exact hy, ?_⟩
        rw [if_pos hover, List.nil_append, ← List.append_assoc]
        exact hopen.use.handled

/-- The thread is back from its first run. -/
theorem leave_first (h : Inv st) {r : Running} (hr : st.env.running = some r)
    (hfirst : r.caller = .first) {o : Outcome}
    (hyield : o = .yields → ((st.env.lctx r.thread).coCtx.bind st.env.coRef).isSome = true)
    {ds : List Dispatch} {w : List Access} (hlogs : Logs r.thread w st.dispatches ds)
    (hw : ∀ log, Open log → Open (log ++ w)) (destroyed : Bool) :
    ∃ env₁ out, firstRun o r.thread { st.env with running := none } = some env₁ ∧
      threadHandleRc o r.thread destroyed { env := env₁, dispatches := ds } = some out ∧
      Inv (resolved r.thread out.2 out.1) := by
  obtain ⟨hend, hco, hf, -⟩ := h.held.running r hr
  obtain ⟨hnew, hown⟩ := hf hfirst
  have hin : InFirst st.env r.thread := by
    rw [InFirst, hr, ← hfirst]
  have hex : (st.env.thread r.thread).isSome := by
    cases ht : st.env.thread r.thread with
    | none => simp [Env.lctx, ht] at hco
    | some t => rfl
  obtain ⟨t, ht⟩ := Option.isSome_iff_exists.mp hex
  have hl : st.env.lctx r.thread = t := by simp [Env.lctx, ht]
  obtain ⟨d, hd⟩ := h.exists_dispatch hex
  have hover := h.held.blank r.thread hnew
  obtain ⟨hrc, hopen⟩ := (h.fits _ d hd).first hin hnew hover
  have howned : o = .yields → Owned st.env.coRef r.thread (st.env.lctx r.thread) := by
    intro ho
    refine hown.resolve_right fun hlost => ?_
    have hsome := hyield ho
    rw [hlost.1, Option.bind_some, hlost.2] at hsome
    exact absurd hsome (by simp)
  obtain ⟨env₁, hrun, hidle, held₁, hp₁, hts₁⟩ := firstRun_held (o := o) (idle_held h.held) rfl
    (h.held.entered r.thread hco) hco hnew howned
  obtain ⟨hdead, env₂, hrc₂, held₂, hidle₂, hts₂⟩ := threadHandleRc_held (o := o) held₁ hidle hp₁
    (by by_cases ho : o = .yields <;> simp [ho])
  have hts : env₂.threads = (st.env.modify r.thread (left o ∘ ranFirst o)).threads := by
    rw [hts₂, Env.modify, hts₁]
    simp only [Env.modify, List.modify_modify_eq]
    congr 1
    funext t
    cases t <;> rfl
  have ht₂ : env₂.thread r.thread = some (left o (ranFirst o t)) := by
    have heq : env₂.thread r.thread = (st.env.modify r.thread (left o ∘ ranFirst o)).thread r.thread := by
      simp only [Env.thread, hts]
    rw [heq, thread_modify, if_pos rfl, ht]
    rfl
  have hcan : t.cancelled = false := by
    rw [hl, Thread.over, Bool.or_eq_false_iff] at hover
    exact hover.2
  obtain ⟨d₁, hd₁, hrc₁, hlog₁⟩ := hlogs.get hd
  obtain ⟨st', hst', henv, hlogs'⟩ := @threadHandleRc_logs
    { env := env₁, dispatches := ds } _ _ _ _ _ _ hdead hrc₂ ht₂
    (by intro ho; simp [left, ho]) (by by_cases ho : o = .yields <;> simp [left, ho, ranFirst, hcan])
    hd₁
  refine ⟨env₁, _, hrun, hst', ?_⟩
  obtain ⟨g, hg, hlog⟩ := hlogs.trans hlogs'
  have hout (rc : Rc) : resolved r.thread rc st' =
      { env := env₂
        dispatches := st.dispatches.modify r.thread fun d =>
          { g d with rc := some rc, log := if rc = .error then (g d).log ++ [.free] else (g d).log } } := by
    change ({ env := st'.env, dispatches := st'.dispatches.modify _ _ } : State) = _
    rw [henv, hg, List.modify_modify_eq]
    rfl
  rw [hout]
  refine h.update held₂ hts ?_ ?_
  · intro j hj
    refine iff_of_false (fun hx => absurd (hidle₂.symm.trans hx) (by simp)) fun hx => ?_
    exact hj (congrArg Running.thread (Option.some.inj (hin.symm.trans hx))).symm
  · intro d' hd'
    obtain rfl : d = d' := Option.some.inj (hd.symm.trans hd')
    have hnot : ¬ InFirst env₂ r.thread := fun hx => absurd (hidle₂.symm.trans hx) (by simp)
    have hl₂ : env₂.lctx r.thread = left o (ranFirst o t) := by simp [Env.lctx, ht₂]
    rw [hl] at hover
    have hg' := (hlog d).2
    rw [hl₂]
    cases o with
    | yields =>
      refine ⟨rfl, rfl, ?_⟩
      rw [if_neg (by simpa [left, ranFirst, Thread.over] using hover)]
      simpa [answer, hg'] using hw _ hopen
    | finishes =>
      refine ⟨rfl, ?_⟩
      rw [← List.append_assoc] at hg'
      simpa [answer, left, ranFirst, hg'] using (hw _ hopen).handled
    | raises =>
      refine ⟨hnot, rfl, ?_⟩
      simpa [answer, left, ranFirst, hg'] using (hw _ hopen).free

/-- The thread is back from a later run. -/
theorem leave_resumed (h : Inv st) {r : Running} (hr : st.env.running = some r)
    (hresumed : r.caller = .resumed) (hcan : (st.env.lctx r.thread).cancelled = false)
    {o : Outcome} {ds : List Dispatch} {w : List Access} (hlogs : Logs r.thread w st.dispatches ds)
    (hw : ∀ log, Open log → Open (log ++ w)) (destroyed : Bool) :
    ∃ out, threadHandleRc o r.thread destroyed
        { env := { st.env with running := none }, dispatches := ds } = some out ∧ Inv out.1 := by
  obtain ⟨hend, hco, -, hs⟩ := h.held.running r hr
  have hstarted := hs hresumed
  have hnot : ∀ j, ¬ InFirst st.env j := by
    intro j hj
    have heq := Option.some.inj (hr.symm.trans hj)
    rw [heq] at hresumed
    cases hresumed
  obtain ⟨t, ht⟩ := Option.isSome_iff_exists.mp (exists_of_started hstarted)
  have hl : st.env.lctx r.thread = t := by simp [Env.lctx, ht]
  have hp : (st.env.lctx r.thread).pending = true := by
    simp [Thread.pending, Thread.over, hstarted, hend, hcan]
  obtain ⟨d, hd⟩ := h.exists_dispatch (i := r.thread) (by rw [ht]; rfl)
  obtain ⟨hagain, hy, hopen⟩ := (h.fits _ d hd).pending (hnot _) hp
  obtain ⟨hdead, env₂, hrc₂, held₂, hidle₂, hts₂⟩ := threadHandleRc_held (o := o)
    (idle_held h.held) rfl hp (.inl rfl)
  have ht₂ : env₂.thread r.thread = some (left o t) := by
    have heq : env₂.thread r.thread = (st.env.modify r.thread (left o)).thread r.thread := by
      simp only [Env.thread, hts₂]
      rfl
    rw [heq, thread_modify, if_pos rfl, ht]
    rfl
  rw [hl] at hcan hy
  have hyielded : (left o t).yielded = true := by
    by_cases ho : o = .yields <;> simp [left, ho, hy]
  obtain ⟨d₁, hd₁, hrc₁, hlog₁⟩ := hlogs.get hd
  obtain ⟨st', hst', henv, hlogs'⟩ := @threadHandleRc_logs
    { env := { st.env with running := none }, dispatches := ds } _ _ _ _ _ _ hdead hrc₂ ht₂
    (by intro ho; simp [left, ho]) (by by_cases ho : o = .yields <;> simp [left, ho, hcan]) hd₁
  refine ⟨_, hst', ?_⟩
  have hstate : st' = { env := env₂, dispatches := st'.dispatches } := by rw [← henv]
  rw [hstate]
  refine h.logs held₂ hts₂ ?_ (hlogs.trans hlogs') ?_
  · intro j _
    exact iff_of_false (fun hx => absurd (hidle₂.symm.trans hx) (by simp)) (hnot j)
  · intro d' d₂ hd' hrc hlog
    obtain rfl : d = d' := Option.some.inj (hd.symm.trans hd')
    have hl₂ : env₂.lctx r.thread = left o t := by simp [Env.lctx, ht₂]
    rw [hyielded] at hlog
    have hopen' := hw _ hopen
    unfold Fits
    rw [hrc, hagain, hl₂, hlog, ← List.append_assoc]
    have hst : (left o t).started = true := by
      rw [hl] at hstarted
      by_cases ho : o = .yields <;> simp [left, ho, hstarted]
    refine ⟨hst, hyielded, ?_⟩
    cases o with
    | yields =>
      have hover : t.over = false := by
        rw [hl] at hend
        simp [Thread.over, hend, hcan]
      rw [if_neg (by simpa [left] using hover)]
      simpa [answer] using hopen'
    | finishes =>
      rw [if_pos (show (left .finishes t).over = true from rfl)]
      exact hopen'.handled
    | raises =>
      rw [if_pos (show (left .raises t).over = true from rfl)]
      have huse := hopen'.use.handled
      rw [List.append_assoc] at huse
      exact huse

theorem leave_inv (h : Inv st) {c : Course} {destroyed : Bool}
    (hc : Proper ps st (.leave c destroyed)) :
    ∃ st', leave ps c destroyed st = some st' ∧ Inv st' := by
  unfold leave
  cases hr : st.env.running with
  | none => exact ⟨st, rfl, h⟩
  | some r =>
    obtain ⟨hcan, hacc, hyield, hentry⟩ := hc r hr
    obtain ⟨st₁, w, hchunk, henv, hlogs, hw⟩ := @chunkEnd_logs _ st r.thread _ hacc
    simp only [hchunk, Option.bind_some, henv]
    cases hcaller : r.caller with
    | first =>
      obtain ⟨env₁, out, hrun, hout, hinv⟩ := leave_first h hr hcaller hyield hlogs hw destroyed
      exact ⟨_, by simp only [hrun, Option.bind_some, hout, Option.map_some], hinv⟩
    | resumed =>
      obtain ⟨out, hout, hinv⟩ := leave_resumed (o := c.outcome) h hr hcaller hcan hlogs hw destroyed
      exact ⟨_, by simp only [hout, Option.map_some], hinv⟩
    | asEntry =>
      have hyields : c.outcome = .yields := by
        by_contra ho
        exact hentry ho hcaller
      obtain rfl : c = .yields := by
        cases c with
        | yields => rfl
        | finishes => cases hyields
        | raises => cases hyields
      obtain rfl : st = st₁ := Option.some.inj hchunk
      obtain ⟨hend, -, -, -⟩ := h.held.running r hr
      have hnot : ∀ j, ¬ InFirst st.env j := by
        intro j hj
        rw [Option.some.inj (hr.symm.trans hj)] at hcaller
        cases hcaller
      have hfixed : Env.modify { st.env with running := none } r.thread (fun t =>
          { t with ended := decide (Course.yields.outcome ≠ .yields) }) =
            { st.env with running := none } := by
        refine modify_fixed fun t ht => ?_
        have hl : st.env.lctx r.thread = t := by
          have ht' : st.env.thread r.thread = some t := ht
          simp [Env.lctx, ht']
        rw [hl] at hend
        simp [Course.outcome, ← hend]
      refine ⟨_, rfl, ?_⟩
      rw [hfixed]
      exact h.quiet (idle_held h.held) rfl hnot fun j hj => absurd hj (by simp [InFirst])

/-! ### Runs -/

theorem next_inv (h : Inv st) {e : Resolver.Event} (hc : Proper ps st e) :
    ∃ st', next ps st e = some st' ∧ Inv st' := by
  cases e with
  | resolve s =>
    refine ⟨_, rfl, ?_⟩
    split
    next => exact h
    next hrun =>
      rw [Bool.not_eq_true, Option.isSome_eq_false_iff, Option.isNone_iff_eq_none] at hrun
      exact resolve_inv h hrun (hc hrun)
  | resume i =>
    refine ⟨_, rfl, ?_⟩
    split
    next => exact h
    next hrun =>
      rw [Bool.not_eq_true, Option.isSome_eq_false_iff, Option.isNone_iff_eq_none] at hrun
      exact resume_inv h hrun
  | leave c destroyed => exact leave_inv h hc
  | destroy i => exact destroy_inv h hc

/-- No call dereferenced `NULL`, and every context is as it should be. -/
def AllReleased (st : Option State) : Prop :=
  ∃ s, st = some s ∧ ∀ i d, s.dispatches[i]? = some d → Released (s.env.lctx i) d

def ProperIn (ps : Parsers) (st : Option State) (e : Resolver.Event) : Prop :=
  ∀ s ∈ st, Proper ps s e

instance (ps : Parsers) (st : Option State) (e : Resolver.Event) :
    Decidable (ProperIn ps st e) := by
  unfold ProperIn; infer_instance

/-- In every state of a run whose steps are proper. -/
theorem released_once (ps : Parsers) (es : List Resolver.Event)
    (h : Meets (step ps) (ProperIn ps) (some {}) es) (k : ℕ) :
    AllReleased (exec (step ps) (some {}) (es.take k)).1 := by
  rw [← List.take_append_drop k es, meets_append] at h
  obtain ⟨st, hst, hinv⟩ := exec_invariant (step ps) (ProperIn ps)
    (fun st => ∃ s, st = some s ∧ Inv s) (fun st e hi hc => by
      obtain ⟨s, rfl, hinv⟩ := hi
      exact next_inv hinv (hc s rfl)) (es.take k) (some {}) ⟨_, rfl, inv_init⟩ h.1
  exact ⟨st, hst, fun i d hd => (hinv.fits i d hd).released⟩

/-- `127.0.0.1` alone is an address. -/
def loopback : Parsers where
  inetAddr ip := if ip = [49, 50, 55, 46, 48, 46, 48, 46, 49] then 0x0100007f#32 else inaddrNone
  inet6Addr _ := none

def resolvedRun : List Resolver.Event :=
  [.resolve {}, .leave .yields false, .resume 0,
    .leave (.finishes ⟨[49, 50, 55, 46, 48, 46, 48, 46, 49], 80⟩ true false) false, .destroy 0]

theorem released_once_resumed :
    AllReleased (exec (step loopback) (some {}) (resolvedRun.take 5)).1 :=
  released_once loopback resolvedRun ⟨by decide, by decide, by decide,
    by decide, by decide, trivial⟩ 5

/-- The text `localhost` is no address; a socket is destroyed twice. -/
theorem freed_twice :
    ¬ AllReleased (exec (step loopback) (some {}) [.resolve {},
        .leave (.finishes ⟨[108, 111, 99, 97, 108, 104, 111, 115, 116], 80⟩ true false) false]).1 ∧
      ¬ AllReleased (exec (step loopback) (some {}) [.resolve {}, .leave .yields false,
        .destroy 0, .destroy 0]).1 := by
  have hfrees : ∀ es : List Resolver.Event,
      ((exec (step loopback) (some {}) es).1.map fun st =>
        st.dispatches.map fun d => d.log.count .free) = some [2] →
      ¬ AllReleased (exec (step loopback) (some {}) es).1 := by
    intro es htwice h
    obtain ⟨st, hst, hall⟩ := h
    rw [hst, Option.map_some, Option.some.injEq] at htwice
    cases hds : st.dispatches with
    | nil => simp [hds] at htwice
    | cons d ds =>
      rw [hds, List.map_cons, List.cons.injEq] at htwice
      have hfree := (hall 0 d (by rw [hds]; rfl)).free
      rw [htwice.1] at hfree
      split at hfree <;> omega
  exact ⟨hfrees _ (by decide), hfrees _ (by decide)⟩

end NgxWasm.Lua.ResolverOnce
