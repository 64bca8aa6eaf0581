import NgxWasm.Lua.ThreadQueue

/-!
# Threads between two calls

What the calls of `ngx_wasm_lua.c` keep in runs in which threads may also run in the place
of a cancelled entry thread: the queue holds the pending threads, and each of them has a
coroutine of its own.
-/

namespace NgxWasm.Lua.ResolverThreads
open NgxWasm.Lib NgxWasm.Lib.LinkedQueue NgxWasm.Lua.Threads NgxWasm.Lua.ThreadQueue

variable {env env' : Env} {s : Setup} {o : Outcome} {xs : List ℕ} {i j : ℕ}

/-! ### Invariant -/

/-- The co ctx of thread `i` refers to the coroutine of thread `i`. -/
def Owned (refs : CoCtx → Option Co) (i : ℕ) (t : Thread) : Prop :=
  t.coCtx = some (.created i) ∧ refs (.created i) = some (.user i) ∨
    t.coCtx = some .entryCoCtx ∧ refs .entryCoCtx = some (.user i)

/-- In its first run a thread that replaces the entry thread may lose its coroutine. -/
structure RunHeld (refs : CoCtx → Option Co) (r : Running) (t : Thread) : Prop where
  ended : t.ended = false
  coCtx : t.coCtx ≠ none
  first : r.caller = .first → t.started = false ∧
    (Owned refs r.thread t ∨ t.coCtx = some .entryCoCtx ∧ refs .entryCoCtx = none)
  resumed : r.caller = .resumed → t.started = true

/-- `leaving` is a thread whose code has just ended. -/
structure Held (leaving : Option ℕ) (env : Env) : Prop where
  queued : ∃ xs, Queued env xs
  entry : ∀ e, env.entryLctx = some e → e.finished = false ∧ e.coCtx = some .entryCoCtx
  entered : ∀ i, (env.lctx i).coCtx ≠ none → env.entryLctx ≠ none
  running : ∀ r, env.running = some r → RunHeld env.coRef r (env.lctx r.thread)
  finished : ∀ i, (env.lctx i).finished = (env.lctx i).ended
  blank : ∀ i, (env.lctx i).started = false → (env.lctx i).over = false
  owned : ∀ i, leaving ≠ some i → (env.lctx i).pending = true → Owned env.coRef i (env.lctx i)

theorem Owned.coCtx {refs : CoCtx → Option Co} {t : Thread} (h : Owned refs i t) :
    t.coCtx ≠ none := by
  rcases h with h | h <;> simp [h.1]

theorem Owned.congr {refs refs' : CoCtx → Option Co} {t t' : Thread} (h : Owned refs i t)
    (hco : t'.coCtx = t.coCtx) (hrefs : ∀ c, t.coCtx = some c → refs' c = refs c) :
    Owned refs' i t' := by
  rcases h with ⟨hc, hr⟩ | ⟨hc, hr⟩
  · exact .inl ⟨hco.trans hc, (hrefs _ hc).trans hr⟩
  · exact .inr ⟨hco.trans hc, (hrefs _ hc).trans hr⟩

/-- The reference of another co ctx changes. -/
theorem Owned.update {refs : CoCtx → Option Co} {t : Thread} (h : Owned refs i t) {c : CoCtx}
    (hne : t.coCtx ≠ some c) (co : Option Co) : Owned (Function.update refs c co) i t := by
  refine h.congr rfl fun c' hc' => Function.update_of_ne ?_ _ _
  intro heq
  exact hne (heq ▸ hc')

theorem held_init : Held none {} where
  queued := by
    refine ⟨[], rep_init, ?_, fun i _ => rfl⟩
    intro i
    simp [Env.lctx, Env.thread, Thread.pending]
  entry e he := by simp at he
  entered i hi := by simp [Env.lctx, Env.thread] at hi
  running r hr := by simp at hr
  finished i := by simp [Env.lctx, Env.thread]
  blank i _ := by simp [Env.lctx, Env.thread, Thread.over]
  owned i _ hp := by simp [Env.lctx, Env.thread, Thread.pending] at hp

/-! ### Start -/

theorem held_snoc (h : Held none env) {t : Option Thread} (ht : t.getD {} = {}) :
    Held none { env with threads := env.threads ++ [t] } := by
  have hl : Env.lctx { env with threads := env.threads ++ [t] } = env.lctx :=
    funext (lctx_snoc ht)
  obtain ⟨xs, hq⟩ := h.queued
  refine ⟨⟨xs, hq.congr rfl ?_ ?_⟩, h.entry, ?_, ?_, ?_, ?_, ?_⟩
  · intro i; rw [hl]
  · intro i; rw [hl]
  all_goals rw [hl]
  · exact h.entered
  · exact h.running
  · exact h.finished
  · exact h.blank
  · exact h.owned

theorem entryThreadStart_held (h : Held none env) (hrun : env.running = none)
    (hs : entryThreadStart s env = some env') :
    Held none env' ∧ env'.entryLctx ≠ none ∧ env'.running = none ∧
      env'.threads = env.threads := by
  unfold entryThreadStart at hs
  cases he : env.entryLctx with
  | some e =>
    simp only [he, Option.some.injEq] at hs
    subst hs
    exact ⟨h, by simp [he], hrun, rfl⟩
  | none =>
    simp only [he] at hs
    split at hs
    next hnew =>
      rw [Option.some.injEq] at hs
      subst hs
      obtain ⟨xs, hq⟩ := h.queued
      have hnone : ∀ i, (env.lctx i).coCtx = none := by
        intro i
        by_contra hi
        exact h.entered i hi he
      refine ⟨⟨⟨xs, hq.congr rfl (fun _ => rfl) fun _ => rfl⟩, ?_, ?_, ?_, h.finished, h.blank, ?_⟩,
        by simp, hrun, rfl⟩
      · intro e heq
        rw [Option.some.injEq] at heq
        subst heq
        exact ⟨rfl, rfl⟩
      · intro i _
        simp
      · intro r hr
        exact absurd (hrun.symm.trans hr) (by simp)
      · intro i hi hp
        exact absurd (hnone i) (h.owned i hi hp).coCtx
    next => simp at hs

/-- Thread `i` gets a co ctx that no pending thread has. -/
theorem enter_held (h : Held none env) (he : env.entryLctx ≠ none)
    (hi : (env.thread i).isSome) (hnew : env.lctx i = {}) {c : CoCtx}
    (hc : c = .created i ∨ c = .entryCoCtx)
    (hfree : ∀ j, (env.lctx j).pending = true → (env.lctx j).coCtx ≠ some c) :
    Held none { env.modify i fun t => { t with coCtx := some c } with
      coRef := Function.update env.coRef c (some (.user i))
      running := some ⟨i, .first⟩ } := by
  let f : Thread → Thread := fun t => { t with coCtx := some c }
  have hl : ∀ j, (env.modify i f).lctx j = if j = i then { coCtx := some c } else env.lctx j := by
    intro j
    rw [lctx_modify hi]
    split
    next => simp only [f, hnew]
    next => rfl
  have hpending : ∀ j, ((env.modify i f).lctx j).pending = (env.lctx j).pending := by
    intro j
    rw [hl]
    split
    next hji => rw [hji, hnew]; rfl
    next => rfl
  obtain ⟨xs, hq⟩ := h.queued
  refine ⟨⟨xs, hq.congr rfl ?_ hpending⟩, h.entry, fun _ _ => he, ?_, ?_, ?_, ?_⟩
  · intro j
    change ((env.modify i f).lctx j).started = _
    rw [hl]
    split
    next hji => rw [hji, hnew]
    next => rfl
  · intro r hr
    simp only [Option.some.injEq] at hr
    subst hr
    have hself : Function.update env.coRef c (some (Co.user i)) c = some (.user i) :=
      Function.update_self ..
    change RunHeld _ _ ((env.modify i f).lctx i)
    rw [hl, if_pos rfl]
    refine ⟨rfl, by simp, fun _ => ⟨rfl, .inl ?_⟩, nofun⟩
    rcases hc with hc | hc
    · subst hc
      exact .inl ⟨rfl, hself⟩
    · subst hc
      exact .inr ⟨rfl, hself⟩
  · intro j
    change ((env.modify i f).lctx j).finished = ((env.modify i f).lctx j).ended
    rw [hl]
    split
    next => rfl
    next => exact h.finished j
  · intro j hj
    change ((env.modify i f).lctx j).started = false at hj
    change ((env.modify i f).lctx j).over = false
    rw [hl] at hj ⊢
    split at hj
    next hji => rw [if_pos hji]; rfl
    next hji => rw [if_neg hji]; exact h.blank j hj
  · intro j hne hp
    change ((env.modify i f).lctx j).pending = true at hp
    change Owned _ j ((env.modify i f).lctx j)
    rw [hpending] at hp
    have hji : j ≠ i := by
      intro heq
      rw [heq, hnew] at hp
      exact absurd hp (by decide)
    rw [hl, if_neg hji]
    exact (h.owned j hne hp).update (hfree j hp) _

theorem threadInit_held (h : Held none env) (he : env.entryLctx ≠ none)
    (hi : (env.thread i).isSome) (hnew : env.lctx i = {})
    (hs : threadInit s i env = some env') :
    Held none { env' with running := some ⟨i, .first⟩ } ∧
      ∃ c, env'.threads = (env.modify i fun t => { t with coCtx := some c }).threads := by
  unfold threadInit at hs
  cases href : env.coRef .entryCoCtx with
  | none =>
    simp only [href, Option.some.injEq] at hs
    subst hs
    refine ⟨enter_held h he hi hnew (.inr rfl) ?_, _, rfl⟩
    intro j hp hco
    rcases h.owned j (by simp) hp with ⟨hj, -⟩ | ⟨-, hj⟩
    · simp [hj] at hco
    · simp [href] at hj
  | some co =>
    simp only [href] at hs
    split at hs
    next =>
      rw [Option.some.injEq] at hs
      subst hs
      refine ⟨enter_held h he hi hnew (.inl rfl) ?_, _, rfl⟩
      intro j hp hco
      rcases h.owned j (by simp) hp with ⟨hj, -⟩ | ⟨hj, -⟩
      · rw [hj, Option.some.injEq, CoCtx.created.injEq] at hco
        rw [hco, hnew] at hp
        exact absurd hp (by decide)
      · simp [hj] at hco
    next => simp at hs

/-- The threads from before stay, and the new one has not come out of a first run. -/
structure Started (s : Setup) (env env' : Env) : Prop where
  length : env'.threads.length = env.threads.length + 1
  same : ∀ j, j ≠ env.threads.length → env'.thread j = env.thread j
  made : s.threadNew = true → (env'.thread env.threads.length).isSome
  started : (env'.lctx env.threads.length).started = false
  running : env'.running = none ∨ env'.running = some ⟨env.threads.length, .first⟩

theorem started_snoc (hrun : env'.running = none ∨ env'.running = some ⟨env.threads.length, .first⟩)
    {t : Option Thread} (ht : env'.threads = env.threads ++ [t])
    (hnew : s.threadNew = true → t.isSome) (hstarted : (t.getD {}).started = false) :
    Started s env env' where
  length := by rw [ht, List.length_append, List.length_singleton]
  same j hj := by
    simp only [Env.thread, ht, List.getElem?_append]
    split
    next => rfl
    next hlt =>
      rw [List.getElem?_eq_none (by simp; omega), List.getElem?_eq_none (by omega)]
  made h := by simpa [Env.thread, ht] using hnew h
  started := by simpa [Env.lctx, Env.thread, ht] using hstarted
  running := hrun

theorem modify_snoc {ts : List (Option Thread)} {t : Option Thread} {f : Thread → Thread} :
    (ts ++ [t]).modify ts.length (Option.map f) = ts ++ [t.map f] := by
  induction ts with
  | nil => rfl
  | cons x ts ih =>
    rw [List.cons_append, List.length_cons, List.modify_succ_cons, ih, List.cons_append]

theorem threadRun_held (h : Held none env) (hrun : env.running = none)
    {ts : List (Option Thread)} (hts : env.threads = ts ++ [some ({} : Thread)]) :
    Held none (threadRun s ts.length env) ∧
      ∃ co, (threadRun s ts.length env).threads = ts ++ [some { coCtx := co }] ∧
        ((threadRun s ts.length env).running = none ∨
          (threadRun s ts.length env).running = some ⟨ts.length, .first⟩) := by
  unfold threadRun
  cases he : entryThreadStart s env with
  | none => exact ⟨h, none, hts, .inl hrun⟩
  | some env₁ =>
    obtain ⟨h₁, hentry, hrun₁, hts₁⟩ := entryThreadStart_held h hrun he
    rw [hts] at hts₁
    simp only
    cases ht : threadInit s ts.length env₁ with
    | none => exact ⟨h₁, none, hts₁, .inl hrun₁⟩
    | some env₂ =>
      obtain ⟨h₂, c, hts₂⟩ := threadInit_held h₁ hentry (by simp [Env.thread, hts₁])
        (by simp [Env.lctx, Env.thread, hts₁]) ht
      refine ⟨h₂, some c, ?_, .inr rfl⟩
      change env₂.threads = _
      rw [hts₂, Env.modify, hts₁, modify_snoc]
      rfl

theorem start_held (h : Held none env) (hrun : env.running = none) :
    Held none (start s env) ∧ Started s env (start s env) := by
  unfold start
  split
  next hnew =>
    have h' := held_snoc (t := some {}) h rfl
    split
    next hargs =>
      obtain ⟨hrunning, co, hts, hor⟩ := threadRun_held (s := s) h' hrun rfl
      exact ⟨hrunning, started_snoc hor hts (fun _ => rfl) rfl⟩
    next => exact ⟨h', started_snoc (.inl hrun) rfl (fun _ => rfl) rfl⟩
  next hnew =>
    exact ⟨held_snoc h rfl, started_snoc (.inl hrun) rfl (fun hn => absurd hn hnew) rfl⟩

/-! ### Leave -/

theorem modify_fixed {f : Thread → Thread} (h : ∀ t, env.thread i = some t → f t = t) :
    env.modify i f = env := by
  have hts : env.threads.modify i (Option.map f) = env.threads := by
    refine List.ext_getElem? fun j => ?_
    rw [List.getElem?_modify]
    split
    next hij =>
      subst hij
      cases ht : env.threads[i]? with
      | none => rfl
      | some t =>
        cases t with
        | none => rfl
        | some t =>
          have hfix := h t (by simp [Env.thread, ht])
          simp [hfix]
    next => simp
  rw [Env.modify, hts]

/-- Thread after its first run, and after its code came back to `thread_handle_rc`. -/
def ranFirst (o : Outcome) (t : Thread) : Thread :=
  { t with started := true, yielded := decide (o = .yields) }

def left (o : Outcome) (t : Thread) : Thread :=
  if o = .yields then t else { t with finished := true, ended := true }

/-- A pending thread leaves the queue for good. -/
theorem unlink_held {d : Option ℕ} (h : Held d env) (hd : d = none ∨ d = some i)
    (hp : (env.lctx i).pending = true) {f : Thread → Thread}
    (hco : (f (env.lctx i)).coCtx = (env.lctx i).coCtx)
    (hs : (f (env.lctx i)).started = true) (ho : (f (env.lctx i)).over = true)
    (hfin : (f (env.lctx i)).finished = (f (env.lctx i)).ended)
    (hend : env.running ≠ none → (f (env.lctx i)).ended = (env.lctx i).ended) :
    ∃ q, env.subCtxs.remove i = some q ∧
      Held none { env.modify i f with subCtxs := q, unlinks := env.unlinks ++ [i] } := by
  obtain ⟨xs, hq⟩ := h.queued
  obtain ⟨q, hrem, hq'⟩ := hq.unlink hp ho hs
  have hl : ∀ j, (env.modify i f).lctx j = if j = i then f (env.lctx i) else env.lctx j :=
    lctx_modify (exists_of_started (started_of_pending hp))
  refine ⟨q, hrem, ⟨⟨_, hq'⟩, h.entry, ?_, ?_, ?_, ?_, ?_⟩⟩
  · intro j hj
    change ((env.modify i f).lctx j).coCtx ≠ none at hj
    rw [hl] at hj
    split at hj
    next => exact h.entered i (hco ▸ hj)
    next => exact h.entered j hj
  · intro r hr
    have hri := h.running r hr
    change RunHeld _ r ((env.modify i f).lctx r.thread)
    rw [hl]
    split
    next hrt =>
      rw [hrt] at hri
      have hne : env.running ≠ none := by
        intro hnone
        exact absurd (hnone.symm.trans hr) (by simp)
      refine ⟨(hend hne).trans hri.ended, hco ▸ hri.coCtx, ?_, fun _ => hs⟩
      intro hfirst
      exact absurd ((hri.first hfirst).1.symm.trans (started_of_pending hp)) (by simp)
    next => exact hri
  · intro j
    change ((env.modify i f).lctx j).finished = ((env.modify i f).lctx j).ended
    rw [hl]
    split
    next => exact hfin
    next => exact h.finished j
  · intro j hj
    change ((env.modify i f).lctx j).started = false at hj
    change ((env.modify i f).lctx j).over = false
    rw [hl] at hj ⊢
    split at hj
    next => rw [hs] at hj; exact absurd hj (by simp)
    next hji => rw [if_neg hji]; exact h.blank j hj
  · intro j _ hj
    change ((env.modify i f).lctx j).pending = true at hj
    change Owned _ j ((env.modify i f).lctx j)
    rw [hl] at hj ⊢
    split at hj
    next => simp [Thread.pending, ho] at hj
    next hji =>
      rw [if_neg hji]
      refine h.owned j ?_ hj
      rcases hd with hd | hd
      · simp [hd]
      · rw [hd]
        intro heq
        exact hji (Option.some.inj heq).symm

theorem idle_held (h : Held none env) : Held none { env with running := none } where
  queued := by
    obtain ⟨xs, hq⟩ := h.queued
    exact ⟨xs, hq.congr rfl (fun _ => rfl) fun _ => rfl⟩
  entry := h.entry
  entered := h.entered
  running r hr := by simp at hr
  finished := h.finished
  blank := h.blank
  owned := h.owned

/-- The thread yields, or its code has ended and it leaves the queue. -/
theorem threadHandleRc_held {d : Option ℕ} (h : Held d env) (hrun : env.running = none)
    (hp : (env.lctx i).pending = true)
    (hd : d = none ∨ o ≠ .yields ∧ d = some i) :
    threadIsDead o i env = decide (o ≠ .yields) ∧
      ∃ env', threadHandleRc o i env = some env' ∧ Held none env' ∧ env'.running = none ∧
        env'.threads = (env.modify i (left o)).threads := by
  by_cases ho : o = .yields
  · obtain rfl : d = none := hd.resolve_right fun hd => hd.1 ho
    subst ho
    have hdead : threadIsDead .yields i env = false := by
      rcases h.owned i (by simp) hp with ⟨hco, href⟩ | ⟨hco, href⟩ <;>
        simp [threadIsDead, hco, href]
    refine ⟨hdead, env, ?_, h, hrun, ?_⟩
    · simp only [threadHandleRc, hdead, Bool.false_eq_true, if_false]
    · rw [modify_fixed (f := left .yields) fun _ _ => rfl]
  · have hdead : threadIsDead o i env = true := by simp [threadIsDead, ho]
    have hleft : left o = fun t => { t with finished := true, ended := true } :=
      funext fun t => if_neg ho
    obtain ⟨q, hq, hheld⟩ := unlink_held (f := left o) h (hd.imp_right (·.2)) hp (by rw [hleft])
      (by rw [hleft]; exact started_of_pending hp) (by simp [hleft, Thread.over]) (by rw [hleft])
      (fun hne => absurd hrun hne)
    have hdec : decide (o ≠ .yields) = true := decide_eq_true ho
    refine ⟨hdead.trans hdec.symm, _, ?_, hheld, hrun, rfl⟩
    rw [hleft]
    have hq' : (env.modify i fun t =>
        { t with finished := true, ended := true }).subCtxs.remove i = some q := hq
    simp only [threadHandleRc, hdead, if_true, hdec, unlink, hq', Option.map_some]
    rfl

/-- A thread comes back from its first run. -/
theorem firstRun_held (h : Held none env) (hrun : env.running = none)
    (he : env.entryLctx ≠ none) (hco : (env.lctx i).coCtx ≠ none)
    (hnew : (env.lctx i).started = false) (hown : o = .yields → Owned env.coRef i (env.lctx i)) :
    ∃ env', firstRun o i env = some env' ∧ env'.running = none ∧
      Held (if o = .yields then none else some i) env' ∧ (env'.lctx i).pending = true ∧
      env'.threads = (env.modify i (ranFirst o)).threads := by
  obtain ⟨e, he⟩ := Option.ne_none_iff_exists'.mp he
  have hex : (env.thread i).isSome := by
    cases ht : env.thread i with
    | none => simp [Env.lctx, ht] at hco
    | some t => rfl
  let f : Thread → Thread := ranFirst o
  have hover : (f (env.lctx i)).over = false := h.blank i hnew
  have hpending : (f (env.lctx i)).pending = true := by
    rw [Thread.pending, hover]
    rfl
  obtain ⟨xs, hq⟩ := h.queued
  obtain ⟨q, hins, hq'⟩ := hq.link (f := f) hex hnew hpending
  have hl : ∀ j, (env.modify i f).lctx j = if j = i then f (env.lctx i) else env.lctx j :=
    lctx_modify hex
  have hfirst : firstRun o i env =
      ((env.modify i f).subCtxs.insertTail i).map fun q => { env.modify i f with subCtxs := q } := by
    unfold firstRun link
    split
    next hn => exact absurd (he.symm.trans hn) (by simp)
    next => rfl
  refine ⟨{ env.modify i f with subCtxs := q }, ?_, hrun,
    ⟨⟨_, hq'⟩, h.entry, ?_, ?_, ?_, ?_, ?_⟩, ?_, rfl⟩
  · rw [hfirst, hins]
    rfl
  · intro _ _ hn
    exact absurd (he.symm.trans hn) (by simp)
  · intro r hr
    exact absurd (hrun.symm.trans hr) (by simp)
  · intro j
    change ((env.modify i f).lctx j).finished = ((env.modify i f).lctx j).ended
    rw [hl]
    split
    next => exact h.finished i
    next => exact h.finished j
  · intro j hj
    change ((env.modify i f).lctx j).started = false at hj
    change ((env.modify i f).lctx j).over = false
    rw [hl] at hj ⊢
    split at hj
    next => exact absurd hj (by simp [f, ranFirst])
    next hji => rw [if_neg hji]; exact h.blank j hj
  · intro j hne hp
    change ((env.modify i f).lctx j).pending = true at hp
    change Owned _ j ((env.modify i f).lctx j)
    rw [hl] at hp ⊢
    split at hp
    next hji =>
      subst hji
      rw [if_pos rfl]
      by_cases ho : o = .yields
      · exact (hown ho).congr rfl fun _ _ => rfl
      · rw [if_neg ho] at hne
        exact absurd rfl hne
    next hji =>
      rw [if_neg hji]
      exact h.owned j (by simp) hp
  · change ((env.modify i f).lctx i).pending = true
    rw [hl, if_pos rfl]
    exact hpending

/-! ### Cancel -/

theorem delThread_held (h : Held none env) {c : CoCtx}
    (hother : ∀ j, (env.lctx j).pending = true → (env.lctx j).coCtx ≠ some c)
    (hrun : ∀ r, env.running = some r → r.caller = .first → c ≠ .created r.thread) :
    Held none (delThread c env) := by
  unfold delThread
  cases hc : env.coRef c with
  | none => exact h
  | some co =>
    obtain ⟨xs, hq⟩ := h.queued
    refine ⟨⟨xs, hq.congr rfl (fun _ => rfl) fun _ => rfl⟩, h.entry, h.entered, ?_, h.finished,
      h.blank, ?_⟩
    · intro r hr
      obtain ⟨hend, hco, hfirst, hresumed⟩ := h.running r hr
      refine ⟨hend, hco, fun hf => ⟨(hfirst hf).1, ?_⟩, hresumed⟩
      change Owned (Function.update env.coRef c none) r.thread (env.lctx r.thread) ∨
        (env.lctx r.thread).coCtx = some .entryCoCtx ∧
          Function.update env.coRef c none .entryCoCtx = none
      by_cases hentry : (env.lctx r.thread).coCtx = some .entryCoCtx
      · by_cases hce : c = .entryCoCtx
        · subst hce
          exact .inr ⟨hentry, Function.update_self ..⟩
        · rcases (hfirst hf).2 with ho | ⟨ho, hn⟩
          · exact .inl (ho.update (by rw [hentry]; intro heq; exact hce (Option.some.inj heq).symm) _)
          · exact .inr ⟨ho, (Function.update_of_ne (Ne.symm hce) _ _).trans hn⟩
      · rcases (hfirst hf).2 with ho | ⟨ho, -⟩
        · refine .inl (ho.update ?_ _)
          rcases ho with ⟨ho, -⟩ | ⟨ho, -⟩
          · rw [ho]
            intro heq
            exact hrun r hr hf (Option.some.inj heq).symm
          · exact absurd ho hentry
        · exact absurd ho hentry
    · intro j hne hp
      exact (h.owned j hne hp).update (hother j hp) _

theorem cancelEntry_held (h : Held none env) (he : env.entryLctx ≠ none)
    (hnone : ∀ j, (env.lctx j).pending = false) :
    ∃ env', cancelEntry env = some env' ∧ Held none env' ∧ env'.running = env.running ∧
      env'.threads = env.threads := by
  obtain ⟨e, he⟩ := Option.ne_none_iff_exists'.mp he
  obtain ⟨hfin, hco⟩ := h.entry e he
  obtain ⟨xs, hq⟩ := h.queued
  have h' : Held none { env with entryLctx := some { e with cancelled := true } } := by
    refine ⟨⟨xs, hq.congr rfl (fun _ => rfl) fun _ => rfl⟩, ?_, fun _ _ => by simp, h.running,
      h.finished, h.blank, h.owned⟩
    intro e' heq
    rw [Option.some.injEq] at heq
    subst heq
    exact ⟨hfin, hco⟩
  refine ⟨delThread .entryCoCtx { env with entryLctx := some { e with cancelled := true } },
    by simp [cancelEntry, he, hfin, hco], delThread_held h' ?_ ?_, ?_, ?_⟩
  · intro j hp
    exact absurd ((hnone j).symm.trans hp) (by simp)
  · intro r _ _
    simp
  · unfold delThread
    split <;> rfl
  · unfold delThread
    split <;> rfl

/-- A pending thread is cancelled. -/
theorem cancel_held (h : Held none env) (hp : (env.lctx i).pending = true) :
    ∃ env₁ env₂, cancelUnlink i env = some env₁ ∧ cancelDelete i env₁ = some env₂ ∧
      Held none env₂ ∧ env₂.running = env.running ∧
      env₂.threads = (env.modify i fun t => { t with cancelled := true }).threads := by
  have hown := h.owned i (by simp) hp
  have hentry := h.entered i hown.coCtx
  have hex := exists_of_started (started_of_pending hp)
  let f : Thread → Thread := fun t => { t with cancelled := true }
  obtain ⟨q, hrem, hheld⟩ := unlink_held (f := f) h (.inl rfl) hp rfl (started_of_pending hp)
    (by simp [f, Thread.over]) (h.finished i) fun _ => rfl
  have hl : ∀ j, (env.modify i f).lctx j = if j = i then f (env.lctx i) else env.lctx j :=
    lctx_modify hex
  have hun : unlink i env = some { env with subCtxs := q, unlinks := env.unlinks ++ [i] } := by
    simp only [unlink, hrem, Option.map_some]
  obtain ⟨xs, hq⟩ := hheld.queued
  obtain ⟨env₁, hcut, h₁, hrun₁, hts₁⟩ : ∃ env₁, cancelUnlink i env = some env₁ ∧ Held none env₁ ∧
      env₁.running = env.running ∧ env₁.threads = (env.modify i f).threads := by
    simp only [cancelUnlink, hun]
    cases hempty : q.isEmpty with
    | true =>
      have hnil : xs = [] := hq.rep.isEmpty_iff.mp hempty
      obtain ⟨env₁, heq, h₁, hrun₁, hts₁⟩ := cancelEntry_held hheld hentry fun j => by
        rw [← Bool.not_eq_true, ← hq.mem, hnil]
        exact List.not_mem_nil
      refine ⟨env₁, ?_, h₁, hrun₁, hts₁⟩
      rw [if_pos rfl]
      exact cancelEntry_modify.trans heq
    | false => exact ⟨_, rfl, hheld, rfl, rfl⟩
  have hl₁ : ∀ j, env₁.lctx j = if j = i then f (env.lctx i) else env.lctx j := by
    intro j
    rw [← hl]
    simp only [Env.lctx, Env.thread, hts₁]
  obtain ⟨c, hc⟩ := Option.ne_none_iff_exists'.mp hown.coCtx
  have hc₁ : (env₁.lctx i).coCtx = some c := by rw [hl₁, if_pos rfl]; exact hc
  refine ⟨env₁, delThread c env₁, hcut, by simp only [cancelDelete, hc₁, Option.map_some],
    delThread_held h₁ ?_ ?_, ?_, ?_⟩
  · intro j hj hco
    have hji : j ≠ i := by
      intro heq
      rw [heq, hl₁, if_pos rfl] at hj
      simp [f, Thread.pending, Thread.over] at hj
    rw [hl₁, if_neg hji] at hj hco
    -- two pending threads do not own the same co ctx
    rcases h.owned j (by simp) hj with ⟨hj, hrefj⟩ | ⟨hj, hrefj⟩ <;>
      rcases hown with ⟨hi, hrefi⟩ | ⟨hi, hrefi⟩ <;>
      rw [hj, ← hc, hi] at hco <;> simp at hco
    · exact hji hco
    · rw [hrefi, Option.some.injEq, Co.user.injEq] at hrefj
      exact hji hrefj.symm
  · intro r hr hf hce
    rw [hrun₁] at hr
    have hnew := ((h.running r hr).first hf).1
    rcases hown with ⟨hi, -⟩ | ⟨hi, -⟩
    · rw [hi, Option.some.injEq] at hc
      have hri : i = r.thread := CoCtx.created.inj (hc.trans hce)
      rw [← hri, started_of_pending hp] at hnew
      exact absurd hnew (by simp)
    · rw [hi, hce, Option.some.injEq] at hc
      cases hc
  · rw [← hrun₁]
    unfold delThread
    split <;> rfl
  · rw [show (env.modify i fun t => { t with cancelled := true }).threads = env₁.threads from
      hts₁.symm]
    unfold delThread
    split <;> rfl

/-! ### Resume -/

theorem resume_held (h : Held none env) (hrun : env.running = none) :
    Held none (resume i env) ∧ (resume i env).threads = env.threads ∧
      ∀ r, (resume i env).running = some r → r.caller ≠ .first := by
  have hidle : ∀ r, env.running = some r → r.caller ≠ .first := by
    intro r hr
    exact absurd (hrun.symm.trans hr) (by simp)
  have hrunning : ∀ c, c ≠ .first → (c = .resumed → (env.lctx i).started = true) →
      (env.lctx i).ended = false → (env.lctx i).coCtx ≠ none →
      Held none { env with running := some ⟨i, c⟩ } := by
    intro c hc hstarted hend hco
    obtain ⟨xs, hq⟩ := h.queued
    refine ⟨⟨xs, hq.congr rfl (fun _ => rfl) fun _ => rfl⟩, h.entry, h.entered, ?_, h.finished,
      h.blank, h.owned⟩
    intro r hr
    rw [Option.some.injEq] at hr
    subst hr
    exact ⟨hend, hco, fun hf => absurd hf hc, hstarted⟩
  unfold resume
  cases he : env.entryLctx with
  | none => exact ⟨h, rfl, hidle⟩
  | some e =>
    simp only
    split
    next => exact ⟨h, rfl, hidle⟩
    next hskip =>
      simp only [Bool.or_eq_true, not_or, decide_eq_true_eq] at hskip
      obtain ⟨⟨-, hend⟩, hco⟩ := hskip
      rw [Bool.not_eq_true] at hend
      split
      next =>
        refine ⟨he ▸ hrunning .asEntry (by simp) nofun hend hco, rfl, ?_⟩
        intro r hr
        rw [← Option.some.inj hr]
        simp
      next =>
        split
        next hmem =>
          obtain ⟨xs, hq⟩ := h.queued
          have hp : (env.lctx i).pending = true := (hq.mem i).mp (hq.rep.seg.mem_of_after hmem)
          refine ⟨he ▸ hrunning .resumed (by simp) (fun _ => started_of_pending hp) hend hco,
            rfl, ?_⟩
          intro r hr
          rw [← Option.some.inj hr]
          simp
        next => exact ⟨h, rfl, hidle⟩

end NgxWasm.Lua.ResolverThreads
