import NgxWasm.Lua.ThreadQueue

/-!
# Every order of Lua threads

The queue of the entry thread in every run that starts, resumes, ends and cancels the
threads of a request in any order. `Orderly` is what a step must meet: a thread starts
only while the entry thread was not cancelled, and a thread is taken out of the queue
(by its end or by a cancel) only while it is pending.
-/

namespace NgxWasm.Lua.ThreadRuns
open NgxWasm.Lib NgxWasm.Lib.Run NgxWasm.Lib.LinkedQueue
open NgxWasm.Lua.Threads NgxWasm.Lua.ThreadQueue

variable {env env' : Env} {xs : List ℕ} {i j : ℕ}

/-- The queue holds the threads that started and are not over, each of the others left it
once, no coroutine was deleted twice and the entry thread lives while a thread runs. -/
structure Sound (env : Env) : Prop where
  queue : ∃ xs, Rep env.subCtxs xs ∧ ∀ i, i ∈ xs ↔ (env.lctx i).pending = true
  unlinks : ∀ i, env.unlinks.count i =
    if (env.lctx i).started = true ∧ (env.lctx i).over = true then 1 else 0
  deletions : env.deletions.Nodup
  entryAlive : env.running ≠ none → env.EntryAlive

def Orderly (env : Env) : Event → Prop
  | .start s => env.running = none → s.threadNew = true → s.argsNew = true →
      ∀ e, env.entryLctx = some e → e.cancelled = false
  | .resume _ => True
  | .leave _ => ∀ r, env.running = some r → (env.lctx r.thread).cancelled = false
  | .cancel i => ∀ t, env.thread i = some t → t.finished = false →
      t.started = true ∧ t.cancelled = false ∧
        (env.running ≠ none → ∃ j, j ≠ i ∧ (env.lctx j).pending = true)

section Invariant

theorem created_ne (i : ℕ) : CoCtx.created i ≠ .entryCoCtx := nofun

/-- The entry thread of a request: not started, alive or cancelled. -/
def EntryInv (entry : Option Thread) (refs : CoCtx → Option Co) (deletions : List Co) : Prop :=
  match entry with
  | none => refs .entryCoCtx = none ∧ .entry ∉ deletions
  | some e => e.finished = false ∧ e.coCtx = some .entryCoCtx ∧
      (e.cancelled = true → refs .entryCoCtx = none) ∧
      (e.cancelled = false → refs .entryCoCtx = some .entry ∧ .entry ∉ deletions)

/-- `dying` is a thread in the middle of `ngx_wasm_lua_thread_cancel`. -/
structure ThreadInv (dying : Option ℕ) (i : ℕ) (t : Thread) (refs : CoCtx → Option Co)
    (deletions : List Co) : Prop where
  finished : t.finished = t.ended
  blank : t.started = false → t.over = false
  coCtx : t.coCtx = none ∨ t.coCtx = some (.created i)
  created : t.started = true → t.coCtx = some (.created i)
  coRef : refs (.created i) = none ∨ refs (.created i) = some (.user i)
  alive : t.coCtx ≠ none → t.cancelled = false → refs (.created i) = some (.user i)
  dead : dying ≠ some i → t.cancelled = true → refs (.created i) = none
  deleted : t.coCtx = none ∨ refs (.created i) = some (.user i) → .user i ∉ deletions

theorem EntryInv.congr {e : Option Thread} {ρ ρ' : CoCtx → Option Co} {del : List Co}
    (h : EntryInv e ρ del) (hρ : ρ' .entryCoCtx = ρ .entryCoCtx) : EntryInv e ρ' del := by
  cases e with
  | none => exact ⟨hρ.trans h.1, h.2⟩
  | some e =>
    obtain ⟨hf, hc, hdead, halive⟩ := h
    exact ⟨hf, hc, fun hx => hρ.trans (hdead hx), fun hx => ⟨hρ.trans (halive hx).1, (halive hx).2⟩⟩

theorem ThreadInv.congr {d : Option ℕ} {t : Thread} {ρ ρ' : CoCtx → Option Co} {del : List Co}
    (h : ThreadInv d i t ρ del) (hρ : ρ' (.created i) = ρ (.created i)) :
    ThreadInv d i t ρ' del where
  finished := h.finished
  blank := h.blank
  coCtx := h.coCtx
  created := h.created
  coRef := hρ ▸ h.coRef
  alive := hρ ▸ h.alive
  dead := hρ ▸ h.dead
  deleted := hρ ▸ h.deleted

/-- The running thread in its first run or in a later one. -/
structure RunInv (r : Running) (t : Thread) : Prop where
  created : t.coCtx = some (.created r.thread)
  ended : t.ended = false
  caller : r.caller = .first ∧ t.started = false ∨ r.caller = .resumed ∧ t.started = true

structure Inv (dying : Option ℕ) (env : Env) : Prop where
  queued : ∃ xs, Queued env xs
  unlinks : ∀ i, env.unlinks.count i =
    if (env.lctx i).started = true ∧ (env.lctx i).over = true then 1 else 0
  deletions : env.deletions.Nodup
  running : ∀ r, env.running = some r → env.EntryAlive ∧ RunInv r (env.lctx r.thread)
  alive : ∀ i, (env.lctx i).pending = true → env.EntryAlive
  entry : EntryInv env.entryLctx env.coRef env.deletions
  threads : ∀ i, ThreadInv dying i (env.lctx i) env.coRef env.deletions

theorem Inv.sound (h : Inv none env) : Sound env where
  queue := by
    obtain ⟨xs, hq⟩ := h.queued
    exact ⟨xs, hq.rep, hq.mem⟩
  unlinks := h.unlinks
  deletions := h.deletions
  entryAlive hr := by
    obtain ⟨r, hr⟩ := Option.ne_none_iff_exists'.mp hr
    exact (h.running r hr).1

theorem inv_init : Inv none {} where
  queued := by
    refine ⟨[], rep_init, ?_, fun i _ => rfl⟩
    intro i
    simp [Env.lctx, Env.thread, Thread.pending]
  unlinks _ := rfl
  deletions := List.nodup_nil
  running _ hr := by simp at hr
  alive _ hp := by simp [Env.lctx, Env.thread, Thread.pending] at hp
  entry := ⟨rfl, by simp⟩
  threads i := by constructor <;> simp [Env.lctx, Env.thread, Thread.over]

end Invariant

section Start

variable {s : Setup} {t : Option Thread}

theorem inv_snoc (h : Inv none env) (ht : t.getD {} = {}) :
    Inv none { env with threads := env.threads ++ [t] } := by
  have hl : Env.lctx { env with threads := env.threads ++ [t] } = env.lctx :=
    funext (lctx_snoc ht)
  obtain ⟨xs, hq⟩ := h.queued
  refine ⟨⟨xs, hq.congr rfl ?_ ?_⟩, ?_, h.deletions, ?_, ?_, h.entry, ?_⟩
  · intro i; rw [hl]
  · intro i; rw [hl]
  · intro i
    rw [hl]
    exact h.unlinks i
  · intro r hr
    rw [hl]
    exact h.running r hr
  · intro i hp
    rw [hl] at hp
    exact h.alive i hp
  · intro i
    rw [hl]
    exact h.threads i

theorem entryThreadStart_inv (h : Inv none env) (hrun : env.running = none)
    (hlive : ∀ e, env.entryLctx = some e → e.cancelled = false)
    (hs : entryThreadStart s env = some env') :
    Inv none env' ∧ env'.EntryAlive ∧ env'.threads = env.threads := by
  have hentry := h.entry
  unfold entryThreadStart at hs
  cases he : env.entryLctx with
  | some e =>
    simp only [he, Option.some.injEq] at hs
    simp only [he, EntryInv] at hentry
    subst hs
    exact ⟨h, (hentry.2.2.2 (hlive e he)).1, rfl⟩
  | none =>
    simp only [he, EntryInv] at hs hentry
    split at hs
    next hnew =>
      rw [Option.some.injEq] at hs
      subst hs
      have halive : Function.update env.coRef .entryCoCtx (some Co.entry) .entryCoCtx =
          some .entry := Function.update_self ..
      obtain ⟨xs, hq⟩ := h.queued
      refine ⟨⟨⟨xs, hq.congr rfl (fun _ => rfl) fun _ => rfl⟩, h.unlinks, h.deletions, ?_,
        fun _ _ => halive, ?_, ?_⟩, halive, rfl⟩
      · intro r hr
        exact absurd (hrun.symm.trans hr) (by simp)
      · exact ⟨rfl, rfl, by simp, fun _ => ⟨halive, hentry.2⟩⟩
      · intro i
        exact (h.threads i).congr (Function.update_of_ne (created_ne i) (some Co.entry) env.coRef)
    next => simp at hs

theorem threadInit_inv (h : Inv none env) (halive : env.EntryAlive)
    (hi : (env.thread i).isSome) (hnew : env.lctx i = {})
    (hs : threadInit s i env = some env') :
    Inv none { env' with running := some ⟨i, .first⟩ } := by
  unfold threadInit at hs
  rw [show env.coRef .entryCoCtx = some .entry from halive] at hs
  simp only at hs
  split at hs
  next hco =>
    rw [Option.some.injEq] at hs
    subst hs
    obtain ⟨xs, hq⟩ := h.queued
    have hl : ∀ j, (env.modify i fun t => { t with coCtx := some (.created i) }).lctx j =
        if j = i then { env.lctx i with coCtx := some (.created i) } else env.lctx j :=
      lctx_modify hi
    have halive' : Function.update env.coRef (.created i) (some (Co.user i)) .entryCoCtx =
        some .entry := by
      rw [Function.update_of_ne (by simp)]
      exact halive
    have hstarted : ∀ j, ((env.modify i fun t =>
        { t with coCtx := some (.created i) }).lctx j).started = (env.lctx j).started := by
      intro j
      rw [hl]
      split
      next hji => rw [hji]
      next => rfl
    have hover : ∀ j, ((env.modify i fun t =>
        { t with coCtx := some (.created i) }).lctx j).over = (env.lctx j).over := by
      intro j
      rw [hl]
      split
      next hji => rw [hji]; rfl
      next => rfl
    refine ⟨⟨xs, hq.congr rfl hstarted ?_⟩, ?_, h.deletions, ?_, fun _ _ => halive', ?_, ?_⟩
    · intro j
      exact congrArg₂ (fun a b => a && !b) (hstarted j) (hover j)
    · intro j
      change env.unlinks.count j = if ((env.modify i _).lctx j).started = true ∧
        ((env.modify i _).lctx j).over = true then 1 else 0
      rw [hstarted, hover]
      exact h.unlinks j
    · intro r hr
      simp only [Option.some.injEq] at hr
      subst hr
      refine ⟨halive', ?_, ?_, ?_⟩
      · exact congrArg Thread.coCtx (lctx_modify_self hi)
      · exact (congrArg Thread.ended (lctx_modify_self hi)).trans (congrArg Thread.ended hnew)
      · exact .inl ⟨rfl, (hstarted i).trans (congrArg Thread.started hnew)⟩
    · exact h.entry.congr
        (Function.update_of_ne (created_ne i).symm (some (Co.user i)) env.coRef)
    · intro j
      change ThreadInv none j ((env.modify i _).lctx j) _ env.deletions
      rw [hl]
      split
      next hji =>
        subst hji
        have ht := h.threads j
        have hself : Function.update env.coRef (.created j) (some (Co.user j)) (.created j) =
            some (.user j) := Function.update_self ..
        exact ⟨ht.finished, ht.blank, .inr rfl, fun _ => rfl, .inr hself, fun _ _ => hself,
          fun _ hx => absurd ((congrArg Thread.cancelled hnew).symm.trans hx) (by simp),
          fun _ => ht.deleted (.inl (congrArg Thread.coCtx hnew))⟩
      next hji =>
        refine (h.threads j).congr (Function.update_of_ne ?_ _ _)
        intro heq
        exact hji (CoCtx.created.inj heq)
  next => simp at hs

theorem threadRun_inv (h : Inv none env) (hrun : env.running = none)
    (hlive : ∀ e, env.entryLctx = some e → e.cancelled = false)
    (hi : (env.thread i).isSome) (hnew : env.lctx i = {}) : Inv none (threadRun s i env) := by
  unfold threadRun
  cases he : entryThreadStart s env with
  | none => exact h
  | some env₁ =>
    obtain ⟨h₁, halive, hthreads⟩ := entryThreadStart_inv h hrun hlive he
    have hthread : env₁.thread i = env.thread i := by simp only [Env.thread, hthreads]
    simp only
    cases ht : threadInit s i env₁ with
    | none => exact h₁
    | some env₂ =>
      refine threadInit_inv h₁ halive (hthread ▸ hi) ?_ ht
      simpa only [Env.lctx, hthread] using hnew

theorem start_inv (h : Inv none env) (hrun : env.running = none)
    (hlive : s.threadNew = true → s.argsNew = true →
      ∀ e, env.entryLctx = some e → e.cancelled = false) : Inv none (start s env) := by
  unfold start
  split
  next hnew =>
    have h' := inv_snoc (t := some {}) h rfl
    split
    next hargs =>
      refine threadRun_inv h' hrun (hlive hnew hargs) ?_ ?_
      · simp [Env.thread]
      · rw [lctx_snoc rfl]
        simp [Env.lctx, Env.thread]
    next => exact h'
  next => exact inv_snoc h rfl

/-- After the entry thread was cancelled, a thread runs in its place. -/
theorem start_dead (h : Inv none env) {e : Thread} (he : env.entryLctx = some e)
    (hdead : e.cancelled = true) (hnew : s.threadNew = true) (hargs : s.argsNew = true) :
    ¬ Sound (start s env) := by
  have hentry := h.entry
  simp only [EntryInv, he] at hentry
  have href : env.coRef .entryCoCtx = none := hentry.2.2.1 hdead
  intro hs
  have halive : (start s env).EntryAlive := hs.entryAlive (by
    simp [start, hnew, hargs, threadRun, entryThreadStart, he, threadInit, href])
  simp [Env.EntryAlive, start, hnew, hargs, threadRun, entryThreadStart, he, threadInit, href]
    at halive

end Start

section Leave

variable {o : Outcome} {f : Thread → Thread}

/-- A thread leaves the queue for good. -/
theorem unlink_inv {d : Option ℕ} (h : Inv none env) (hp : (env.lctx i).pending = true)
    (hco : (f (env.lctx i)).coCtx = (env.lctx i).coCtx)
    (hs : (f (env.lctx i)).started = true) (ho : (f (env.lctx i)).over = true)
    (hfin : (f (env.lctx i)).finished = (f (env.lctx i)).ended)
    (hd : d ≠ some i → (f (env.lctx i)).cancelled = false)
    (hrun : ∀ r, env.running = some r → r.thread = i → (f (env.lctx i)).ended = false) :
    ∃ q, env.subCtxs.remove i = some q ∧
      Inv d { env.modify i f with subCtxs := q, unlinks := env.unlinks ++ [i] } := by
  obtain ⟨xs, hq⟩ := h.queued
  obtain ⟨q, hrem, hq'⟩ := hq.unlink hp ho hs
  have hex := exists_of_started (started_of_pending hp)
  have hl : ∀ j, (env.modify i f).lctx j = if j = i then f (env.lctx i) else env.lctx j :=
    lctx_modify hex
  have hin : (env.lctx i).started = true ∧ (env.lctx i).over = false := by
    simpa [Thread.pending] using hp
  refine ⟨q, hrem, ⟨⟨_, hq'⟩, ?_, h.deletions, ?_, ?_, h.entry, ?_⟩⟩
  · intro j
    change (env.unlinks ++ [i]).count j = if ((env.modify i f).lctx j).started = true ∧
      ((env.modify i f).lctx j).over = true then 1 else 0
    rw [hl, List.count_append, List.count_singleton, h.unlinks]
    by_cases hji : j = i
    · subst hji
      simp [hs, ho, hin.2]
    · have hij : i ≠ j := fun heq => hji heq.symm
      simp [hji, hij]
  · intro r hr
    obtain ⟨halive, hri⟩ := h.running r hr
    refine ⟨halive, ?_⟩
    change RunInv r ((env.modify i f).lctx r.thread)
    rw [hl]
    split
    next hrt =>
      rw [hrt] at hri
      refine ⟨(hco.trans hri.created).trans (hrt ▸ rfl), hrun r hr hrt, ?_⟩
      rcases hri.caller with hc | hc
      · rw [hin.1] at hc
        exact absurd hc.2 (by simp)
      · exact .inr ⟨hc.1, hs⟩
    next => exact hri
  · intro j hj
    change ((env.modify i f).lctx j).pending = true at hj
    rw [hl] at hj
    split at hj
    next => simp [Thread.pending, ho] at hj
    next => exact h.alive j hj
  · intro j
    change ThreadInv d j ((env.modify i f).lctx j) env.coRef env.deletions
    rw [hl]
    split
    next hji =>
      subst hji
      have ht := h.threads j
      have hcan : (env.lctx j).cancelled = false := by
        have hover := hin.2
        simp only [Thread.over, Bool.or_eq_false_iff] at hover
        exact hover.2
      refine ⟨hfin, fun hx => ?_, hco ▸ ht.coCtx, fun _ => hco ▸ ht.created hin.1, ht.coRef,
        fun hx _ => ht.alive (hco ▸ hx) hcan,
        fun hx hc => absurd ((hd hx).symm.trans hc) (by simp), hco ▸ ht.deleted⟩
      rw [hs] at hx
      exact Bool.noConfusion hx
    next =>
      have hj := h.threads j
      exact ⟨hj.finished, hj.blank, hj.coCtx, hj.created, hj.coRef, hj.alive,
        fun _ => hj.dead (by simp), hj.deleted⟩

theorem idle_inv (h : Inv none env) : Inv none { env with running := none } where
  queued := by
    obtain ⟨xs, hq⟩ := h.queued
    exact ⟨xs, hq.congr rfl (fun _ => rfl) fun _ => rfl⟩
  unlinks := h.unlinks
  deletions := h.deletions
  running r hr := by simp at hr
  alive := h.alive
  entry := h.entry
  threads := h.threads

theorem threadHandleRc_inv (h : Inv none env) (hrun : env.running = none)
    (hp : (env.lctx i).pending = true) :
    ∃ env', threadHandleRc o i env = some env' ∧ Inv none env' := by
  unfold threadHandleRc
  split
  next hdead =>
    -- the coroutine of a pending thread is not deleted, so its code has ended
    have hcan : (env.lctx i).cancelled = false := by
      simp only [Thread.pending, Thread.over, Bool.and_eq_true, Bool.not_eq_true',
        Bool.or_eq_false_iff] at hp
      exact hp.2.2
    have hco := (h.threads i).created (started_of_pending hp)
    have href := (h.threads i).alive (by simp [hco]) hcan
    have ho : decide (o ≠ .yields) = true := by simpa [threadIsDead, hco, href] using hdead
    rw [ho]
    obtain ⟨q, hq, hinv⟩ := unlink_inv (d := none)
      (f := fun t => { t with finished := true, ended := true })
      h hp rfl (started_of_pending hp) (by simp [Thread.over]) rfl (fun _ => hcan)
      (fun r hr => absurd (hrun.symm.trans hr) (by simp))
    refine ⟨_, ?_, hinv⟩
    have hq' : (env.modify i fun t =>
        { t with finished := true, ended := true }).subCtxs.remove i = some q := hq
    simp only [unlink, hq', Option.map_some]
    rfl
  next => exact ⟨env, rfl, h⟩

theorem firstRun_inv (h : Inv none env) (hrun : env.running = none) (halive : env.EntryAlive)
    (hco : (env.lctx i).coCtx = some (.created i)) (hnew : (env.lctx i).started = false) :
    ∃ env', firstRun o i env = some env' ∧ Inv none env' ∧ (env'.lctx i).pending = true ∧
      env'.running = none := by
  have hentry : env.entryLctx ≠ none := by
    intro he
    have hi := h.entry
    simp only [EntryInv, he] at hi
    exact absurd (hi.1.symm.trans halive) (by simp)
  obtain ⟨e, he⟩ := Option.ne_none_iff_exists'.mp hentry
  have hex : (env.thread i).isSome := by
    cases ht : env.thread i with
    | none => simp [Env.lctx, ht] at hco
    | some t => rfl
  obtain ⟨xs, hq⟩ := h.queued
  have ht := h.threads i
  have hover : (env.lctx i).over = false := ht.blank hnew
  obtain ⟨q, hins, hq'⟩ := hq.link (f := fun t =>
    { t with started := true, yielded := decide (o = .yields) }) hex hnew
      (by simpa [Thread.pending, Thread.over] using hover)
  have hl := lctx_modify (f := fun t : Thread =>
    { t with started := true, yielded := decide (o = .yields) }) hex
  have he' : (env.modify i fun t =>
    { t with started := true, yielded := decide (o = .yields) }).entryLctx = some e := he
  refine ⟨_, by simp only [firstRun, link, he', hins, Option.map_some], ⟨⟨_, hq'⟩, ?_,
    h.deletions, ?_, fun _ _ => halive, h.entry, ?_⟩, ?_, hrun⟩
  · intro j
    change env.unlinks.count j = if ((env.modify i _).lctx j).started = true ∧
      ((env.modify i _).lctx j).over = true then 1 else 0
    rw [hl, h.unlinks]
    by_cases hji : j = i
    · subst hji
      have hover' : Thread.over { env.lctx j with
          started := true, yielded := decide (o = .yields) } = false := hover
      simp [hnew, hover']
    · simp [hji]
  · intro r hr
    exact absurd (hrun.symm.trans hr) (by simp)
  · intro j
    change ThreadInv none j ((env.modify i _).lctx j) env.coRef env.deletions
    rw [hl]
    split
    next hji =>
      subst hji
      exact ⟨ht.finished, fun hx => Bool.noConfusion hx, ht.coCtx, fun _ => hco, ht.coRef,
        ht.alive, ht.dead, ht.deleted⟩
    next => exact h.threads j
  · change ((env.modify i _).lctx i).pending = true
    rw [lctx_modify_self hex]
    simpa [Thread.pending, Thread.over] using hover

theorem leave_inv (h : Inv none env) (hl : Orderly env (.leave o)) :
    ∃ env', leave o env = some env' ∧ Inv none env' := by
  unfold leave
  cases hr : env.running with
  | none => exact ⟨env, rfl, h⟩
  | some r =>
    obtain ⟨halive, hco, hend, hcaller⟩ := h.running r hr
    have h' := idle_inv h
    simp only
    rcases hcaller with ⟨hc, hnew⟩ | ⟨hc, hstarted⟩
    · rw [hc]
      obtain ⟨env₁, he₁, h₁, hp, hrun⟩ := firstRun_inv (o := o) h' rfl halive hco hnew
      simp only [he₁, Option.bind_some]
      exact threadHandleRc_inv h₁ hrun hp
    · rw [hc]
      refine threadHandleRc_inv h' rfl ?_
      change (env.lctx r.thread).pending = true
      simp [Thread.pending, Thread.over, hstarted, hend, hl r hr]

theorem Sound.count_le (h : Sound env) (i : ℕ) : env.unlinks.count i ≤ 1 := by
  rw [h.unlinks]
  split <;> omega

/-- A thread that was cancelled while its code ran is taken out of the queue again. -/
theorem leave_cancelled (h : Inv none env) (hl : ¬ Orderly env (.leave o))
    (hs : leave o env = some env') : ¬ Sound env' := by
  simp only [Orderly, not_forall] at hl
  obtain ⟨r, hr, hcan⟩ := hl
  rw [Bool.not_eq_false] at hcan
  obtain ⟨-, hco, -, hcaller⟩ := h.running r hr
  have hover : (env.lctx r.thread).over = true := by simp [Thread.over, hcan]
  rcases hcaller with ⟨-, hnew⟩ | ⟨hc, hstarted⟩
  · rw [(h.threads r.thread).blank hnew] at hover
    exact Bool.noConfusion hover
  · have hdead : threadIsDead o r.thread { env with running := none } = true := by
      change (decide (o ≠ .yields) || ((env.lctx r.thread).coCtx.bind env.coRef).isNone) = true
      simp [hco, (h.threads r.thread).dead (by simp) hcan]
    simp only [leave, hr, hc, threadHandleRc, hdead, if_true] at hs
    obtain ⟨q, -, rfl⟩ := Option.map_eq_some_iff.mp hs
    intro hsound
    have hle := hsound.count_le r.thread
    have hone := h.unlinks r.thread
    rw [if_pos ⟨hstarted, hover⟩] at hone
    simp only [Env.modify, List.count_append, List.count_singleton_self] at hle
    omega

end Leave

section Cancel

theorem delThread_inv (h : Inv (some i) env) (hs : (env.lctx i).started = true)
    (hcan : (env.lctx i).cancelled = true) : Inv none (delThread (.created i) env) := by
  unfold delThread
  have ht := h.threads i
  cases hc : env.coRef (.created i) with
  | none =>
    refine ⟨h.queued, h.unlinks, h.deletions, h.running, h.alive, h.entry, ?_⟩
    intro j
    have hj := h.threads j
    refine ⟨hj.finished, hj.blank, hj.coCtx, hj.created, hj.coRef, hj.alive, ?_, hj.deleted⟩
    intro _ hx
    by_cases hji : j = i
    · rw [hji]
      exact hc
    · exact hj.dead (fun heq => hji (Option.some.inj heq).symm) hx
  | some co =>
    have hco : co = .user i := by
      rcases ht.coRef with hx | hx
      · exact absurd (hc.symm.trans hx) (by simp)
      · exact Option.some.inj (hc.symm.trans hx)
    subst hco
    have hnew : .user i ∉ env.deletions := ht.deleted (.inr hc)
    have href : Function.update env.coRef (.created i) none .entryCoCtx =
        env.coRef .entryCoCtx := Function.update_of_ne (created_ne i).symm none env.coRef
    have hlive : env.EntryAlive → Function.update env.coRef (.created i) none .entryCoCtx =
        some .entry := href.trans
    obtain ⟨xs, hq⟩ := h.queued
    refine ⟨⟨xs, hq.congr rfl (fun _ => rfl) fun _ => rfl⟩, h.unlinks, ?_, ?_, ?_, ?_, ?_⟩
    · exact List.nodup_append.mpr ⟨h.deletions, List.nodup_singleton _, by
        intro a ha b hb heq
        rw [List.mem_singleton] at hb
        exact hnew (hb ▸ heq ▸ ha)⟩
    · intro r hr
      exact ⟨hlive (h.running r hr).1, (h.running r hr).2⟩
    · intro j hj
      exact hlive (h.alive j hj)
    · have hentry := h.entry.congr href
      cases he : env.entryLctx with
      | none =>
        rw [he] at hentry
        simp only [EntryInv, List.mem_append, List.mem_singleton, reduceCtorEq, or_false]
        exact hentry
      | some e =>
        rw [he] at hentry
        simp only [EntryInv, List.mem_append, List.mem_singleton, reduceCtorEq, or_false]
        exact hentry
    · intro j
      have hj := h.threads j
      by_cases hji : j = i
      · subst hji
        refine ⟨hj.finished, hj.blank, hj.coCtx, hj.created, .inl (Function.update_self ..),
          fun _ hx => absurd (hcan.symm.trans hx) (by simp), fun _ _ => Function.update_self .., ?_⟩
        intro hx
        have hself : Function.update env.coRef (.created j) none (.created j) = none :=
          Function.update_self ..
        have hcreated : (env.lctx j).coCtx = some (.created j) := hj.created hs
        rcases hx with hx | hx
        · exact absurd (hcreated.symm.trans hx) (by simp)
        · exact absurd (hself.symm.trans hx) (by simp)
      · have hne : CoCtx.created j ≠ .created i := fun heq => hji (CoCtx.created.inj heq)
        have hj' := hj.congr (Function.update_of_ne hne none env.coRef)
        have hdy : some i ≠ some j := fun heq => hji (Option.some.inj heq).symm
        refine ⟨hj'.finished, hj'.blank, hj'.coCtx, hj'.created, hj'.coRef, hj'.alive,
          fun _ => hj'.dead hdy, ?_⟩
        intro hx
        have hnot := hj'.deleted hx
        simp only [List.mem_append, List.mem_singleton, Co.user.injEq, not_or]
        exact ⟨hnot, hji⟩

/-- The entry thread is deleted with its coroutine. -/
theorem cancelEntry_eq {d : Option ℕ} (h : Inv d env) (halive : env.EntryAlive) :
    ∃ e, env.entryLctx = some e ∧ e.cancelled = false ∧ cancelEntry env = some { env with
      entryLctx := some { e with cancelled := true }
      coRef := Function.update env.coRef .entryCoCtx none
      deletions := env.deletions ++ [.entry] } := by
  have hentry := h.entry
  cases he : env.entryLctx with
  | none =>
    simp only [EntryInv, he] at hentry
    exact absurd (hentry.1.symm.trans halive) (by simp)
  | some e =>
    simp only [EntryInv, he] at hentry
    obtain ⟨hf, hc, hdead, -⟩ := hentry
    have hcan : e.cancelled = false := by
      rw [← Bool.not_eq_true]
      intro hx
      exact absurd ((hdead hx).symm.trans halive) (by simp)
    have href : env.coRef .entryCoCtx = some .entry := halive
    refine ⟨e, rfl, hcan, ?_⟩
    simp [cancelEntry, he, hf, hc, delThread, href]

theorem cancelEntry_inv {d : Option ℕ} (h : Inv d env) (halive : env.EntryAlive)
    (hrun : env.running = none)
    (hnone : ∀ i, (env.lctx i).pending = false) :
    ∃ env', cancelEntry env = some env' ∧ Inv d env' ∧ env'.threads = env.threads := by
  obtain ⟨e, he, hcan, heq⟩ := cancelEntry_eq h halive
  have hentry := h.entry
  simp only [EntryInv, he] at hentry
  obtain ⟨hf, hc, -, hdel⟩ := hentry
  obtain ⟨xs, hq⟩ := h.queued
  refine ⟨_, heq, ⟨⟨xs, hq.congr rfl (fun _ => rfl) fun _ => rfl⟩, h.unlinks, ?_, ?_, ?_, ?_, ?_⟩,
    rfl⟩
  · exact List.nodup_append.mpr ⟨h.deletions, List.nodup_singleton _, by
      intro a ha b hb heq
      rw [List.mem_singleton] at hb
      exact (hdel hcan).2 (hb ▸ heq ▸ ha)⟩
  · intro r hr
    exact absurd (hrun.symm.trans hr) (by simp)
  · intro i hp
    exact absurd ((hnone i).symm.trans hp) (by simp)
  · have hself : Function.update env.coRef .entryCoCtx none .entryCoCtx = none :=
      Function.update_self ..
    exact ⟨hf, hc, fun _ => hself, fun hx => Bool.noConfusion hx⟩
  · intro i
    have hi := (h.threads i).congr (Function.update_of_ne (created_ne i) none env.coRef)
    refine ⟨hi.finished, hi.blank, hi.coCtx, hi.created, hi.coRef, hi.alive, hi.dead, ?_⟩
    intro hx
    simp only [List.mem_append, List.mem_singleton, reduceCtorEq, or_false]
    exact hi.deleted hx

/-- A pending thread is cancelled: what the queue tells `ngx_wasm_lua_thread_cancel`. -/
theorem cancelUnlink_spec (h : Inv none env) (hp : (env.lctx i).pending = true) :
    ∃ env₁, Inv (some i) env₁ ∧ env₁.running = env.running ∧ env₁.coRef = env.coRef ∧
      (env₁.lctx i).started = true ∧ (env₁.lctx i).cancelled = true ∧
      (∀ j, (env₁.lctx j).pending = true ↔ j ≠ i ∧ (env.lctx j).pending = true) ∧
      ((∃ j, (env₁.lctx j).pending = true) ∧ cancelUnlink i env = some env₁ ∨
        (∀ j, (env₁.lctx j).pending = false) ∧ cancelUnlink i env = cancelEntry env₁) := by
  have hex := exists_of_started (started_of_pending hp)
  obtain ⟨q, hrem, hinv⟩ := unlink_inv (d := some i) (f := fun t => { t with cancelled := true })
    h hp rfl (started_of_pending hp) (by simp [Thread.over]) (h.threads i).finished
    (fun hne => absurd rfl hne) (by
      intro r hr hri
      have hend := (h.running r hr).2.ended
      rwa [hri] at hend)
  have hl := lctx_modify (f := fun t : Thread => { t with cancelled := true }) hex
  refine ⟨_, hinv, rfl, rfl, ?_, ?_, ?_, ?_⟩
  · change ((env.modify i _).lctx i).started = true
    rw [lctx_modify_self hex]
    exact started_of_pending hp
  · change ((env.modify i _).lctx i).cancelled = true
    rw [lctx_modify_self hex]
  · intro j
    change ((env.modify i _).lctx j).pending = true ↔ _
    rw [hl]
    split
    next hji => simp [hji, Thread.pending, Thread.over]
    next hji => simp [hji]
  · obtain ⟨xs, hq⟩ := hinv.queued
    have hun : unlink i env = some { env with subCtxs := q, unlinks := env.unlinks ++ [i] } := by
      simp only [unlink, hrem, Option.map_some]
    simp only [cancelUnlink, hun]
    cases he : q.isEmpty with
    | true =>
      have hnil : xs = [] := hq.rep.isEmpty_iff.mp he
      refine .inr ⟨fun j => ?_, ?_⟩
      · rw [← Bool.not_eq_true, ← hq.mem, hnil]
        exact List.not_mem_nil
      · rw [if_pos rfl]
        exact cancelEntry_modify
    | false =>
      have hne : xs ≠ [] := by
        intro hnil
        exact absurd ((hq.rep.isEmpty_iff.mpr hnil).symm.trans he) (by simp)
      obtain ⟨j, hj⟩ := List.exists_mem_of_ne_nil xs hne
      exact .inl ⟨⟨j, (hq.mem j).mp hj⟩, rfl⟩

theorem cancel_inv (h : Inv none env) (hc : Orderly env (.cancel i)) :
    ∃ env', cancel i env = some env' ∧ Inv none env' := by
  unfold cancel
  cases ht : env.thread i with
  | none => exact ⟨env, rfl, h⟩
  | some t =>
    simp only
    split
    next => exact ⟨env, rfl, h⟩
    next hfin =>
      rw [Bool.not_eq_true] at hfin
      obtain ⟨hs, hcan, hother⟩ := hc t ht hfin
      have hl : env.lctx i = t := by simp [Env.lctx, ht]
      have hend : t.ended = false := by
        rw [← hl, ← (h.threads i).finished, hl]
        exact hfin
      have hp : (env.lctx i).pending = true := by simp [hl, Thread.pending, Thread.over, hs, hcan, hend]
      obtain ⟨env₁, h₁, hrun₁, href₁, hs₁, hcan₁, hp₁, hcase⟩ := cancelUnlink_spec h hp
      -- the co ctx of the thread is its own, so deleting it spares the entry thread
      have hdel : ∀ env₂, Inv (some i) env₂ → env₂.threads = env₁.threads →
          cancelDelete i env₂ = some (delThread (.created i) env₂) ∧
            Inv none (delThread (.created i) env₂) := by
        intro env₂ h₂ hthreads
        have hl₂ : env₂.lctx i = env₁.lctx i := by simp only [Env.lctx, Env.thread, hthreads]
        have hs₂ : (env₂.lctx i).started = true := by rw [hl₂, hs₁]
        refine ⟨?_, delThread_inv h₂ hs₂ (by rw [hl₂, hcan₁])⟩
        simp only [cancelDelete, (h₂.threads i).created hs₂, Option.map_some]
      rcases hcase with ⟨-, heq⟩ | ⟨hnone, heq⟩
      · rw [heq]
        exact ⟨_, (hdel env₁ h₁ rfl).1, (hdel env₁ h₁ rfl).2⟩
      · have hidle : env₁.running = none := by
          rw [hrun₁]
          by_contra hrun
          obtain ⟨j, hji, hj⟩ := hother hrun
          exact absurd ((hnone j).symm.trans ((hp₁ j).mpr ⟨hji, hj⟩)) (by simp)
        have halive : env₁.EntryAlive := by
          rw [Env.EntryAlive, href₁]
          exact h.alive i hp
        obtain ⟨env₂, heq₂, h₂, hthreads⟩ := cancelEntry_inv h₁ halive hidle hnone
        rw [heq, heq₂]
        exact ⟨_, (hdel env₂ h₂ hthreads).1, (hdel env₂ h₂ hthreads).2⟩

theorem delThread_frame (c : CoCtx) (env : Env) :
    (delThread c env).unlinks = env.unlinks ∧ (delThread c env).running = env.running := by
  unfold delThread
  cases env.coRef c with
  | none => exact ⟨rfl, rfl⟩
  | some co => exact ⟨rfl, rfl⟩

theorem cancelEntry_unlinks (h : cancelEntry env = some env') : env'.unlinks = env.unlinks := by
  unfold cancelEntry at h
  cases he : env.entryLctx with
  | none => simp [he] at h
  | some e =>
    simp only [he] at h
    split at h
    next =>
      rw [Option.some.injEq] at h
      rw [← h]
    next =>
      obtain ⟨c, -, rfl⟩ := Option.map_eq_some_iff.mp h
      exact (delThread_frame ..).1

theorem cancelUnlink_unlinks (h : cancelUnlink i env = some env') :
    env'.unlinks = env.unlinks ++ [i] := by
  unfold cancelUnlink at h
  cases hu : unlink i env with
  | none => simp [hu] at h
  | some env₁ =>
    simp only [hu] at h
    obtain ⟨q, -, rfl⟩ := Option.map_eq_some_iff.mp hu
    obtain ⟨env₂, h₂, rfl⟩ := Option.map_eq_some_iff.mp h
    split at h₂
    next => exact cancelEntry_unlinks h₂
    next =>
      rw [Option.some.injEq] at h₂
      rw [← h₂]
      rfl

theorem unlink_new (h : Inv none env) (hnew : (env.lctx i).started = false) : unlink i env = none := by
  obtain ⟨xs, hq⟩ := h.queued
  simp only [unlink, remove_none (hq.fresh i hnew), Option.map_none]

theorem cancel_unlinked (h : Inv none env) (hs : (env.lctx i).started = true)
    (hover : (env.lctx i).over = true) (hc : (cancelUnlink i env).bind (cancelDelete i) = some env') :
    ¬ Sound env' := by
  obtain ⟨env₁, h₁, hdel⟩ := Option.bind_eq_some_iff.mp hc
  obtain ⟨c, -, rfl⟩ := Option.map_eq_some_iff.mp hdel
  intro hsound
  have hle := hsound.count_le i
  have hone := h.unlinks i
  rw [if_pos ⟨hs, hover⟩] at hone
  rw [(delThread_frame ..).1, cancelUnlink_unlinks h₁, List.count_append,
    List.count_singleton_self] at hle
  omega

/-- Without another pending thread the entry thread is cancelled, whatever runs. -/
theorem cancel_last (h : Inv none env) (hp : (env.lctx i).pending = true) (hrun : env.running ≠ none)
    (hlast : ∀ j, j ≠ i → (env.lctx j).pending = false)
    (hc : (cancelUnlink i env).bind (cancelDelete i) = some env') : ¬ Sound env' := by
  obtain ⟨env₁, h₁, hrun₁, href₁, hs₁, -, hp₁, hcase⟩ := cancelUnlink_spec h hp
  rcases hcase with ⟨⟨j, hj⟩, -⟩ | ⟨hnone, heq⟩
  · obtain ⟨hji, hj⟩ := (hp₁ j).mp hj
    exact absurd ((hlast j hji).symm.trans hj) (by simp)
  · have halive : env₁.EntryAlive := by
      rw [Env.EntryAlive, href₁]
      exact h.alive i hp
    obtain ⟨e, -, -, heq₂⟩ := cancelEntry_eq h₁ halive
    rw [heq, heq₂, Option.bind_some] at hc
    have hco : (env₁.lctx i).coCtx = some (.created i) := (h₁.threads i).created hs₁
    change (env₁.lctx i).coCtx.map _ = some env' at hc
    rw [hco, Option.map_some, Option.some.injEq] at hc
    subst hc
    intro hsound
    have hlive : Env.EntryAlive _ := hsound.entryAlive (by
      rw [(delThread_frame ..).2]
      exact hrun₁.symm ▸ hrun)
    have hne := created_ne i
    simp only [Env.EntryAlive, delThread, Function.update_of_ne hne] at hlive
    cases hr : env₁.coRef (.created i) with
    | none => simp [hr] at hlive
    | some co => simp [hr] at hlive

theorem cancel_disorderly (h : Inv none env) (hl : ¬ Orderly env (.cancel i))
    (hc : cancel i env = some env') : ¬ Sound env' := by
  simp only [Orderly, not_forall] at hl
  obtain ⟨t, ht, hfin, hl⟩ := hl
  have hlt : env.lctx i = t := by simp [Env.lctx, ht]
  simp only [cancel, ht, hfin, Bool.false_eq_true, if_false] at hc
  cases hs : t.started with
  | false =>
    have hun : unlink i env = none := unlink_new h (hlt ▸ hs)
    simp [cancelUnlink, hun] at hc
  | true =>
    cases hcan : t.cancelled with
    | true => exact cancel_unlinked h (hlt ▸ hs) (by simp [Thread.over, hlt, hcan]) hc
    | false =>
      have hend : t.ended = false := by
        rw [← hlt, ← (h.threads i).finished, hlt]
        exact hfin
      have hp : (env.lctx i).pending = true := by
        simp [hlt, Thread.pending, Thread.over, hs, hcan, hend]
      simp only [hs, hcan, true_and, not_forall, not_exists, not_and, Bool.not_eq_true] at hl
      obtain ⟨hrun, hlast⟩ := hl
      exact cancel_last h hp hrun hlast hc

end Cancel

section Steps

theorem resume_inv (h : Inv none env) : Inv none (resume i env) := by
  unfold resume
  cases he : env.entryLctx with
  | none => exact h
  | some e =>
    have hinv := h.entry
    rw [he] at hinv
    obtain ⟨-, hentry, -⟩ := hinv
    have ht := h.threads i
    simp only
    split
    next => exact h
    next hskip =>
      simp only [Bool.or_eq_true, not_or, decide_eq_true_eq] at hskip
      obtain ⟨⟨-, hend⟩, hnull⟩ := hskip
      rw [Bool.not_eq_true] at hend
      have hco : (env.lctx i).coCtx = some (.created i) := ht.coCtx.resolve_left hnull
      split
      next hasEntry =>
        rw [hco, hentry, Option.some.injEq] at hasEntry
        exact absurd hasEntry (created_ne i)
      next =>
        split
        next hmem =>
          obtain ⟨xs, hq⟩ := h.queued
          have hp : (env.lctx i).pending = true := (hq.mem i).mp (hq.rep.seg.mem_of_after hmem)
          refine ⟨⟨xs, hq.congr rfl (fun _ => rfl) fun _ => rfl⟩, h.unlinks, h.deletions, ?_,
            h.alive, he ▸ h.entry, h.threads⟩
          intro r hr
          simp only [Option.some.injEq] at hr
          subst hr
          exact ⟨h.alive i hp, hco, hend, .inr ⟨rfl, started_of_pending hp⟩⟩
        next => exact h

theorem next_inv (h : Inv none env) {e : Event} (ho : Orderly env e) :
    ∃ env', next env e = some env' ∧ Inv none env' := by
  cases e with
  | start s =>
    refine ⟨_, rfl, ?_⟩
    split
    next => exact h
    next hrun =>
      rw [Bool.not_eq_true, Option.isSome_eq_false_iff, Option.isNone_iff_eq_none] at hrun
      exact start_inv h hrun fun hnew hargs => ho hrun hnew hargs
  | resume i =>
    refine ⟨_, rfl, ?_⟩
    split
    next => exact h
    next => exact resume_inv h
  | leave o => exact leave_inv h ho
  | cancel i => exact cancel_inv h ho

theorem next_disorderly (h : Inv none env) {e : Event} (ho : ¬ Orderly env e)
    (hn : next env e = some env') : ¬ Sound env' := by
  cases e with
  | start s =>
    simp only [Orderly, not_forall] at ho
    obtain ⟨hrun, hnew, hargs, e, he, hdead⟩ := ho
    simp only [next, hrun, Option.isSome_none, Bool.false_eq_true, if_false,
      Option.some.injEq] at hn
    rw [← hn]
    exact start_dead h he (by simpa using hdead) hnew hargs
  | resume i => exact absurd trivial ho
  | leave o => exact leave_cancelled h ho hn
  | cancel i => exact cancel_disorderly h ho hn

end Steps

section Runs

/-- No call dereferenced `NULL`, and the threads are as they should be. -/
def Running (st : Option Env) : Prop := ∃ env, st = some env ∧ Sound env

def Ordered (st : Option Env) (e : Event) : Prop := ∀ env, st = some env → Orderly env e

/-- In every state of the run, exactly when each step of it is orderly. -/
theorem queue_exact_iff (es : List Event) :
    (∀ k, Running (exec step (some {}) (es.take k)).1) ↔ Meets step Ordered (some {}) es := by
  refine prefixes_iff step (I := fun st => ∃ env, st = some env ∧ Inv none env) ?_ ?_ es (some {})
    ⟨_, rfl, inv_init⟩ ⟨_, rfl, inv_init.sound⟩
  · intro st e hi _ hc
    obtain ⟨env, rfl, h⟩ := hi
    exact next_inv h (hc env rfl)
  · intro st e hi _
    obtain ⟨env, rfl, h⟩ := hi
    constructor
    · intro hs env₀ heq
      obtain rfl : env = env₀ := Option.some.inj heq
      obtain ⟨env', hn, hsound⟩ := hs
      by_contra ho
      exact next_disorderly h ho hn hsound
    · intro hc
      obtain ⟨env', hn, h'⟩ := next_inv h (hc env rfl)
      exact ⟨env', hn, h'.sound⟩

/-- Of two threads that yielded the first is cancelled twice; a thread that starts after
the only other one was cancelled runs in the place of the entry thread. -/
theorem cancelled_unsound :
    ¬ Running (exec step (some {}) [.start {}, .leave .yields, .start {}, .leave .yields,
        .cancel 0, .cancel 0]).1 ∧
      ¬ Running (exec step (some {}) [.start {}, .leave .yields, .cancel 0, .start {}]).1 := by
  constructor
  · intro h
    obtain ⟨env, he, hs⟩ := h
    have htwice : (exec step (some {}) [.start {}, .leave .yields, .start {}, .leave .yields,
        .cancel 0, .cancel 0]).1.map (·.unlinks) = some [0, 0] := by decide
    rw [he, Option.map_some, Option.some.injEq] at htwice
    have hle := hs.count_le 0
    rw [htwice] at hle
    exact absurd hle (by decide)
  · intro h
    obtain ⟨env, he, hs⟩ := h
    have hplace : (exec step (some {}) [.start {}, .leave .yields, .cancel 0, .start {}]).1.map
        (fun env => (env.running, env.coRef .entryCoCtx)) =
          some (some ⟨1, .first⟩, some (.user 1)) := by decide
    rw [he, Option.map_some, Option.some.injEq, Prod.mk.injEq] at hplace
    have halive : env.coRef .entryCoCtx = some .entry := hs.entryAlive (by simp [hplace.1])
    rw [hplace.2] at halive
    exact absurd halive (by decide)

end Runs
end NgxWasm.Lua.ThreadRuns
