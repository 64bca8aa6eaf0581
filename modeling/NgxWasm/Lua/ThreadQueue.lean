import NgxWasm.Lua.Threads

/-!
# The queue of a request's Lua threads

What the pieces of `src/common/lua/ngx_wasm_lua.c` do to the queue of the entry thread,
as long as it holds the pending threads: those out of their first run whose code has not
ended and that were not cancelled.
-/

namespace NgxWasm.Lua.ThreadQueue
open NgxWasm.Lib NgxWasm.Lib.LinkedQueue NgxWasm.Lua.Threads

variable {env env' : Env} {xs : List ℕ} {i j : ℕ}

section Lookup

variable {f : Thread → Thread}

theorem thread_modify (env : Env) (i j : ℕ) (f : Thread → Thread) :
    (env.modify i f).thread j = if j = i then (env.thread i).map f else env.thread j := by
  simp only [Env.thread, Env.modify, List.getElem?_modify]
  split
  next h =>
    subst h
    cases env.threads[i]? <;> simp
  next h =>
    rw [if_neg fun heq => h (Eq.symm heq)]
    simp

theorem lctx_modify (h : (env.thread i).isSome) (j : ℕ) :
    (env.modify i f).lctx j = if j = i then f (env.lctx i) else env.lctx j := by
  obtain ⟨t, ht⟩ := Option.isSome_iff_exists.mp h
  simp only [Env.lctx, thread_modify]
  split
  next hji => simp [ht]
  next hji => rfl

theorem lctx_modify_self (h : (env.thread i).isSome) :
    (env.modify i f).lctx i = f (env.lctx i) := by
  rw [lctx_modify h, if_pos rfl]

theorem lctx_modify_of_ne (hji : j ≠ i) : (env.modify i f).lctx j = env.lctx j := by
  simp only [Env.lctx, thread_modify, if_neg hji]

/-- A new thread is blank. -/
theorem lctx_snoc {t : Option Thread} (ht : t.getD {} = {}) (j : ℕ) :
    Env.lctx { env with threads := env.threads ++ [t] } j = env.lctx j := by
  simp only [Env.lctx, Env.thread, List.getElem?_append]
  split
  next => rfl
  next h =>
    rw [List.getElem?_eq_none (Nat.le_of_not_lt h)]
    cases hk : j - env.threads.length with
    | zero => simpa using ht
    | succ k => rfl

theorem exists_of_started (h : (env.lctx i).started = true) : (env.thread i).isSome := by
  cases ht : env.thread i with
  | none => simp [Env.lctx, ht] at h
  | some t => rfl

theorem cancelEntry_modify :
    (cancelEntry env).map (·.modify i f) = cancelEntry (env.modify i f) := by
  simp only [cancelEntry, Env.modify]
  cases he : env.entryLctx with
  | none => rfl
  | some e =>
    simp only
    split
    next => simp only [Option.map_some, he]
    next =>
      cases e.coCtx with
      | none => rfl
      | some c =>
        simp only [Option.map_some, delThread]
        cases env.coRef c <;> rfl

end Lookup

/-- `xs` are the pending threads, and a thread that was never linked has no links. -/
structure Queued (env : Env) (xs : List ℕ) : Prop where
  rep : Rep env.subCtxs xs
  mem : ∀ i, i ∈ xs ↔ (env.lctx i).pending = true
  fresh : ∀ i, (env.lctx i).started = false → env.subCtxs.next (some i) = none

theorem Queued.congr (h : Queued env xs) (hq : env'.subCtxs = env.subCtxs)
    (hs : ∀ i, (env'.lctx i).started = (env.lctx i).started)
    (hp : ∀ i, (env'.lctx i).pending = (env.lctx i).pending) : Queued env' xs where
  rep := hq ▸ h.rep
  mem i := by rw [hp, h.mem]
  fresh i hi := by
    rw [hq]
    exact h.fresh i ((hs i).symm.trans hi)

theorem started_of_pending (h : (env.lctx i).pending = true) : (env.lctx i).started = true := by
  simp only [Thread.pending, Bool.and_eq_true] at h
  exact h.1

/-- `ngx_queue_insert_tail` of a thread that comes back from its first run. -/
theorem Queued.link (h : Queued env xs) (hi : (env.thread i).isSome) {f : Thread → Thread}
    (hnew : (env.lctx i).started = false) (hf : (f (env.lctx i)).pending = true) :
    ∃ q, (env.modify i f).subCtxs.insertTail i = some q ∧
      Queued { env.modify i f with subCtxs := q } (xs ++ [i]) := by
  have hmem : i ∉ xs := by
    intro hx
    rw [h.mem, Thread.pending, hnew] at hx
    simp at hx
  obtain ⟨q, hq, hrep, hnext⟩ := h.rep.insertTail hmem
  refine ⟨q, hq, hrep, ?_, ?_⟩
  · intro j
    change j ∈ xs ++ [i] ↔ ((env.modify i f).lctx j).pending = true
    rw [lctx_modify hi, List.mem_append, List.mem_singleton]
    split
    next hji => simp [hji, hf]
    next hji => simp [hji, h.mem]
  · intro j hj
    change ((env.modify i f).lctx j).started = false at hj
    have hji : j ≠ i := by
      intro heq
      rw [heq, lctx_modify_self hi] at hj
      simp [Thread.pending, hj] at hf
    rw [lctx_modify_of_ne hji] at hj
    refine hnext j hji (h.fresh j hj) ?_
    intro hx
    rw [h.mem, Thread.pending, hj] at hx
    simp at hx

/-- `ngx_queue_remove` of a pending thread that is no longer pending afterwards. -/
theorem Queued.unlink (h : Queued env xs) (hi : (env.lctx i).pending = true)
    {f : Thread → Thread} (hf : (f (env.lctx i)).over = true)
    (hs : (f (env.lctx i)).started = true) :
    ∃ q, env.subCtxs.remove i = some q ∧
      Queued { env.modify i f with subCtxs := q, unlinks := env.unlinks ++ [i] } (xs.erase i) := by
  have hex := exists_of_started (started_of_pending hi)
  obtain ⟨q, hq, hrep, hnext⟩ := h.rep.remove ((h.mem i).mpr hi)
  refine ⟨q, hq, hrep, ?_, ?_⟩
  · intro j
    change j ∈ xs.erase i ↔ ((env.modify i f).lctx j).pending = true
    rw [lctx_modify hex, h.rep.nodup.mem_erase_iff, h.mem]
    split
    next hji => simp [hji, Thread.pending, hf]
    next hji => simp [hji]
  · intro j hj
    change ((env.modify i f).lctx j).started = false at hj
    have hji : j ≠ i := by
      intro heq
      rw [heq, lctx_modify_self hex, hs] at hj
      exact Bool.noConfusion hj
    rw [lctx_modify_of_ne hji] at hj
    refine hnext j (h.fresh j hj) ?_
    intro hx
    rw [h.mem, Thread.pending, hj] at hx
    simp at hx

end NgxWasm.Lua.ThreadQueue
