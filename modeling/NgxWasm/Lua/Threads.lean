import NgxWasm.Lib.LinkedQueue
import NgxWasm.Lib.Run

/-!
# Lua threads of a request

`src/common/lua/ngx_wasm_lua.c`: `entry_thread_start`, `thread_init`, `thread_handle_rc`,
`ngx_wasm_lua_thread_new`, `ngx_wasm_lua_thread_run`, `ngx_wasm_lua_thread_cancel` and
`ngx_wasm_lua_resume` of an HTTP request in a release build, where `ngx_wa_assert` is
empty and `ngx_queue_remove` leaves the links of the removed member as they were.

The Lua code of a thread runs between two calls into this file: `running` holds the
thread from the call that enters its code until the code yields or ends, so a thread
may be cancelled while its code runs. OpenResty is taken at its word: the entry script
sleeps for ever, `ngx_http_lua_del_thread` does nothing where the reference of the
coroutine is `LUA_NOREF` already and leaves a dead coroutine, and one that ended is not
resumed. The handlers of a thread are `NgxWasm.Lua.Resolver`'s subject. A function returns `none`
where the source dereferences `NULL`.
-/

namespace NgxWasm.Lua.Threads
open NgxWasm.Lib NgxWasm.Lib.LinkedQueue

inductive Co
  | entry
  | user (i : ℕ)
  deriving DecidableEq

/-- `&ctx->entry_co_ctx`, or what `ngx_http_lua_create_co_ctx` returned for a thread. -/
inductive CoCtx
  | entryCoCtx
  | created (i : ℕ)
  deriving DecidableEq

/-- `ngx_wasm_lua_ctx_t`. `started` and `ended` are not in the source: the thread came
out of its first run, and its Lua code returned or raised an error. -/
structure Thread where
  coCtx : Option CoCtx := none
  yielded : Bool := false
  finished : Bool := false
  cancelled : Bool := false
  started : Bool := false
  ended : Bool := false
  deriving DecidableEq

def Thread.over (t : Thread) : Bool := t.ended || t.cancelled
def Thread.pending (t : Thread) : Bool := t.started && !t.over

/-- What waits for the Lua code to come back: the end of `ngx_wasm_lua_thread_run`, or
the end of `ngx_wasm_lua_resume` with the lctx of the thread or of the entry thread. -/
inductive Caller
  | first
  | resumed
  | asEntry
  deriving DecidableEq

structure Running where
  thread : ℕ
  caller : Caller
  deriving DecidableEq

/-- `ngx_wasm_subsys_env_t` and the request's `ngx_http_lua_ctx_t`. `threads` holds what
the calls of `ngx_wasm_lua_thread_new` returned, `coRef` the coroutine whose reference is
in a co ctx. `unlinks` and `deletions` record the calls of `ngx_queue_remove` and the
coroutines that `ngx_http_lua_del_thread` deleted. -/
structure Env where
  threads : List (Option Thread) := []
  entryLctx : Option Thread := none
  coRef : CoCtx → Option Co := fun _ => none
  subCtxs : Queue ℕ := .init
  running : Option Running := none
  unlinks : List ℕ := []
  deletions : List Co := []

namespace Env

def thread (env : Env) (i : ℕ) : Option Thread := env.threads[i]?.join

/-- Thread `i`, or a blank one where there is none. -/
def lctx (env : Env) (i : ℕ) : Thread := (env.thread i).getD {}

def modify (env : Env) (i : ℕ) (f : Thread → Thread) : Env :=
  { env with threads := env.threads.modify i (Option.map f) }

/-- `ngx_http_lua_entry_thread_alive` finds the coroutine of the entry thread. -/
def EntryAlive (env : Env) : Prop := env.coRef .entryCoCtx = some .entry

end Env

/-- What is granted to a thread that starts: the two calls of `ngx_wasm_lua_thread_new`,
the memory its caller needs for the arguments and `ngx_http_lua_create_co_ctx`. -/
structure Setup where
  threadNew : Bool := true
  argsNew : Bool := true
  entryNew : Bool := true
  coNew : Bool := true

inductive Outcome
  | yields
  | finishes
  | raises
  deriving DecidableEq

def entryThreadStart (s : Setup) (env : Env) : Option Env :=
  match env.entryLctx with
  | some _ => some env
  | none =>
    if s.entryNew then
      some { env with
        entryLctx := some { coCtx := some .entryCoCtx, yielded := true, started := true }
        coRef := Function.update env.coRef .entryCoCtx (some .entry) }
    else none

def threadInit (s : Setup) (i : ℕ) (env : Env) : Option Env :=
  match env.coRef .entryCoCtx with
  | none =>
    -- `ngx_http_lua_entry_thread_alive` fails: "initializing the fake entry_ctx"
    some { env.modify i fun t => { t with coCtx := some .entryCoCtx } with
      coRef := Function.update env.coRef .entryCoCtx (some (.user i)) }
  | some _ =>
    if s.coNew then
      some { env.modify i fun t => { t with coCtx := some (.created i) } with
        coRef := Function.update env.coRef (.created i) (some (.user i)) }
    else none

/-- The thread runs after it, or `NGX_ERROR` was returned. -/
def threadRun (s : Setup) (i : ℕ) (env : Env) : Env :=
  match entryThreadStart s env with
  | none => env
  | some env =>
    match threadInit s i env with
    | none => env
    | some env => { env with running := some ⟨i, .first⟩ }

def start (s : Setup) (env : Env) : Env :=
  if s.threadNew then
    let env' := { env with threads := env.threads ++ [some {}] }
    if s.argsNew then threadRun s env.threads.length env' else env'
  else { env with threads := env.threads ++ [none] }

def link (i : ℕ) (env : Env) : Option Env :=
  match env.entryLctx with
  | none => some env
  | some _ => (env.subCtxs.insertTail i).map fun q => { env with subCtxs := q }

def unlink (i : ℕ) (env : Env) : Option Env :=
  (env.subCtxs.remove i).map fun q => { env with subCtxs := q, unlinks := env.unlinks ++ [i] }

/-- The first run of thread `i` is back in `ngx_wasm_lua_thread_run`. -/
def firstRun (o : Outcome) (i : ℕ) (env : Env) : Option Env :=
  link i (env.modify i fun t =>
    { t with started := true, yielded := decide (o = .yields) })

def threadIsDead (o : Outcome) (i : ℕ) (env : Env) : Bool :=
  o ≠ .yields || ((env.lctx i).coCtx.bind env.coRef).isNone

def threadHandleRc (o : Outcome) (i : ℕ) (env : Env) : Option Env :=
  if threadIsDead o i env then
    unlink i (env.modify i fun t => { t with finished := true, ended := decide (o ≠ .yields) })
  else some env

/-- The Lua code of the running thread yields or ends. -/
def leave (o : Outcome) (env : Env) : Option Env :=
  match env.running with
  | none => some env
  | some r =>
    let env := { env with running := none }
    match r.caller with
    | .first => (firstRun o r.thread env).bind (threadHandleRc o r.thread)
    | .resumed => threadHandleRc o r.thread env
    | .asEntry =>
      -- `thread_handle_rc` reads the entry thread's lctx and changes nothing of it
      some (env.modify r.thread fun t => { t with ended := decide (o ≠ .yields) })

def delThread (c : CoCtx) (env : Env) : Env :=
  match env.coRef c with
  | none => env
  | some co =>
    { env with
      coRef := Function.update env.coRef c none
      deletions := env.deletions ++ [co] }

/-- `ngx_wasm_lua_thread_cancel(env->entry_lctx)`. -/
def cancelEntry (env : Env) : Option Env :=
  match env.entryLctx with
  | none => none
  | some e =>
    if e.finished then some env
    else e.coCtx.map fun c =>
      delThread c { env with entryLctx := some { e with cancelled := true } }

/-- `ngx_wasm_lua_thread_cancel` up to the call of the error handler. -/
def cancelUnlink (i : ℕ) (env : Env) : Option Env :=
  match unlink i env with
  | none => none
  | some env =>
    (if env.subCtxs.isEmpty then cancelEntry env else some env).map fun env =>
      env.modify i fun t => { t with cancelled := true }

/-- The rest of `ngx_wasm_lua_thread_cancel`. -/
def cancelDelete (i : ℕ) (env : Env) : Option Env :=
  (env.lctx i).coCtx.map fun c => delThread c env

def cancel (i : ℕ) (env : Env) : Option Env :=
  match env.thread i with
  | none => some env
  | some t => if t.finished then some env else (cancelUnlink i env).bind (cancelDelete i)

/-- OpenResty resumes the coroutine of thread `i`. -/
def resume (i : ℕ) (env : Env) : Env :=
  match env.entryLctx with
  | none => env
  | some e =>
    if env.subCtxs.isEmpty || (env.lctx i).ended || (env.lctx i).coCtx = none then env
    else if (env.lctx i).coCtx = e.coCtx then { env with running := some ⟨i, .asEntry⟩ }
    else if i ∈ env.subCtxs.after env.threads.length none then
      { env with running := some ⟨i, .resumed⟩ }
    else env  -- "wasm lua bridge could not find resuming coroutine context"

inductive Event
  | start (s : Setup)
  | resume (i : ℕ)
  | leave (o : Outcome)
  | cancel (i : ℕ)

/-- A thread starts or resumes only while no other one runs. -/
def next (env : Env) : Event → Option Env
  | .start s => some (if env.running.isSome then env else start s env)
  | .resume i => some (if env.running.isSome then env else resume i env)
  | .leave o => leave o env
  | .cancel i => cancel i env

def step (st : Option Env) (e : Event) : Option Env × Unit := (st.bind (next · e), ())

end NgxWasm.Lua.Threads
