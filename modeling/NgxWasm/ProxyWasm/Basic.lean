import NgxWasm.Basic

/-!
# Enumerations of the proxy-wasm core (ngx_proxy_wasm.h)
-/

namespace NgxWasm.ProxyWasm

inductive Err where
  | unknownAbi
  | badAbi
  | badHostInterface
  | badModuleInterface
  | startFailed
  | vmStartFailed
  | configureFailed
  | instanceTrapped
  | returnAction
  | unknown
  deriving Repr, DecidableEq

inductive Isolation where
  | unset
  | none
  | stream
  | filter
  deriving Repr, DecidableEq

/-- `ngx_proxy_wasm_action_e`; guests may return any 32-bit value. -/
inductive Action where
  | cont
  | pause
  | endStream
  | done
  | wait
  | waitFull
  | close
  | other (n : ℕ)
  deriving Repr, DecidableEq

inductive Step where
  | reqHeaders
  | reqBody
  | reqTrailers
  | respHeaders
  | respBody
  | respTrailers
  | log
  | done
  | tick
  | dispatchResponse
  | foreignCallback
  | upstreamSelect
  | nextUpstream
  | upstreamInfo
  deriving Repr, DecidableEq

/-- The values of `ngx_proxy_wasm_step_e`, which are compared as numbers. -/
def Step.toNat : Step → ℕ
  | .reqHeaders => 1
  | .reqBody => 2
  | .reqTrailers => 3
  | .respHeaders => 4
  | .respBody => 5
  | .respTrailers => 6
  | .log => 7
  | .done => 8
  | .tick => 9
  | .dispatchResponse => 10
  | .foreignCallback => 11
  | .upstreamSelect => 12
  | .nextUpstream => 13
  | .upstreamInfo => 14

inductive Phase where
  | rewrite
  | preaccess
  | access
  | content
  | headerFilter
  | bodyFilter
  | trailerFilter
  | log
  | done
  | background
  deriving Repr, DecidableEq

end NgxWasm.ProxyWasm
