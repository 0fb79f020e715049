import WalletKit.Adapters.Gelato
import WalletKit.Adapters.Submission
import WalletKit.Core.Executor

/-!
# The wallet facade

One `Wallet` is one account: a send pipeline and a tracking executor, and at most one
gasless backend, which is a second such pair for a relayer account or a managed relay.
All of them share one store. `WalletBuilder.build` is the wiring; the ports themselves,
the gas ceiling (a field of the gas oracle) and the read-only entry points are left out.
-/
namespace WalletKit

open Machine Signing

inductive WalletKitError where
  | rpc (e : RpcError)
  | signer (e : SignerError)
  | policy (rejection : PolicyRejection)
  | policyEngine (e : PolicyEngineError)
  | gas (e : GasOracleError)
  | nonce (e : NonceManagerError)
  | submission (e : SubmissionError)
  | store (e : StateStoreError)
  | simulation (reason : String)
  | accountMismatch (intent signer : Address)
  | cancel (reason : String)
  | route (e : RouteError)
  | relay (e : RelayError)
  deriving DecidableEq, Repr

def WalletKitError.ofManager : TransactionManagerError → WalletKitError
  | .accountMismatch a s => .accountMismatch a s
  | .simulationRejected reason => .simulation reason
  | .unknownHandle => .cancel "no tracked transaction for this handle id"
  | .cancelTerminal => .cancel "the transaction already settled"
  | .denied r => .policy r
  | .rpc e => .rpc e
  | .gas e => .gas e
  | .policy e => .policyEngine e
  | .nonce e => .nonce e
  | .signer e => .signer e
  | .store e => .store e
  | .submission e => .submission e
  | .route e => .route e

def WalletKitError.ofExecutor : ExecutorError → WalletKitError
  | .rpc e => .rpc e
  | .gas e => .gas e
  | .policy e => .policyEngine e
  | .nonce e => .nonce e
  | .signer e => .signer e
  | .store e => .store e
  | .submission e => .submission e

abbrev WalletM := ExceptT WalletKitError Io

/-- A signed request with the forwarder and the chain it is bound to. -/
structure SignedRequest where
  request : ForwardRequest
  signature : SignatureEnvelope
  forwarder : Address
  chainId : Nat
  deriving DecidableEq

namespace MetaContext

/-- The context of a request that our own relayer submits. -/
def forRequest (signed : SignedRequest) : MetaContext :=
  ⟨signed.forwarder, signed.request.from, signed.request.nonce, none⟩

/-- The context of a managed-relay task. -/
def forGelatoTask (forwarder user : Address) (nonce : Nat) (task : TaskId) : MetaContext :=
  ⟨forwarder, user, nonce, some task⟩

end MetaContext

/-- `u64::saturating_add`. -/
def saturatingAdd (a b : Nat) : Nat := min (a + b) TransactionManager.u64Max

def u48Max : Nat := 2 ^ 48 - 1

variable [Alloy]

namespace TransactionManager

variable (m : TransactionManager)

/-- Read the forwarder's nonce of `owner`. -/
def forwarderNonce (forwarder owner : Address) : ExceptT RelayError Io Nat := do
  let request : TransactionRequest :=
    ⟨none, some (.call forwarder), none, Alloy.noncesCall owner⟩
  match ← (Rpc.call request).orThrow .rpc with
  | .returned bytes =>
    if 32 ≤ bytes.length then return beNat (bytes.take 32)
    else throw (.forwarder "nonces() returned undecodable data — not an ERC2771Forwarder")
  | .reverted _ =>
    throw (.forwarder "nonces() reverted — the address is not an ERC2771Forwarder")

/-- Build the user's request for an intent and sign it through the policy gate. -/
def buildAndSignForwardRequest (intent : TxIntent) (forwarder : Address) (deadline : Nat) :
    WalletM SignedRequest :=
  match intent.to with
  | .create => throw (.relay (.rejected "contract creation cannot be relayed via ERC-2771"))
  | .call target => do
    let nonce ← (forwarderNonce forwarder intent.account).run.orThrow .relay
    let inner : TransactionRequest :=
      ⟨some intent.account, some intent.to, some intent.value, intent.input⟩
    match ← Rpc.estimateGas inner with
    | .error (.call message false) => throw (.simulation message)
    | .error e => throw (.relay (.rpc e))
    | .ok gas =>
      let now ← Clock.nowUnix
      let request : ForwardRequest := ⟨intent.account, target, intent.value, gas, nonce,
        min (saturatingAdd now deadline) u48Max, intent.input⟩
      let typed : TypedData :=
        ⟨"ERC2771Forwarder", "1", some intent.chainId, some forwarder, .forwardRequest request⟩
      let signature ← (m.signTypedData typed).run.orThrow .ofManager
      return ⟨request, signature, forwarder, intent.chainId⟩

end TransactionManager

/-- The relayer account's own pipeline and executor. -/
structure GaslessRuntime where
  manager : TransactionManager
  executor : AccountExecutor
  forwarder : Address

inductive GaslessBackend where
  | selfRelay (runtime : GaslessRuntime)
  | gelato (relay : GelatoRelay)

inductive GaslessRoute where
  | selfRelay (submission : SubmissionOpts)
  | gelato
  deriving DecidableEq, Repr

/-- The backend and the seconds a signed request stays valid. -/
structure GaslessOpts where
  route : GaslessRoute
  deadline : Nat
  deriving DecidableEq, Repr

structure Wallet where
  manager : TransactionManager
  executor : AccountExecutor
  gasless : Option GaslessBackend

namespace Wallet

variable (w : Wallet)

def send (intent : TxIntent) : WalletM TxHandle :=
  (w.manager.send intent .direct).run.orThrow .ofManager

def sendWith (intent : TxIntent) (opts : SubmissionOpts) : WalletM TxHandle :=
  (w.manager.sendWith intent opts).run.orThrow .ofManager

def cancel (id : HandleId) : WalletM TxHandle := (w.manager.cancel id).run.orThrow .ofManager

/-- The relayer's `execute` transaction around a signed request. -/
def outerIntent (runtime : GaslessRuntime) (intent : TxIntent) (signed : SignedRequest) :
    TxIntent where
  chainId := intent.chainId
  account := runtime.manager.signer
  «to» := .call runtime.forwarder
  value := intent.value
  input := Alloy.executeCall signed.request signed.signature.signature
  purpose := none

/-- The user signs, the relayer submits and pays for the outer transaction. -/
def sendSelfRelay (runtime : GaslessRuntime) (intent : TxIntent) (submission : SubmissionOpts)
    (deadline : Nat) : WalletM TxHandle := do
  let signed ← w.manager.buildAndSignForwardRequest intent runtime.forwarder deadline
  (runtime.manager.sendWithMeta (outerIntent runtime intent signed) submission
    (some (.forRequest signed)) .direct).run.orThrow .ofManager

/-- The user signs Gelato's request, Gelato submits, and the task is recorded. -/
def sendGelato (relay : GelatoRelay) (intent : TxIntent) (deadline : Nat) :
    WalletM TxHandle := do
  let now ← Clock.nowUnix
  let call ← (relay.buildCall intent (saturatingAdd now deadline)).run.orThrow .relay
  let signature ← (w.manager.signTypedData (relay.typedData call)).run.orThrow .ofManager
  let task ← (Relay.gelatoSubmit call signature).orThrow .relay
  let context := MetaContext.forGelatoTask relay.verifyingContract call.user call.nonce task
  (w.manager.persistTaskHandle intent context).run.orThrow .ofManager

def sendGasless (intent : TxIntent) (opts : GaslessOpts) : WalletM TxHandle :=
  match opts.route, w.gasless with
  | .selfRelay submission, some (.selfRelay runtime) =>
    w.sendSelfRelay runtime intent submission opts.deadline
  | .gelato, some (.gelato relay) => w.sendGelato relay intent opts.deadline
  | _, _ => throw (.relay .notConfigured)

def handle (id : HandleId) : WalletM (Option TxHandle) := (StateStore.handle id).orThrow .store

def status (id : HandleId) : WalletM (Option TxStatus) := do
  let found ← handle id
  return found.map (·.status)

/-- One executor cycle; with self-relay a second one, of the relayer account. -/
def tick : WalletM Unit := do
  w.executor.tick.run.orThrow .ofExecutor
  match w.gasless with
  | some (.selfRelay runtime) => runtime.executor.tick.run.orThrow .ofExecutor
  | _ => return ()

end Wallet

/-- What a caller chooses. Signers are their addresses, and engine `0` is the permissive one
a relayer gets by default. -/
structure WalletBuilder where
  signer : Address
  policy : PolicyId
  confirmations : Option Nat
  bumpTimeout : Option Nat
  gasBufferPct : Option Nat
  refillOnReplaced : Bool
  relayIdentity : Bool
  relayer : Option Address
  forwarder : Option Address
  relayerPolicy : Option PolicyId
  gelato : Option GelatoRelay
  attempts : Nat

namespace WalletBuilder

def defaultGasBufferPct : Nat := 25
def defaultRequiredConfirmations : Nat := 12
def defaultBumpTimeoutSecs : Nat := 30
def allowAll : PolicyId := 0

variable (b : WalletBuilder)

def nonceManager : LocalNonceManager := .new b.attempts

/-- A manager over the shared adapters; only the user's takes the gas buffer. -/
def managerOf (signer : Address) (policy : PolicyId) (gasBufferPct : Nat) :
    TransactionManager where
  policy := policy
  nonceManager := b.nonceManager
  signer := signer
  supportsRoute := Router.supportsRoute b.relayIdentity
  gasBufferPct := gasBufferPct

/-- An executor over the shared adapters, for the account of its signer. -/
def executorOf (id : ExecutorId) (signer : Address) (policy : PolicyId)
    (refill : Option TransactionManager) (relay : Bool) : AccountExecutor where
  id := id
  nonceManager := b.nonceManager
  policy := policy
  signer := signer
  account := signer
  requiredConfirmations := b.confirmations.getD defaultRequiredConfirmations
  bumpTimeout := b.bumpTimeout.getD defaultBumpTimeoutSecs
  refill := refill
  relay := relay

def manager : TransactionManager :=
  b.managerOf b.signer b.policy (b.gasBufferPct.getD defaultGasBufferPct)

/-- Wire the runtime. With both backends configured, self-relay wins. -/
def build : Wallet :=
  let refill := if b.refillOnReplaced then some b.manager else none
  match b.relayer, b.forwarder, b.gelato with
  | some relayer, some forwarder, _ =>
    let policy := b.relayerPolicy.getD allowAll
    ⟨b.manager, b.executorOf 0 b.signer b.policy refill false,
      some (.selfRelay ⟨b.managerOf relayer policy defaultGasBufferPct,
        b.executorOf 1 relayer policy none false, forwarder⟩)⟩
  | _, _, some relay =>
    ⟨b.manager, b.executorOf 0 b.signer b.policy refill true, some (.gelato relay)⟩
  | _, _, none => ⟨b.manager, b.executorOf 0 b.signer b.policy refill false, none⟩

end WalletBuilder

end WalletKit
