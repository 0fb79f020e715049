import WalletKit.Core.Lifecycle
import WalletKit.Core.TransactionManager

/-!
# The tracking executor

`AccountExecutor` drives an account's handles to terminal outcomes, one `tick` at a time:
recover, confirm, escalate. Each function is the source function of the same name. The
loops over `pending_handles` run over the list that one call of it returned. The cached
approvals and the last accepted head live outside the program, under the executor's id.
-/
namespace WalletKit

open Machine Signing

variable [Alloy]

inductive ExecutorError where
  | rpc (e : RpcError)
  | gas (e : GasOracleError)
  | policy (e : PolicyEngineError)
  | nonce (e : NonceManagerError)
  | signer (e : SignerError)
  | store (e : StateStoreError)
  | submission (e : SubmissionError)
  deriving DecidableEq, Repr

abbrev TickM := ExceptT ExecutorError Io

/-- The one chain snapshot a confirm cycle works from. -/
structure Cycle where
  view : ChainView
  finality : FinalityConfig
  minedNonce : Nat
  deriving DecidableEq

/-- The wiring of one executor. `relay` is set when a managed relay can be polled. -/
structure AccountExecutor where
  id : ExecutorId
  nonceManager : LocalNonceManager
  policy : PolicyId
  signer : Address
  account : Address
  requiredConfirmations : Nat
  bumpTimeout : Nat
  refill : Option TransactionManager
  relay : Bool

/-- A managed-relay handle whose task has not yet produced an on-chain hash. -/
def isAwaitingRelay (handle : TxHandle) : Bool :=
  handle.broadcasts.isEmpty &&
    match handle.meta with
    | some context => context.task.isSome
    | none => false

/-- The execution outcome for a mined receipt: a self-relayed call also needs the
forwarder's own event to say that the inner call ran. -/
def outcomeOf (receipt : TransactionReceipt) (handle : TxHandle) : Outcome :=
  let innerOk :=
    match handle.meta with
    | some context => if context.task.isNone then context.innerSucceeded receipt.logs else true
    | none => true
  if receipt.status && innerOk then .executed else .reverted

namespace AccountExecutor

variable (e : AccountExecutor)

/-- Rebroadcast persisted transactions that should be in the mempool. -/
def recoverHandle (handle : TxHandle) : Io Unit :=
  match handle.status with
  | .pending | .sent =>
    if handle.signed.isEmpty then pure ()
    else do let _ ← Submission.submit handle.signed handle.submission (.recover handle)
  | _ => pure ()

def recover : TickM Unit := do
  let handles ← (StateStore.pendingHandles e.account).orThrow .store
  liftM (handles.forM recoverHandle)

/-- Read one consistent snapshot; `none` skips the cycle. -/
def readCycle : TickM (Option Cycle) := do
  let latest ← (Rpc.blockNumber).orThrow .rpc
  let minedNonce ← (Rpc.txCount e.account).orThrow .rpc
  let lastLatest ← ExecutorMemory.lastLatest e.id
  if latest < lastLatest then
    return none
  else
    let tag ← (Rpc.finalizedBlock).orThrow .rpc
    let mode := if tag.isSome then Finality.finalized else Finality.depth
    let finalized := tag.getD 0
    if latest < finalized then
      return none
    else
      ExecutorMemory.storeLatest e.id latest
      return some ⟨⟨latest, finalized⟩, ⟨mode, e.requiredConfirmations⟩, minedNonce⟩

/-- Trust a receipt only if its block is still canonical. -/
def anchor (receipt : TransactionReceipt) (handle : TxHandle) : Io ChainEvent :=
  match receipt.blockNumber, receipt.blockHash with
  | some block, some blockHash => do
    match ← Rpc.blockHash block with
    | .ok (some canonical) =>
      if canonical = blockHash then return .mined block blockHash (outcomeOf receipt handle)
      else return .unknown
    | _ => return .unknown
  | _, _ => pure .unknown

/-- The scan over a handle's broadcasts, newest first. -/
def scan (handle : TxHandle) (mined : Nat) : List TxHash → Io ChainEvent
  | [] => pure (if handle.nonce < mined then .replaced else .pending)
  | hash :: older => do
    match ← Rpc.receipt hash with
    | .ok none => scan handle mined older
    | .ok (some receipt) => anchor receipt handle
    | .error _ => return .unknown

/-- Distill one handle's chain reads into a single event. -/
def eventFor (handle : TxHandle) (mined : Nat) : Io ChainEvent :=
  scan handle mined handle.broadcasts.reverse

/-- Re-execute a displaced intent at a fresh nonce; a failure never aborts the tick. -/
def refillIntent (manager : TransactionManager) (handle : TxHandle) : Io Unit := do
  let _ ← (manager.send handle.intent (.refill handle)).run

/-- Terminal bookkeeping for a just-persisted handle. -/
def onSettled (handle : TxHandle) : Io Unit := do
  ExecutorMemory.removeApproval e.id handle.id
  match e.refill with
  | some manager => if handle.status = .replaced then refillIntent manager handle else pure ()
  | none => pure ()

/-- A cancelled handle whose nonce was consumed settles `Dropped`, not `Replaced`. -/
def settleStatus (handle : TxHandle) (next : TxStatus) : TxStatus :=
  if next = .replaced ∧ handle.cancelled then .dropped else next

/-- Move a chain-tracked handle by the pure transition, persist it, then settle it. -/
def advanceOnChain (cycle : Cycle) (handle : TxHandle) : Io Unit := do
  let event ← eventFor handle cycle.minedNonce
  match transition handle.status event cycle.view cycle.finality with
  | none => return ()
  | some next =>
    let moved := { handle with status := settleStatus handle next }
    match ← StateStore.putHandle moved (.advance handle) with
    | .ok _ => if moved.status.isTerminal then e.onSettled moved else return ()
    | .error _ => return ()

/-- Advance a managed-relay handle by polling its task. -/
def pollTask (handle : TxHandle) : Io Unit :=
  match e.relay, handle.meta.bind (·.task) with
  | true, some task => do
    match ← Relay.poll task with
    | .ok (.included hash) =>
      let moved := { handle with broadcasts := handle.broadcasts ++ [hash], status := .sent }
      let _ ← StateStore.putHandle moved (.poll handle)
    | .ok (.failed reason) =>
      let moved := { handle with status := .failed reason }
      match ← StateStore.putHandle moved (.poll handle) with
      | .ok _ => e.onSettled moved
      | .error _ => return ()
    | .ok .pending => return ()
    | .error _ => return ()
  | _, _ => pure ()

def advanceHandle (cycle : Cycle) (handle : TxHandle) : Io Unit :=
  if isAwaitingRelay handle then e.pollTask handle else e.advanceOnChain cycle handle

/-- Advance in-flight handles against one consistent chain view. -/
def confirm : TickM Unit := do
  match ← e.readCycle with
  | none => return ()
  | some cycle =>
    (e.nonceManager.reset e.account cycle.minedNonce).run.orThrow .nonce
    let handles ← (StateStore.pendingHandles e.account).orThrow .store
    liftM (handles.forM (e.advanceHandle cycle))

/-- The request a bump is re-evaluated under. -/
def bumpRequest (intent : TxIntent) : SigningRequest :=
  if intent.isSelfSend then .cancel intent else .transaction intent

/-- The approval to sign a bump with: the cached one while it is valid and covers the
fees, else a fresh evaluation of the persisted intent. -/
def bumpApproval (handle : TxHandle) (bumped : Eip1559Estimation) (now : Nat) :
    TickM (Option PolicyApproval) := do
  let admits := fun (a : PolicyApproval) =>
    a.gasEnvelope.admits bumped.maxFeePerGas bumped.maxPriorityFeePerGas
  let cached ← ExecutorMemory.approval e.id handle.id
  match cached.filter fun a => now ≤ a.validUntil && admits a with
  | some approval => return some approval
  | none =>
    match ← (PolicyEngine.evaluate e.policy (bumpRequest handle.intent)).orThrow .policy with
    | .allow approval => return if admits approval then some approval else none
    | .deny _ => return none

/-- The route a bump goes out on: a private route that promised to fall through to the
public mempool does so once enough broadcasts are recorded. -/
def bumpRoute (handle : TxHandle) : SubmissionRoute :=
  match handle.submission.route with
  | .private route =>
    match route.escalation with
    | .publicAfter cycles =>
      if cycles ≤ handle.broadcasts.length then .public else .private route
    | .stayPrivate => .private route
  | .public => .public

/-- The tail of `bump`: persist the replacement and cache its approval. -/
def recordBump (routed handle : TxHandle) (signed : SignedTx) (approval : PolicyApproval)
    (now : Nat) : TickM Unit := do
  let bumped := { routed with
    signed := signed.rlp
    broadcasts := routed.broadcasts ++ [signed.hash]
    lastBroadcastAt := now }
  (StateStore.putHandle bumped (.bump handle)).orThrow .store
  ExecutorMemory.insertApproval e.id handle.id approval

/-- The part of `bump` after the approval: sign, submit, then record. -/
def submitBump (handle : TxHandle) (gasLimit : Nat) (fees : Eip1559Estimation)
    (approval : PolicyApproval) (now : Nat) : TickM Unit := do
  let tx := buildTx handle.intent handle.nonce gasLimit fees
  let signed ← (signEncode e.signer tx handle.intentHash approval now).run.orThrow .signer
  let routed := { handle with submission := ⟨bumpRoute handle⟩ }
  match ← Submission.submit signed.rlp routed.submission (.bump handle) with
  | .error err =>
    if err.isAlreadyAccepted then e.recordBump routed handle signed approval now
    else throw (.submission err)
  | .ok _ => e.recordBump routed handle signed approval now

/-- Raise a stuck transaction's fees at the same nonce. -/
def bump (handle : TxHandle) (now : Nat) : TickM Unit := do
  let mined ← (Rpc.txCount e.account).orThrow .rpc
  if handle.nonce < mined then
    return ()
  else
    match decodeFees handle.signed with
    | none => return ()
    | some current =>
      match ← GasOracle.bump current.fees with
      | .error (.ceilingExceeded _ _) => return ()
      | .error err => throw (.gas err)
      | .ok bumped =>
        if handle.envelope.admits bumped.maxFeePerGas bumped.maxPriorityFeePerGas = false then
          return ()
        else
          match ← e.bumpApproval handle bumped now with
          | none => return ()
          | some approval => e.submitBump handle current.gasLimit bumped approval now

/-- Best-effort per handle: one failed bump does not abort the cycle. -/
def escalateHandle (now : Nat) (handle : TxHandle) : Io Unit :=
  if handle.status = .sent ∧ e.bumpTimeout ≤ now - handle.lastBroadcastAt then do
    let _ ← (e.bump handle now).run
  else pure ()

/-- Bump every still-pending transaction that has outstayed the timeout. -/
def escalate : TickM Unit := do
  let now ← Clock.nowUnix
  let handles ← (StateStore.pendingHandles e.account).orThrow .store
  liftM (handles.forM (e.escalateHandle now))

/-- One executor cycle. -/
def tick : TickM Unit := do
  e.recover
  e.confirm
  e.escalate

end AccountExecutor

end WalletKit
