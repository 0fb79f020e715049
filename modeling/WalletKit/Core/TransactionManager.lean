import WalletKit.Adapters.Nonce

/-!
# The send pipeline

`TransactionManager` turns an intent into a broadcast transaction and a persisted handle,
and cancels a pending one. Each function below is the source function of the same name
with its port calls in the same order; `?` is `orThrow`. A manager is its signer's
address, the policy engine it asks, its nonce manager, the routes its submission strategy
supports and its gas buffer; the remaining ports are shared by everything in a wallet.
-/
namespace WalletKit

open Machine

variable [Alloy]

namespace Signing

/-- Assemble the EIP-1559 transaction for an intent at a given nonce, gas and fees. -/
def buildTx (intent : TxIntent) (nonce gasLimit : Nat) (fees : Eip1559Estimation) : TxEip1559 where
  chainId := intent.chainId
  nonce := nonce
  gasLimit := gasLimit
  maxFeePerGas := fees.maxFeePerGas
  maxPriorityFeePerGas := fees.maxPriorityFeePerGas
  «to» := intent.to
  value := intent.value
  input := intent.input

/-- A 2718-encoded signed transaction paired with its hash. -/
structure SignedTx where
  rlp : Bytes
  hash : TxHash
  deriving DecidableEq

/-- The encoding of a transaction under a signature; its hash is that of the bytes. -/
def SignedTx.of (tx : TxEip1559) (signature : Signature) : SignedTx :=
  ⟨encoded2718 tx signature, keccak256 (encoded2718 tx signature)⟩

structure SignedFees where
  fees : Eip1559Estimation
  gasLimit : Nat
  deriving DecidableEq

/-- Sign through the signer's gate and encode. -/
def signEncode (signer : Address) (tx : TxEip1559) (intentHash : B256)
    (approval : PolicyApproval) (now : Nat) : ExceptT SignerError Io SignedTx := do
  let signature ← (Signer.signTransaction signer tx intentHash approval now).orThrow id
  return .of tx signature

/-- Fee fields and gas limit of a signed EIP-1559 transaction. -/
def decodeFees (signed : Bytes) : Option SignedFees :=
  match decode2718 signed with
  | some (.eip1559 tx) => some ⟨⟨tx.maxFeePerGas, tx.maxPriorityFeePerGas⟩, tx.gasLimit⟩
  | _ => none

end Signing

open Signing

inductive TransactionManagerError where
  | accountMismatch (intent signer : Address)
  | simulationRejected (reason : String)
  | unknownHandle
  | cancelTerminal
  | denied (rejection : PolicyRejection)
  | rpc (e : RpcError)
  | gas (e : GasOracleError)
  | policy (e : PolicyEngineError)
  | nonce (e : NonceManagerError)
  | signer (e : SignerError)
  | store (e : StateStoreError)
  | submission (e : SubmissionError)
  | route (e : RouteError)
  deriving DecidableEq, Repr

structure TransactionManager where
  policy : PolicyId
  nonceManager : LocalNonceManager
  signer : Address
  supportsRoute : SubmissionRoute → Bool
  gasBufferPct : Nat

abbrev SendM := ExceptT TransactionManagerError Io

/-- The target's own fees, for a replacement to be priced over. -/
def feeBasis (signed : Bytes) : SendM Eip1559Estimation :=
  match decodeFees signed with
  | some f => pure f.fees
  | none => throw .cancelTerminal

/-- The zero-value self-send that cancels a transaction of `account`. -/
def cancelIntent (chainId : Nat) (account : Address) : TxIntent where
  chainId := chainId
  account := account
  «to» := .call account
  value := 0
  input := []
  purpose := none

/-- The write-ahead record of a send, stored before the broadcast. -/
def walHandle (intent : TxIntent) (nonce : Nat) (approval : PolicyApproval) (now : Nat)
    (signed : SignedTx) (opts : SubmissionOpts) (context : Option MetaContext) : TxHandle where
  id := .new intent.hash nonce
  account := intent.account
  intent := intent
  intentHash := intent.hash
  nonce := nonce
  status := .pending
  envelope := approval.gasEnvelope
  signed := signed.rlp
  broadcasts := [signed.hash]
  lastBroadcastAt := now
  cancelled := false
  submission := opts
  «meta» := context

/-- The record of a broadcast cancel, at the nonce of its target. -/
def cancelHandle (target : TxHandle) (intent : TxIntent) (approval : PolicyApproval) (now : Nat)
    (signed : SignedTx) : TxHandle where
  id := .new intent.hash target.nonce
  account := target.account
  intent := intent
  intentHash := intent.hash
  nonce := target.nonce
  status := .sent
  envelope := approval.gasEnvelope
  signed := signed.rlp
  broadcasts := [signed.hash]
  lastBroadcastAt := now
  cancelled := false
  submission := target.submission
  «meta» := none

/-- The record of a managed-relay send: it has no transaction of the wallet's own. -/
def taskHandle (intent : TxIntent) (nonce now : Nat) (context : MetaContext) : TxHandle where
  id := .new intent.hash nonce
  account := intent.account
  intent := intent
  intentHash := intent.hash
  nonce := nonce
  status := .sent
  envelope := .default
  signed := []
  broadcasts := []
  lastBroadcastAt := now
  cancelled := false
  submission := .default
  «meta» := some context

namespace TransactionManager

/-- Gas for a cancel self-send. -/
def cancelGasLimit : Nat := 21000

/-- `u64::MAX`, at which a buffered gas limit is capped. -/
def u64Max : Nat := 2 ^ 64 - 1

def bufferedGas (m : TransactionManager) (estimate : Nat) : Nat :=
  min (min (estimate * (100 + m.gasBufferPct)) (2 ^ 128 - 1) / 100) u64Max

/-- Run the policy gate for a signing request. -/
def authorize (m : TransactionManager) (request : SigningRequest) : SendM PolicyApproval := do
  match ← (PolicyEngine.evaluate m.policy request).orThrow .policy with
  | .allow approval => return approval
  | .deny rejection => throw (.denied rejection)

/-- Sign EIP-712 typed data through the policy gate. -/
def signTypedData (m : TransactionManager) (td : TypedData) : SendM SignatureEnvelope := do
  let approval ← m.authorize (.typedData td)
  let now ← Clock.nowUnix
  (Signer.signTypedData m.signer td approval now).orThrow .signer

/-- Give a nonce back and ignore whether that worked. -/
def recycle (m : TransactionManager) (account : Address) (nonce : Nat) : Io Unit := do
  let _ ← (m.nonceManager.release account nonce).run

/-- The broadcast went out, or may have: the nonce stays reserved. -/
def recordSent (wal : TxHandle) : Io TxHandle := do
  let sent := { wal with status := .sent }
  let _ ← StateStore.putHandle sent (.sent wal)
  return sent

/-- The broadcast was deterministically rejected: terminalize and recycle the nonce. -/
def rejectSend (m : TransactionManager) (wal : TxHandle) (e : SubmissionError) :
    SendM TxHandle := do
  let failed := { wal with status := .failed e.toString }
  let _ ← StateStore.putHandle failed (.rejected wal)
  m.recycle wal.account wal.nonce
  throw (.submission e)

/-- The tail of `build_sign_submit`, from the write-ahead record on. -/
def submitWal (m : TransactionManager) (wal : TxHandle) (origin : Origin) : SendM TxHandle := do
  match ← Submission.submit wal.signed wal.submission (.send origin wal) with
  | .ok _ => recordSent wal
  | .error e => if e.isTransient || e.isAlreadyAccepted then recordSent wal else m.rejectSend wal e

/-- Build, sign, persist, then broadcast at an allocated nonce. The nonce is given back on
exactly three branches: signing failed, the write-ahead record could not be stored, or the
broadcast was deterministically rejected. -/
def buildSignSubmit (m : TransactionManager) (intent : TxIntent) (gasLimit : Nat)
    (fees : Eip1559Estimation) (nonce : Nat) (approval : PolicyApproval)
    (opts : SubmissionOpts) (context : Option MetaContext) (origin : Origin) :
    SendM TxHandle := do
  let now ← Clock.nowUnix
  let tx := buildTx intent nonce gasLimit fees
  match ← Prog.outcome (signEncode m.signer tx intent.hash approval now) with
  | .error e =>
    m.recycle intent.account nonce
    throw (.signer e)
  | .ok signed =>
    let wal := walHandle intent nonce approval now signed opts context
    match ← StateStore.putHandle wal (.wal origin) with
    | .error e =>
      m.recycle intent.account nonce
      throw (.store e)
    | .ok _ => m.submitWal wal origin

/-- The send pipeline; a gasless outer transaction carries its `context`. -/
def sendWithMeta (m : TransactionManager) (intent : TxIntent) (opts : SubmissionOpts)
    (context : Option MetaContext) (origin : Origin) : SendM TxHandle :=
  if m.supportsRoute opts.route = false then throw (.route .relayNotConfigured)
  else if m.signer ≠ intent.account then throw (.accountMismatch intent.account m.signer)
  else do
    let request : TransactionRequest :=
      ⟨some intent.account, some intent.to, some intent.value, intent.input⟩
    match ← Rpc.estimateGas request with
    | .error (.call message false) => throw (.simulationRejected message)
    | .error e => throw (.rpc e)
    | .ok gas =>
      let fees ← (GasOracle.estimate).orThrow .gas
      match ← (PolicyEngine.evaluate m.policy (.transaction intent)).orThrow .policy with
      | .deny rejection => throw (.denied rejection)
      | .allow approval =>
        let nonce ← (m.nonceManager.allocate intent.account).run.orThrow .nonce
        m.buildSignSubmit intent (m.bufferedGas gas) fees nonce approval opts context origin

def sendWith (m : TransactionManager) (intent : TxIntent) (opts : SubmissionOpts) :
    SendM TxHandle := m.sendWithMeta intent opts none .direct

/-- The executor's re-execution of a displaced intent is the same call from another place. -/
def send (m : TransactionManager) (intent : TxIntent) (origin : Origin) : SendM TxHandle :=
  m.sendWithMeta intent .default none origin

/-- Persist a task-pending handle for a managed-relay send under the user's account. -/
def persistTaskHandle (_ : TransactionManager) (intent : TxIntent) (context : MetaContext) :
    SendM TxHandle := do
  let nonce := min context.nonce u64Max
  let now ← Clock.nowUnix
  let handle := taskHandle intent nonce now context
  (StateStore.putHandle handle .task).orThrow .store
  return handle

/-- One attempt to sign and submit the cancel at `basis`. An already accepted transaction
counts as submitted; what follows an underpriced one is the caller's choice. -/
def cancelRound (m : TransactionManager) (target : TxHandle) (intent : TxIntent)
    (approval : PolicyApproval) (now : Nat) (underpriced : SubmissionError → SendM SignedTx)
    (basis : Eip1559Estimation) : SendM SignedTx := do
  let fees ← (GasOracle.bump basis).orThrow .gas
  let tx := buildTx intent target.nonce cancelGasLimit fees
  let signed ← (signEncode m.signer tx intent.hash approval now).run.orThrow .signer
  match ← Submission.submit signed.rlp target.submission (.cancel target) with
  | .ok _ => return signed
  | .error e =>
    if e.isAlreadyAccepted then return signed
    else if e.isUnderpriced then underpriced e
    else throw (.submission e)

/-- Sign and submit the cancel; when underpriced, fetch the target's fees again and resend
once. -/
def broadcastCancelWithRepricing (m : TransactionManager) (target : TxHandle)
    (intent : TxIntent) (basis : Eip1559Estimation) (approval : PolicyApproval) (now : Nat) :
    SendM SignedTx :=
  m.cancelRound target intent approval now again basis
where
  again (_ : SubmissionError) : SendM SignedTx := do
    match ← (StateStore.handle target.id).orThrow .store with
    | none => throw .unknownHandle
    | some fresh =>
      let basis ← feeBasis fresh.signed
      m.cancelRound target intent approval now (fun e => throw (.submission e)) basis

/-- The end of `cancel`: record the broadcast cancel, or unmark the target again. -/
def recordCancel (marked : TxHandle) (intent : TxIntent) (approval : PolicyApproval) (now : Nat) :
    Except TransactionManagerError SignedTx → SendM TxHandle
  | .error e => do
    let _ ← StateStore.putHandle { marked with cancelled := false } (.cancelUndo marked)
    throw e
  | .ok signed => do
    let cancel := cancelHandle marked intent approval now signed
    (StateStore.putHandle cancel (.cancelNew marked)).orThrow .store
    return cancel

/-- The part of `cancel` after the approval. Any consumption of the nonce settles the target
`Dropped` from the first write on. -/
def cancelApproved (m : TransactionManager) (target : TxHandle) (intent : TxIntent)
    (approval : PolicyApproval) : SendM TxHandle := do
  let marked := { target with cancelled := true }
  (StateStore.putHandle marked (.cancelMark target)).orThrow .store
  let now ← Clock.nowUnix
  let basis ← feeBasis marked.signed
  let result ← Prog.outcome (m.broadcastCancelWithRepricing marked intent basis approval now)
  recordCancel marked intent approval now result

/-- Cancel a pending transaction: a policy-gated self-send at its nonce. -/
def cancel (m : TransactionManager) (id : HandleId) : SendM TxHandle := do
  match ← (StateStore.handle id).orThrow .store with
  | none => throw .unknownHandle
  | some target =>
    if target.status.isTerminal then
      throw .cancelTerminal
    else
      let intent := cancelIntent target.intent.chainId target.account
      let approval ← m.authorize (.cancel intent)
      m.cancelApproved target intent approval

end TransactionManager

end WalletKit
