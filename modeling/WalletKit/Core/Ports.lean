import WalletKit.Core.Primitives
import WalletKit.Machine.Program

/-!
# The ports and their calls

Every call the wallet makes through a port is one operation: chain reads, gas pricing,
policy, signing, broadcast, the state store, the clock, the managed relay, and the two
pieces of an executor's own memory (`last_latest` and the approval cache), which other
tasks of the process can touch between any two of its steps.

Calls of `put_handle`, `submit` and `cas_nonce_state` also carry the place in the source
they are made from and what the written value was computed from. No port sees these
labels; they let a property name the calls it is about.
-/
namespace WalletKit

open Machine

inductive RpcError where
  | call (message : String) (transient : Bool)
  deriving DecidableEq, Repr

inductive GasOracleError where
  | rpc (e : RpcError)
  | ceilingExceeded (ceiling needed : Nat)
  deriving DecidableEq, Repr

inductive PolicyEngineError where
  | load (message : String)
  | eval (message : String)
  deriving DecidableEq, Repr

inductive SigningError where
  | zeroChainDomain
  | encode (message : String)
  deriving DecidableEq, Repr

inductive SignerError where
  | load (message : String)
  | approvalMismatch
  | feesExceedApproval
  | approvalExpired
  | payload (e : SigningError)
  | backend (message : String)
  deriving DecidableEq, Repr

inductive StateStoreError where
  | backend (source : String)
  | serialization (source : String)
  | fenced
  | task (message : String)
  deriving DecidableEq, Repr

inductive NonceManagerError where
  | store (e : StateStoreError)
  | rpc (e : RpcError)
  deriving DecidableEq, Repr

inductive RouteError where
  | relayNotConfigured
  deriving DecidableEq, Repr

inductive SubmissionError where
  | rpc (e : RpcError)
  | relayAuth (message : String)
  | relayRejected (message : String)
  | route (e : RouteError)
  deriving DecidableEq, Repr

inductive RelayError where
  | rpc (e : RpcError)
  | submission (e : SubmissionError)
  | signing (e : SignerError)
  | rejected (message : String)
  | forwarder (message : String)
  | notConfigured
  deriving DecidableEq, Repr

namespace SubmissionError

/-- The error's `Display` text, which a rejected send records as its failure reason. -/
def toString : SubmissionError → String
  | .rpc (.call message _) => "rpc call failed: " ++ message
  | .relayAuth message => "relay rejected the endpoint-auth identity: " ++ message
  | .relayRejected message => "relay declined the transaction: " ++ message
  | .route .relayNotConfigured => "private routing requested but no relay identity is configured"

/-- Indeterminate: the transaction may already be in flight. -/
def isTransient : SubmissionError → Bool
  | .rpc (.call _ transient) => transient
  | _ => false

/-- `str::contains` after `to_ascii_lowercase`. -/
def mentions (message pattern : String) : Bool :=
  decide (pattern.toList <:+: message.toList.map Char.toLower)

/-- The node already accepted this transaction or its nonce. -/
def isAlreadyAccepted : SubmissionError → Bool
  | .rpc (.call message _) =>
    ["already known", "already imported", "nonce too low"].any (mentions message)
  | _ => false

/-- A replacement rejected because a competing transaction out-bids it. -/
def isUnderpriced : SubmissionError → Bool
  | .rpc (.call message _) => mentions message "replacement transaction underpriced"
  | _ => false

end SubmissionError

/-- What is being signed. -/
inductive SigningRequest where
  | transaction (intent : TxIntent)
  | message (bytes : Bytes)
  | typedData (td : TypedData)
  | cancel (intent : TxIntent)
  deriving DecidableEq, Repr

/-- EIP-712 domain validation and signing hash. -/
def typedDataHash [Alloy] (td : TypedData) : Except SigningError B256 :=
  match td.chainId with
  | some (_ + 1) => (eip712SigningHash td).mapError .encode
  | _ => .error .zeroChainDomain

/-- The hash an approval binds and a signer signs. -/
def SigningRequest.signingHash [Alloy] : SigningRequest → Except SigningError B256
  | .transaction intent | .cancel intent => .ok intent.hash
  | .message bytes => .ok (eip191HashMessage bytes)
  | .typedData td => typedDataHash td

/-- A produced signature and the key that made it. -/
structure SignatureEnvelope where
  signer : Address
  signature : Signature
  deriving DecidableEq, Repr

/-- The result of an `eth_call` simulation. -/
inductive Simulated where
  | returned (bytes : Bytes)
  | reverted (bytes : Bytes)
  deriving DecidableEq, Repr

/-- Where a polled relay task stands. -/
inductive RelayStatus where
  | pending
  | included (hash : TxHash)
  | failed (reason : String)
  deriving DecidableEq, Repr

/-- Which call started a send: a caller, or an executor re-executing a displaced intent. -/
inductive Origin where
  | direct
  | refill (displaced : TxHandle)
  deriving DecidableEq

/-- Where a handle is put from, with the record the written one was computed from. -/
inductive PutSite where
  | wal (origin : Origin)
  | sent (wal : TxHandle)
  | rejected (wal : TxHandle)
  | cancelMark (target : TxHandle)
  | cancelUndo (marked : TxHandle)
  | cancelNew (marked : TxHandle)
  | task
  | advance (handle : TxHandle)
  | poll (handle : TxHandle)
  | bump (handle : TxHandle)
  deriving DecidableEq

/-- Where bytes are broadcast from, with the handle they belong to as it was last written
or read there; for a cancel, its target. -/
inductive SubmitSite where
  | send (origin : Origin) (wal : TxHandle)
  | recover (handle : TxHandle)
  | cancel (target : TxHandle)
  | bump (handle : TxHandle)
  deriving DecidableEq

/-- The handle whose bytes are broadcast; for a cancel, its target. -/
def SubmitSite.handle : SubmitSite → TxHandle
  | .send _ h | .recover h | .cancel h | .bump h => h

def isBumpSite : SubmitSite → Bool
  | .bump _ => true
  | _ => false

theorem eq_bump_of_isBumpSite {site : SubmitSite} (h : isBumpSite site) : ∃ g, site = .bump g := by
  cases site with
  | bump g => exact ⟨g, rfl⟩
  | _ => cases h

/-- What a compare-and-swap of a nonce state stands for. `first` is the pending nonce that
was read when no state was stored yet. -/
inductive CasNote where
  | allocate (nonce : Nat) (first : Option Nat)
  | release (nonce : Nat)
  | reset (chainNext : Nat)
  deriving DecidableEq

/-- Names a policy engine, and an executor's own memory, among those of one wallet. -/
abbrev PolicyId := Nat
abbrev ExecutorId := Nat

inductive Op where
  -- Rpc
  | pendingNonce (account : Address)
  | txCount (account : Address)
  | blockNumber
  | finalizedBlock
  | blockHash (number : Nat)
  | estimateGas (request : TransactionRequest)
  | call (request : TransactionRequest)
  | receipt (tx : TxHash)
  -- GasOracle
  | gasEstimate
  | gasBump (prev : Eip1559Estimation)
  -- PolicyEngine
  | evaluate (engine : PolicyId) (request : SigningRequest)
  -- Signer
  | signTransaction (signer : Address) (tx : TxEip1559) (intentHash : B256)
      (approval : PolicyApproval) (now : Nat)
  | signTypedData (signer : Address) (td : TypedData) (approval : PolicyApproval) (now : Nat)
  -- SubmissionStrategy
  | submit (rlp : Bytes) (opts : SubmissionOpts) (site : SubmitSite)
  -- StateStore
  | loadNonceState (scope : NonceScope)
  | casNonceState (scope : NonceScope) (expectedVersion : Nat) (state : NonceState)
      (fence : FenceToken) (note : CasNote)
  | putHandle (handle : TxHandle) (site : PutSite)
  | pendingHandles (account : Address)
  | handle (id : HandleId)
  -- Clock
  | nowUnix
  -- Relay
  | poll (task : TaskId)
  | gelatoSubmit (call : GelatoCall) (signature : SignatureEnvelope)
  -- AccountExecutor::last_latest and AccountExecutor::approvals
  | lastLatestLoad (executor : ExecutorId)
  | lastLatestStore (executor : ExecutorId) (latest : Nat)
  | approvalsGet (executor : ExecutorId) (id : HandleId)
  | approvalsInsert (executor : ExecutorId) (id : HandleId) (approval : PolicyApproval)
  | approvalsRemove (executor : ExecutorId) (id : HandleId)
  deriving DecidableEq

@[reducible] def Op.Reply : Op → Type
  | .pendingNonce _ | .txCount _ | .blockNumber => Except RpcError Nat
  | .finalizedBlock => Except RpcError (Option Nat)
  | .blockHash _ => Except RpcError (Option B256)
  | .estimateGas _ => Except RpcError Nat
  | .call _ => Except RpcError Simulated
  | .receipt _ => Except RpcError (Option TransactionReceipt)
  | .gasEstimate | .gasBump _ => Except GasOracleError Eip1559Estimation
  | .evaluate _ _ => Except PolicyEngineError Decision
  | .signTransaction _ _ _ _ _ => Except SignerError Signature
  | .signTypedData _ _ _ _ => Except SignerError SignatureEnvelope
  | .submit _ _ _ => Except SubmissionError TxHash
  | .loadNonceState _ => Except StateStoreError (Versioned NonceState)
  | .casNonceState _ _ _ _ _ => Except StateStoreError Bool
  | .putHandle _ _ => Except StateStoreError Unit
  | .pendingHandles _ => Except StateStoreError (List TxHandle)
  | .handle _ => Except StateStoreError (Option TxHandle)
  | .nowUnix => Nat
  | .poll _ => Except RelayError RelayStatus
  | .gelatoSubmit _ _ => Except RelayError TaskId
  | .lastLatestLoad _ => Nat
  | .approvalsGet _ _ => Option PolicyApproval
  | .lastLatestStore _ _ | .approvalsInsert _ _ _ | .approvalsRemove _ _ => Unit

@[reducible] def ports : Interface := ⟨Op, Op.Reply⟩

abbrev Io := Prog ports

/-- One call through a port. -/
def ask (o : Op) : Io o.Reply := Prog.perform (E := ports) o

namespace Rpc

def pendingNonce (account : Address) : Io (Except RpcError Nat) := ask (.pendingNonce account)
def txCount (account : Address) : Io (Except RpcError Nat) := ask (.txCount account)
def blockNumber : Io (Except RpcError Nat) := ask .blockNumber
def finalizedBlock : Io (Except RpcError (Option Nat)) := ask .finalizedBlock
def blockHash (number : Nat) : Io (Except RpcError (Option B256)) := ask (.blockHash number)
def estimateGas (request : TransactionRequest) : Io (Except RpcError Nat) :=
  ask (.estimateGas request)
def call (request : TransactionRequest) : Io (Except RpcError Simulated) := ask (.call request)
def receipt (tx : TxHash) : Io (Except RpcError (Option TransactionReceipt)) := ask (.receipt tx)

end Rpc

namespace GasOracle

def estimate : Io (Except GasOracleError Eip1559Estimation) := ask .gasEstimate
def bump (prev : Eip1559Estimation) : Io (Except GasOracleError Eip1559Estimation) :=
  ask (.gasBump prev)

end GasOracle

def PolicyEngine.evaluate (engine : PolicyId) (request : SigningRequest) :
    Io (Except PolicyEngineError Decision) := ask (.evaluate engine request)

namespace Signer

def signTransaction (signer : Address) (tx : TxEip1559) (intentHash : B256)
    (approval : PolicyApproval) (now : Nat) : Io (Except SignerError Signature) :=
  ask (.signTransaction signer tx intentHash approval now)
def signTypedData (signer : Address) (td : TypedData) (approval : PolicyApproval) (now : Nat) :
    Io (Except SignerError SignatureEnvelope) := ask (.signTypedData signer td approval now)

end Signer

def Submission.submit (rlp : Bytes) (opts : SubmissionOpts) (site : SubmitSite) :
    Io (Except SubmissionError TxHash) := ask (.submit rlp opts site)

namespace StateStore

def loadNonceState (scope : NonceScope) : Io (Except StateStoreError (Versioned NonceState)) :=
  ask (.loadNonceState scope)
def casNonceState (scope : NonceScope) (expectedVersion : Nat) (state : NonceState)
    (fence : FenceToken) (note : CasNote) : Io (Except StateStoreError Bool) :=
  ask (.casNonceState scope expectedVersion state fence note)
def putHandle (handle : TxHandle) (site : PutSite) : Io (Except StateStoreError Unit) :=
  ask (.putHandle handle site)
def pendingHandles (account : Address) : Io (Except StateStoreError (List TxHandle)) :=
  ask (.pendingHandles account)
def handle (id : HandleId) : Io (Except StateStoreError (Option TxHandle)) := ask (.handle id)

end StateStore

def Clock.nowUnix : Io Nat := ask .nowUnix

namespace Relay

def poll (task : TaskId) : Io (Except RelayError RelayStatus) := ask (.poll task)
def gelatoSubmit (call : GelatoCall) (signature : SignatureEnvelope) :
    Io (Except RelayError TaskId) := ask (.gelatoSubmit call signature)

end Relay

namespace ExecutorMemory

def lastLatest (executor : ExecutorId) : Io Nat := ask (.lastLatestLoad executor)
def storeLatest (executor : ExecutorId) (latest : Nat) : Io Unit :=
  ask (.lastLatestStore executor latest)
def approval (executor : ExecutorId) (id : HandleId) : Io (Option PolicyApproval) :=
  ask (.approvalsGet executor id)
def insertApproval (executor : ExecutorId) (id : HandleId) (approval : PolicyApproval) :
    Io Unit := ask (.approvalsInsert executor id approval)
def removeApproval (executor : ExecutorId) (id : HandleId) : Io Unit :=
  ask (.approvalsRemove executor id)

end ExecutorMemory

end WalletKit
