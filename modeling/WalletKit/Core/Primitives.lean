import Mathlib.Data.Finset.Max
import Mathlib.Data.Nat.Digits.Defs
import Mathlib.Tactic

/-!
# Wallet primitives

The data the wallet is written in: intents, handles and their lifecycle states, policy
approvals, broadcast routes and nonce states. `u64`, `u128` and `U256` values are natural
numbers. The functions of the Ethereum libraries the wallet calls (hashing, transaction
encoding, ABI) are the fields of `Alloy`; nothing is assumed of them.
-/
namespace WalletKit

abbrev Address := BitVec 160
abbrev B256 := BitVec 256
abbrev TxHash := B256
abbrev Bytes := List UInt8
abbrev Signature := Bytes

instance : LawfulBEq B256 := inferInstance

/-- The `width` low bytes of `n`, most significant first. -/
def beBytes (width n : Nat) : Bytes :=
  (List.range width).reverse.map fun i => UInt8.ofNat (n / 256 ^ i)

/-- The number a byte string spells, most significant byte first. -/
def beNat (bytes : Bytes) : Nat := bytes.foldl (fun n b => 256 * n + b.toNat) 0

/-- Recipient of a transaction, or contract creation. -/
inductive TxKind where
  | create
  | call (address : Address)
  deriving DecidableEq, Repr

/-- A request to execute one transaction, before nonce, gas and signature are resolved. -/
structure TxIntent where
  chainId : Nat
  account : Address
  «to» : TxKind
  value : Nat
  input : Bytes
  purpose : Option String
  deriving DecidableEq, Repr

/-- An EIP-1559 transaction. The access list is always empty and left out. -/
structure TxEip1559 where
  chainId : Nat
  nonce : Nat
  gasLimit : Nat
  maxFeePerGas : Nat
  maxPriorityFeePerGas : Nat
  «to» : TxKind
  value : Nat
  input : Bytes
  deriving DecidableEq, Repr

/-- A decoded transaction envelope; only the EIP-1559 kind is looked into. -/
inductive TxEnvelope where
  | eip1559 (tx : TxEip1559)
  | other
  deriving DecidableEq, Repr

/-- The user's ERC-2771 request, in the order of its typehash. -/
structure ForwardRequest where
  «from» : Address
  «to» : Address
  value : Nat
  gas : Nat
  nonce : Nat
  deadline : Nat
  data : Bytes
  deriving DecidableEq, Repr

/-- What a user of Gelato signs: an ordered nonce or a unique salt guards against replay. -/
inductive Replay where
  | nonce (n : Nat)
  | salt (s : B256)
  deriving DecidableEq, Repr

structure GelatoCall where
  chainId : Nat
  target : Address
  data : Bytes
  user : Address
  replay : Replay
  deadline : Nat
  deriving DecidableEq, Repr

/-- The EIP-712 messages the wallet signs; any other payload is opaque bytes. -/
inductive TypedMessage where
  | forwardRequest (r : ForwardRequest)
  | gelato (sponsored : Bool) (c : GelatoCall)
  | other (encoded : Bytes)
  deriving DecidableEq, Repr

structure TypedData where
  name : String
  version : String
  chainId : Option Nat
  verifyingContract : Option Address
  message : TypedMessage
  deriving DecidableEq, Repr

/-- `ExecutedForwardRequest(signer, nonce, success)`, as decoded from a log. -/
structure ExecutedForwardRequest where
  signer : Address
  nonce : Nat
  success : Bool
  deriving DecidableEq, Repr

structure Log where
  address : Address
  topics : List B256
  data : Bytes
  deriving DecidableEq, Repr

/-- The library functions the wallet calls. -/
class Alloy where
  keccak256 : Bytes → B256
  signatureHash : TxEip1559 → B256
  encoded2718 : TxEip1559 → Signature → Bytes
  decode2718 : Bytes → Option TxEnvelope
  eip191HashMessage : Bytes → B256
  eip712SigningHash : TypedData → Except String B256
  /-- `ExecutedForwardRequest::decode_log_data`: the topics and data alone decide. -/
  decodeExecuted : List B256 → Bytes → Option ExecutedForwardRequest
  executeCall : ForwardRequest → Bytes → Bytes
  noncesCall : Address → Bytes
  userNonceCall : Address → Bytes

export Alloy (keccak256 encoded2718 decode2718 eip191HashMessage eip712SigningHash)

namespace Json

def quoted (cs : List Char) : List Char := '"' :: (cs ++ ['"'])

def hex (bytes : Bytes) : List Char :=
  bytes.flatMap fun b => [Nat.digitChar (b.toNat / 16), Nat.digitChar (b.toNat % 16)]

/-- Fixed-width and variable byte strings alike: `0x` and two digits a byte. -/
def bytes (bs : Bytes) : List Char := quoted ('0' :: 'x' :: hex bs)

def address (a : Address) : List Char := bytes (beBytes 20 a.toNat)

/-- A quantity: `0x` and the digits without leading zeros. -/
def quantity (n : Nat) : List Char := quoted ('0' :: 'x' :: Nat.toDigits 16 n)

/-- The escapes of `serde_json`: short forms, then `\u00xx` for the other controls. -/
def escape (c : Char) : List Char :=
  if c = '"' then ['\\', '"']
  else if c = '\\' then ['\\', '\\']
  else if c.toNat = 8 then ['\\', 'b']
  else if c.toNat = 9 then ['\\', 't']
  else if c.toNat = 10 then ['\\', 'n']
  else if c.toNat = 12 then ['\\', 'f']
  else if c.toNat = 13 then ['\\', 'r']
  else if c.toNat < 32 then '\\' :: 'u' :: '0' :: '0' :: hex [UInt8.ofNat c.toNat]
  else [c]

def string (s : String) : List Char := quoted (s.toList.flatMap escape)

def orNull {α : Type} (f : α → List Char) : Option α → List Char
  | none => "null".toList
  | some a => f a

def key (name : String) : List Char := quoted name.toList ++ [':']

end Json

namespace TxKind

/-- `TxKind::to`. -/
def toOption : TxKind → Option Address
  | .create => none
  | .call a => some a

end TxKind

namespace TxIntent

/-- The compact JSON text of an intent, fields in declaration order. -/
def json (i : TxIntent) : List Char :=
  "\x7b".toList
    ++ Json.key "chain_id" ++ Nat.toDigits 10 i.chainId
    ++ ',' :: Json.key "account" ++ Json.address i.account
    ++ ',' :: Json.key "to" ++ Json.orNull Json.address i.to.toOption
    ++ ',' :: Json.key "value" ++ Json.quantity i.value
    ++ ',' :: Json.key "input" ++ Json.bytes i.input
    ++ ',' :: Json.key "purpose" ++ Json.orNull Json.string i.purpose
    ++ "\x7d".toList

/-- Stable content hash policy, simulation and signing bind to. -/
def hash [Alloy] (i : TxIntent) : B256 := keccak256 (i.json.flatMap String.utf8EncodeChar)

/-- A zero-value self-send with empty calldata. -/
def isSelfSend (i : TxIntent) : Bool :=
  i.to = .call i.account && i.value = 0 && i.input.isEmpty

end TxIntent

abbrev HandleId := B256

/-- Derive a handle's id from an intent hash and the nonce it occupies. -/
def HandleId.new [Alloy] (intentHash : B256) (nonce : Nat) : HandleId :=
  keccak256 (beBytes 32 intentHash.toNat ++ beBytes 8 nonce)

/-- Lifecycle of a tracked transaction. -/
inductive TxStatus where
  | pending
  | sent
  | mined (block : Nat) (blockHash : B256)
  | replacing (sinceBlock : Nat)
  | confirmed (block : Nat)
  | failed (reason : String)
  | replaced
  | dropped
  deriving DecidableEq, Repr

/-- Terminal statuses will not change again, so the executor stops tracking them. -/
def TxStatus.isTerminal : TxStatus → Bool
  | .confirmed _ | .failed _ | .replaced | .dropped => true
  | _ => false

/-- The fee ceiling a policy approved for an intent. -/
structure GasEnvelope where
  maxFeeCap : Nat
  maxPriorityCap : Nat
  deriving DecidableEq, Repr

namespace GasEnvelope

def default : GasEnvelope := ⟨1000000000000, 50000000000⟩

/-- Whether both fees sit within their caps. -/
def admits (e : GasEnvelope) (maxFee maxPriority : Nat) : Bool :=
  maxFee ≤ e.maxFeeCap && maxPriority ≤ e.maxPriorityCap

end GasEnvelope

/-- Proof that a signing payload passed policy. -/
structure PolicyApproval where
  payloadHash : B256
  gasEnvelope : GasEnvelope
  validUntil : Nat
  deriving DecidableEq, Repr

def PolicyApproval.authorizes (a : PolicyApproval) (payloadHash : B256) : Bool :=
  a.payloadHash = payloadHash

structure PolicyRejection where
  rule : String
  field : Option String
  reason : String
  deriving DecidableEq, Repr

inductive Decision where
  | allow (approval : PolicyApproval)
  | deny (rejection : PolicyRejection)
  deriving DecidableEq, Repr

/-- What the executor's bump loop does when a private transaction has not landed. -/
inductive Escalation where
  | stayPrivate
  | publicAfter (cycles : Nat)
  deriving DecidableEq, Repr

structure Hints where
  calldata : Bool
  logs : Bool
  functionSelector : Bool
  contractAddress : Bool
  deriving DecidableEq, Repr

structure Flashbots where
  escalation : Escalation
  blockWindow : Option Nat
  fast : Bool
  hints : Hints
  deriving DecidableEq, Repr

inductive ProtectRelay where
  | mevBlocker
  | bloxroute
  | custom (url : String)
  deriving DecidableEq, Repr

structure Protect where
  relay : ProtectRelay
  escalation : Escalation
  deriving DecidableEq, Repr

inductive PrivateRoute where
  | flashbots (f : Flashbots)
  | protect (p : Protect)
  deriving DecidableEq, Repr

def PrivateRoute.escalation : PrivateRoute → Escalation
  | .flashbots f => f.escalation
  | .protect p => p.escalation

inductive SubmissionRoute where
  | «public»
  | «private» (route : PrivateRoute)
  deriving DecidableEq, Repr

/-- Per-send routing options; the default is the public mempool. -/
structure SubmissionOpts where
  route : SubmissionRoute
  deriving DecidableEq, Repr

def SubmissionOpts.default : SubmissionOpts := ⟨.public⟩

abbrev TaskId := String

/-- The confirm-safety context of a gasless send; `task` is set iff a managed relay
submits the request. -/
structure MetaContext where
  forwarder : Address
  signer : Address
  nonce : Nat
  task : Option TaskId
  deriving DecidableEq, Repr

/-- Whether the forwarder executed the user's inner call: the first event for this
request's signer and nonce decides, and a missing event counts as failure. -/
def MetaContext.innerSucceeded [Alloy] (m : MetaContext) (logs : List Log) : Bool :=
  (logs.findSome? fun log =>
    match Alloy.decodeExecuted log.topics log.data with
    | some e => if e.signer = m.signer ∧ e.nonce = m.nonce then some e.success else none
    | none => none).getD false

/-- The persisted record of a tracked transaction. -/
structure TxHandle where
  id : HandleId
  account : Address
  intent : TxIntent
  intentHash : B256
  nonce : Nat
  status : TxStatus
  envelope : GasEnvelope
  signed : Bytes
  broadcasts : List TxHash
  lastBroadcastAt : Nat
  cancelled : Bool
  submission : SubmissionOpts
  «meta» : Option MetaContext
  deriving DecidableEq, Repr

/-- The relay task a handle stands for. -/
def TxHandle.task? (h : TxHandle) : Option TaskId := h.meta.bind (·.task)

/-- The part of a receipt the executor looks at. -/
structure TransactionReceipt where
  blockNumber : Option Nat
  blockHash : Option B256
  status : Bool
  logs : List Log
  deriving DecidableEq, Repr

/-- EIP-1559 fee fields. -/
structure Eip1559Estimation where
  maxFeePerGas : Nat
  maxPriorityFeePerGas : Nat
  deriving DecidableEq, Repr

/-- The fields of an RPC request the wallet sets. -/
structure TransactionRequest where
  «from» : Option Address
  «to» : Option TxKind
  value : Option Nat
  input : Bytes
  deriving DecidableEq, Repr

/-- The next never-allocated nonce and the freed ones below it. -/
structure NonceState where
  next : Nat
  free : Finset Nat
  deriving DecidableEq

structure NonceScope where
  account : Address
  deriving DecidableEq, Repr

abbrev FenceToken := Nat

def FenceToken.singleWriter : FenceToken := 0

/-- A stored value with its compare-and-swap version; version `0` means absent. -/
structure Versioned (α : Type) where
  value : α
  version : Nat
  deriving DecidableEq

def Versioned.absent : Versioned NonceState := ⟨⟨0, ∅⟩, 0⟩

end WalletKit
