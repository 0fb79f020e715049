import WalletKit.Core.Ports

/-!
# The managed relay

`GelatoRelay` shapes the call a user signs: which of Gelato's four forwarders it is bound
to, and the sequential nonce or the salt that guards it against replay. Posting a call and
polling its task are calls of the `Relay` port.
-/
namespace WalletKit

open Machine

inductive FeeScheme where
  | sponsored (apiKey : String)
  | syncFee (feeToken : Address)
  deriving DecidableEq, Repr

inductive NonceScheme where
  | sequential
  | concurrent
  deriving DecidableEq, Repr

structure GelatoRelay where
  fee : FeeScheme
  nonce : NonceScheme
  deriving DecidableEq, Repr

structure GelatoDomain where
  name : String
  verifyingContract : Address
  deriving DecidableEq, Repr

namespace GelatoDomain

def sponsoredSequential : GelatoDomain :=
  ⟨"GelatoRelay1BalanceERC2771", 0xd8253782c45a12053594b9deb72d8e8ab2fca54c⟩
def sponsoredConcurrent : GelatoDomain :=
  ⟨"GelatoRelay1BalanceConcurrentERC2771", 0xc65d82ece367ef06bf2ab791b3f3cf037dc0e816⟩
def syncFeeSequential : GelatoDomain :=
  ⟨"GelatoRelayERC2771", 0xb539068872230f20456cf38ec52ef2f91af4ae49⟩
def syncFeeConcurrent : GelatoDomain :=
  ⟨"GelatoRelayConcurrentERC2771", 0x8598806401a63ddf52473f1b3c55bb9e33e2d73b⟩

end GelatoDomain

/-- The forwarder nonce a call consumes, or `0` for a salt. -/
def GelatoCall.nonce (c : GelatoCall) : Nat :=
  match c.replay with
  | .nonce n => n
  | .salt _ => 0

namespace GelatoRelay

variable (relay : GelatoRelay)

/-- The forwarder of this fee model and nonce mode. -/
def domain : GelatoDomain :=
  match relay.fee, relay.nonce with
  | .sponsored _, .sequential => .sponsoredSequential
  | .sponsored _, .concurrent => .sponsoredConcurrent
  | .syncFee _, .sequential => .syncFeeSequential
  | .syncFee _, .concurrent => .syncFeeConcurrent

def verifyingContract : Address := relay.domain.verifyingContract

/-- Bind a call to this relay's domain. -/
def typedData (call : GelatoCall) : TypedData where
  name := relay.domain.name
  version := "1"
  chainId := some call.chainId
  verifyingContract := some relay.domain.verifyingContract
  message := .gelato (match relay.fee with | .sponsored _ => true | .syncFee _ => false) call

variable [Alloy]

/-- The salt of a concurrent send: user, deadline and calldata decide it. -/
def concurrentSalt (user : Address) (data : Bytes) (deadline : Nat) : B256 :=
  keccak256 (beBytes 20 user.toNat ++ beBytes 32 deadline ++ data)

/-- Read the sequential replay counter of Gelato's forwarder. -/
def userNonce (user : Address) : ExceptT RelayError Io Nat := do
  let request : TransactionRequest :=
    ⟨none, some (.call relay.verifyingContract), none, Alloy.userNonceCall user⟩
  match ← (Rpc.call request).orThrow .rpc with
  | .returned bytes =>
    if 32 ≤ bytes.length then return beNat (bytes.take 32)
    else throw (.forwarder
      "userNonce() returned undecodable data — not a Gelato ERC-2771 forwarder")
  | .reverted _ => throw (.forwarder
      "userNonce() reverted — no Gelato ERC-2771 forwarder at the expected address on this chain")

/-- Assemble the call; neither value nor a contract creation can be relayed. -/
def buildCall (intent : TxIntent) (deadline : Nat) : ExceptT RelayError Io GelatoCall :=
  if intent.value ≠ 0 then
    throw (.rejected "Gelato ERC-2771 relay cannot forward ETH value (msg.value must be 0)")
  else
    match intent.to with
    | .create => throw (.rejected "contract creation cannot be relayed via ERC-2771")
    | .call target => do
      let replay ← match relay.nonce with
        | .sequential => Replay.nonce <$> relay.userNonce intent.account
        | .concurrent => pure (.salt (concurrentSalt intent.account intent.input deadline))
      return ⟨intent.chainId, target, intent.input, intent.account, replay, deadline⟩

end GelatoRelay

end WalletKit
