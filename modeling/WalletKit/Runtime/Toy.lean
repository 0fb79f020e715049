import WalletKit.Adapters.Signers
import WalletKit.Core.Facade
import WalletKit.Runtime.World

/-!
# Small library functions to run the wallet with

Concrete runs need hashing, encoding and decoding that evaluate. These are as simple as
they can be while different transactions and different intents still get different hashes.
-/
namespace WalletKit.Toy

def hash (bytes : Bytes) : B256 :=
  BitVec.ofNat 256 (bytes.foldl (fun n b => 257 * n + b.toNat + 1) 0)

/-- Nonce, gas limit and the two fees, then the signature. -/
def encode (tx : TxEip1559) (signature : Signature) : Bytes :=
  beBytes 8 tx.nonce ++ beBytes 8 tx.gasLimit ++ beBytes 8 tx.maxFeePerGas ++
    beBytes 8 tx.maxPriorityFeePerGas ++ signature

def decode (bytes : Bytes) : Option TxEnvelope :=
  let field := fun i => beNat ((bytes.drop (8 * i)).take 8)
  some (.eip1559 ⟨1, field 0, field 1, field 2, field 3, .create, 0, []⟩)

@[reducible] def alloy : Alloy where
  keccak256 := hash
  signatureHash tx := hash (encode tx [])
  encoded2718 := encode
  decode2718 := decode
  eip191HashMessage := hash
  eip712SigningHash _ := .ok 0
  decodeExecuted _ _ := none
  executeCall _ _ := []
  noncesCall _ := []
  userNonceCall _ := []

/-- An account, and a plain transfer from it. -/
def account : Address := 7

def intent : TxIntent := ⟨1, account, .call 9, 5, [], none⟩

def keys (a : Address) : LocalSigner := ⟨a, fun _ => .ok [1]⟩

/-- The account's manager, and an executor that bumps whatever is still pending. -/
def manager : TransactionManager := ⟨0, .new 2, account, fun _ => true, 20⟩

def executor : AccountExecutor := ⟨0, .new 2, 0, account, account, 3, 0, none, false⟩

/-- A wallet of that account that re-sends what was displaced, and can route privately. -/
def builder : WalletBuilder where
  signer := account
  policy := 0
  confirmations := some 3
  bumpTimeout := some 0
  gasBufferPct := none
  refillOnReplaced := true
  relayIdentity := true
  relayer := none
  forwarder := none
  relayerPolicy := none
  gelato := none
  attempts := 2

def wallet : Wallet := builder.build

/-- An executor that re-sends what was displaced. -/
def refiller : AccountExecutor := { executor with refill := some manager }

/-- An empty byte string is no transaction. -/
@[reducible] def strictAlloy : Alloy :=
  { alloy with decode2718 := fun bytes => if bytes = [] then none else decode bytes }

/-- The account's wallet with a relay that takes any number of tasks at once. -/
def relayWallet : Wallet :=
  { builder with gelato := some ⟨.sponsored "key", .concurrent⟩ : WalletBuilder }.build

attribute [local instance] alloy

/-- The first send of the account. -/
def sentId : HandleId := .new intent.hash 4

/-- The transactions of that send and of its cancel. -/
def sentBody : Signing.SignedTx := .of (Signing.buildTx intent 4 25200 ⟨10, 1⟩) [1]

def cancelBody : Signing.SignedTx :=
  .of (Signing.buildTx (cancelIntent 1 account) 4 21000 ⟨20, 2⟩) [1]

/-- The engine allows everything, the chain is at block 10 and has mined nothing, and every
broadcast is taken. -/
def calm : (o : Op) → Option o.Reply
  | .estimateGas _ => some (.ok 21000)
  | .gasEstimate => some (.ok ⟨10, 1⟩)
  | .gasBump _ => some (.ok ⟨20, 2⟩)
  | .evaluate _ (.transaction i) | .evaluate _ (.cancel i) =>
    some (.ok (.allow ⟨i.hash, .default, 1000⟩))
  | .pendingNonce _ | .txCount _ => some (.ok 4)
  | .nowUnix => some 100
  | .signTransaction s tx ih a now => some ((keys s).signTransaction tx ih a now)
  | .submit rlp _ _ => some (.ok (keccak256 rlp))
  | .blockNumber => some (.ok 10)
  | .finalizedBlock => some (.ok none)
  | .receipt _ => some (.ok none)
  | _ => none

/-- The chain at another head, with another count of mined transactions, and with the same
answer for every receipt. -/
def chain (head mined : Nat) (receipt : Option TransactionReceipt) : (o : Op) → Option o.Reply
  | .blockNumber => some (.ok head)
  | .txCount _ => some (.ok mined)
  | .receipt _ => some (.ok receipt)
  | .blockHash _ => some (.ok (some 1))
  | o => calm o

/-- Mined in block 10 and executed. -/
def receipt : TransactionReceipt := ⟨some 10, some 1, true, []⟩

/-- A forwarder at nonce 0, and a relay that takes every request and says this of every task. -/
def relaying (status : RelayStatus) (others : (o : Op) → Option o.Reply) :
    (o : Op) → Option o.Reply
  | .call _ => some (.ok (.returned (List.replicate 32 0)))
  | .evaluate _ (.typedData _) => some (.ok (.allow ⟨0, .default, 1000⟩))
  | .signTypedData signer _ _ _ => some (.ok ⟨signer, [1]⟩)
  | .gelatoSubmit _ _ => some (.ok "task")
  | .poll _ => some (.ok status)
  | o => others o

/-- All broadcasts but those from a place of this kind are answered. -/
def heldAt (kind : SubmitSite → Bool) : World → (o : Op) → Option o.Reply := World.serve fun
  | .submit rlp opts site => if kind site then none else calm (.submit rlp opts site)
  | o => calm o

end WalletKit.Toy
