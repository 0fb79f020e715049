import WalletKit.Core.Ports
import WalletKit.Machine.Hoare

/-!
# Verification rules of the port calls

One rule a call: calling a port owes what the specification asks at that operation, and
the rest of the program has to cope with every answer the specification allows.
-/
namespace WalletKit

open Machine

variable {W : Type} {σ : Spec ports W} {w : W}

/-- What a program is left with when it calls `o` and goes on as `Q` demands. -/
def Spec.Asks (σ : Spec ports W) (o : Op) (Q : o.Reply → W → Prop) (w : W) : Prop :=
  σ.owes w o ∧ ∀ r w', σ.step w o r w' → Q r w'

namespace Rpc

@[simp] theorem wp_pendingNonce {a : Address} {Q : Except RpcError Nat → W → Prop} :
    (pendingNonce a).wp σ Q w ↔ Spec.Asks σ (.pendingNonce a) Q w := Iff.rfl
@[simp] theorem wp_txCount {a : Address} {Q : Except RpcError Nat → W → Prop} :
    (txCount a).wp σ Q w ↔ Spec.Asks σ (.txCount a) Q w := Iff.rfl
@[simp] theorem wp_blockNumber {Q : Except RpcError Nat → W → Prop} :
    (blockNumber).wp σ Q w ↔ Spec.Asks σ .blockNumber Q w := Iff.rfl
@[simp] theorem wp_finalizedBlock {Q : Except RpcError (Option Nat) → W → Prop} :
    (finalizedBlock).wp σ Q w ↔ Spec.Asks σ .finalizedBlock Q w := Iff.rfl
@[simp] theorem wp_blockHash {n : Nat} {Q : Except RpcError (Option B256) → W → Prop} :
    (blockHash n).wp σ Q w ↔ Spec.Asks σ (.blockHash n) Q w := Iff.rfl
@[simp] theorem wp_estimateGas {t : TransactionRequest} {Q : Except RpcError Nat → W → Prop} :
    (estimateGas t).wp σ Q w ↔ Spec.Asks σ (.estimateGas t) Q w := Iff.rfl
@[simp] theorem wp_call {t : TransactionRequest} {Q : Except RpcError Simulated → W → Prop} :
    (call t).wp σ Q w ↔ Spec.Asks σ (.call t) Q w := Iff.rfl
@[simp] theorem wp_receipt {x : TxHash}
    {Q : Except RpcError (Option TransactionReceipt) → W → Prop} :
    (receipt x).wp σ Q w ↔ Spec.Asks σ (.receipt x) Q w := Iff.rfl

end Rpc

@[simp] theorem GasOracle.wp_estimate
    {Q : Except GasOracleError Eip1559Estimation → W → Prop} :
    (GasOracle.estimate).wp σ Q w ↔ Spec.Asks σ .gasEstimate Q w := Iff.rfl
@[simp] theorem GasOracle.wp_bump {f : Eip1559Estimation}
    {Q : Except GasOracleError Eip1559Estimation → W → Prop} :
    (GasOracle.bump f).wp σ Q w ↔ Spec.Asks σ (.gasBump f) Q w := Iff.rfl

@[simp] theorem PolicyEngine.wp_evaluate {i : PolicyId} {q : SigningRequest}
    {Q : Except PolicyEngineError Decision → W → Prop} :
    (PolicyEngine.evaluate i q).wp σ Q w ↔ Spec.Asks σ (.evaluate i q) Q w := Iff.rfl

@[simp] theorem Signer.wp_signTransaction {s : Address} {tx : TxEip1559} {ih : B256}
    {a : PolicyApproval} {now : Nat} {Q : Except SignerError Signature → W → Prop} :
    (Signer.signTransaction s tx ih a now).wp σ Q w ↔
      Spec.Asks σ (.signTransaction s tx ih a now) Q w := Iff.rfl
@[simp] theorem Signer.wp_signTypedData {s : Address} {td : TypedData} {a : PolicyApproval}
    {now : Nat} {Q : Except SignerError SignatureEnvelope → W → Prop} :
    (Signer.signTypedData s td a now).wp σ Q w ↔
      Spec.Asks σ (.signTypedData s td a now) Q w := Iff.rfl

@[simp] theorem Submission.wp_submit {rlp : Bytes} {opts : SubmissionOpts} {site : SubmitSite}
    {Q : Except SubmissionError TxHash → W → Prop} :
    (Submission.submit rlp opts site).wp σ Q w ↔ Spec.Asks σ (.submit rlp opts site) Q w :=
  Iff.rfl

namespace StateStore

@[simp] theorem wp_loadNonceState {s : NonceScope}
    {Q : Except StateStoreError (Versioned NonceState) → W → Prop} :
    (loadNonceState s).wp σ Q w ↔ Spec.Asks σ (.loadNonceState s) Q w := Iff.rfl
@[simp] theorem wp_casNonceState {s : NonceScope} {n : Nat} {v : NonceState} {f : FenceToken}
    {note : CasNote} {Q : Except StateStoreError Bool → W → Prop} :
    (casNonceState s n v f note).wp σ Q w ↔ Spec.Asks σ (.casNonceState s n v f note) Q w :=
  Iff.rfl
@[simp] theorem wp_putHandle {h : TxHandle} {site : PutSite}
    {Q : Except StateStoreError Unit → W → Prop} :
    (putHandle h site).wp σ Q w ↔ Spec.Asks σ (.putHandle h site) Q w := Iff.rfl
@[simp] theorem wp_pendingHandles {a : Address}
    {Q : Except StateStoreError (List TxHandle) → W → Prop} :
    (pendingHandles a).wp σ Q w ↔ Spec.Asks σ (.pendingHandles a) Q w := Iff.rfl
@[simp] theorem wp_handle {i : HandleId}
    {Q : Except StateStoreError (Option TxHandle) → W → Prop} :
    (handle i).wp σ Q w ↔ Spec.Asks σ (.handle i) Q w := Iff.rfl

end StateStore

@[simp] theorem Clock.wp_nowUnix {Q : Nat → W → Prop} :
    (Clock.nowUnix).wp σ Q w ↔ Spec.Asks σ .nowUnix Q w := Iff.rfl

@[simp] theorem Relay.wp_poll {t : TaskId} {Q : Except RelayError RelayStatus → W → Prop} :
    (Relay.poll t).wp σ Q w ↔ Spec.Asks σ (.poll t) Q w := Iff.rfl
@[simp] theorem Relay.wp_gelatoSubmit {c : GelatoCall} {s : SignatureEnvelope}
    {Q : Except RelayError TaskId → W → Prop} :
    (Relay.gelatoSubmit c s).wp σ Q w ↔ Spec.Asks σ (.gelatoSubmit c s) Q w := Iff.rfl

namespace ExecutorMemory

variable {x : ExecutorId} {i : HandleId}

@[simp] theorem wp_lastLatest {Q : Nat → W → Prop} :
    (lastLatest x).wp σ Q w ↔ Spec.Asks σ (.lastLatestLoad x) Q w := Iff.rfl
@[simp] theorem wp_storeLatest {n : Nat} {Q : Unit → W → Prop} :
    (storeLatest x n).wp σ Q w ↔ Spec.Asks σ (.lastLatestStore x n) Q w := Iff.rfl
@[simp] theorem wp_approval {Q : Option PolicyApproval → W → Prop} :
    (approval x i).wp σ Q w ↔ Spec.Asks σ (.approvalsGet x i) Q w := Iff.rfl
@[simp] theorem wp_insertApproval {a : PolicyApproval} {Q : Unit → W → Prop} :
    (insertApproval x i a).wp σ Q w ↔ Spec.Asks σ (.approvalsInsert x i a) Q w := Iff.rfl
@[simp] theorem wp_removeApproval {Q : Unit → W → Prop} :
    (removeApproval x i).wp σ Q w ↔ Spec.Asks σ (.approvalsRemove x i) Q w := Iff.rfl

end ExecutorMemory

end WalletKit
