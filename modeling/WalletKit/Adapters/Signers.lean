import WalletKit.Core.Ports

/-!
# The local signer

`LocalSigner` holds a key and signs only what an approval binds. What the key itself does
with a hash is `signHashLowS`; the gate in front of it is modelled.
-/
namespace WalletKit

structure LocalSigner where
  address : Address
  signHashLowS : B256 → Except SignerError Signature

namespace LocalSigner

/-- The gate shared by every signing method: the approval must bind this payload and not be
expired. -/
def gate (approval : PolicyApproval) (payloadHash : B256) (now : Nat) : Except SignerError Unit :=
  if approval.authorizes payloadHash = false then .error .approvalMismatch
  else if approval.validUntil < now then .error .approvalExpired
  else .ok ()

variable [Alloy]

/-- A transaction must also be priced within the approved envelope. -/
def signTransaction (s : LocalSigner) (tx : TxEip1559) (intentHash : B256)
    (approval : PolicyApproval) (now : Nat) : Except SignerError Signature := do
  gate approval intentHash now
  if approval.gasEnvelope.admits tx.maxFeePerGas tx.maxPriorityFeePerGas = false then
    .error .feesExceedApproval
  else s.signHashLowS (Alloy.signatureHash tx)

def signTypedData (s : LocalSigner) (td : TypedData) (approval : PolicyApproval) (now : Nat) :
    Except SignerError SignatureEnvelope := do
  let hash ← (typedDataHash td).mapError .payload
  gate approval hash now
  return ⟨s.address, ← s.signHashLowS hash⟩

omit [Alloy] in
theorem gate_ok {approval : PolicyApproval} {payloadHash : B256} {now : Nat} {u : Unit}
    (h : gate approval payloadHash now = .ok u) :
    approval.payloadHash = payloadHash ∧ now ≤ approval.validUntil := by
  unfold gate at h
  split at h
  · cases h
  · split at h
    · cases h
    · rename_i hauth hexp
      exact ⟨by simpa [PolicyApproval.authorizes] using hauth, not_lt.mp hexp⟩

/-- A signature under an approval is one the approval binds, in time and in price. -/
theorem signTransaction_ok {s : LocalSigner} {tx : TxEip1559} {intentHash : B256}
    {approval : PolicyApproval} {now : Nat} {signature : Signature}
    (h : s.signTransaction tx intentHash approval now = .ok signature) :
    approval.payloadHash = intentHash ∧ now ≤ approval.validUntil ∧
      approval.gasEnvelope.admits tx.maxFeePerGas tx.maxPriorityFeePerGas := by
  unfold signTransaction at h
  cases hg : gate approval intentHash now with
  | error e => rw [hg] at h; cases h
  | ok u =>
    obtain ⟨hbind, htime⟩ := gate_ok hg
    refine ⟨hbind, htime, ?_⟩
    by_contra hfees
    rw [hg] at h
    simp [bind, Except.bind, hfees] at h

end LocalSigner

end WalletKit
