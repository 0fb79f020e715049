import WalletKit.Core.Facade

/-!
# The error taxonomy

Every error of a wallet has a kind, which a caller branches on. The kind follows from the cause:
a transport failure passes its own verdict on, a store failure that may go away can be retried, and
an error that says the node has the transaction already is to be reconciled. Errors of reads, name
lookups and accounts are left out.
-/
namespace WalletKit

/-- Machine-readable retry classification. -/
inductive ErrorKind where
  | retryable
  | terminal
  | needsReconcile
  deriving DecidableEq, Repr

def rpcKind : RpcError → ErrorKind
  | .call _ true => .retryable
  | .call _ false => .terminal

def submissionKind (e : SubmissionError) : ErrorKind :=
  if e.isAlreadyAccepted then .needsReconcile
  else if e.isTransient || e.isUnderpriced then .retryable
  else .terminal

/-- A configuration error or a refusal is terminal. -/
def relayKind : RelayError → ErrorKind
  | .rpc e => rpcKind e
  | .submission e => submissionKind e
  | .signing _ | .rejected _ | .forwarder _ | .notConfigured => .terminal

def storeKind : StateStoreError → ErrorKind
  | .backend _ | .task _ => .retryable
  | .serialization _ | .fenced => .terminal

/-- The retry classification a caller should branch on. -/
def WalletKitError.kind : WalletKitError → ErrorKind
  | .rpc e | .gas (.rpc e) | .nonce (.rpc e) => rpcKind e
  | .gas (.ceilingExceeded _ _) => .terminal
  | .nonce (.store e) | .store e => storeKind e
  | .submission e => submissionKind e
  | .relay e => relayKind e
  | .signer _ | .policy _ | .policyEngine _ | .simulation _ | .accountMismatch _ _ | .cancel _
  | .route _ => .terminal

theorem rpcKind_ne (e : RpcError) : rpcKind e ≠ .needsReconcile := by
  obtain ⟨message, _ | _⟩ := e <;> simp [rpcKind]

theorem storeKind_ne (e : StateStoreError) : storeKind e ≠ .needsReconcile := by
  cases e <;> simp [storeKind]

theorem submissionKind_eq_needsReconcile {e : SubmissionError} :
    submissionKind e = .needsReconcile ↔ e.isAlreadyAccepted := by
  unfold submissionKind
  split
  · simp [*]
  · split <;> simp [*]

theorem relayKind_eq_needsReconcile {e : RelayError} :
    relayKind e = .needsReconcile ↔ ∃ s, e = .submission s ∧ s.isAlreadyAccepted := by
  cases e with
  | rpc e => simpa [relayKind] using rpcKind_ne e
  | submission e => simp [relayKind, submissionKind_eq_needsReconcile]
  | _ => simp [relayKind]

/-- Only an already accepted submission needs to be reconciled. -/
theorem WalletKitError.kind_eq_needsReconcile {e : WalletKitError} :
    e.kind = .needsReconcile ↔
      ∃ s, (e = .submission s ∨ e = .relay (.submission s)) ∧ s.isAlreadyAccepted := by
  cases e with
  | rpc e => simpa [kind] using rpcKind_ne e
  | gas e =>
    cases e with
    | rpc e => simpa [kind] using rpcKind_ne e
    | ceilingExceeded => simp [kind]
  | nonce e =>
    cases e with
    | rpc e => simpa [kind] using rpcKind_ne e
    | store e => simpa [kind] using storeKind_ne e
  | store e => simpa [kind] using storeKind_ne e
  | submission e => simp [kind, submissionKind_eq_needsReconcile]
  | relay e => simp [kind, relayKind_eq_needsReconcile]
  | _ => simp [kind]

end WalletKit
