import WalletKit.Core.Ports

/-!
# The nonce manager

`LocalNonceManager` is a load, compute, compare-and-swap loop over the store; the three
computations are the functions of `NonceState` below. Each round of a loop is one load,
for the first use of an account one chain read, and one swap. A loop is cut off after
`attempts` rounds; nothing depends on how many those are.

Nonces are natural numbers here. The source's are `u64`, and its `next += 1` panics or wraps where
an allocation takes `2 ^ 64 - 1`, so what is shown of allocations is about nonces below that.
-/
namespace WalletKit

open Machine

namespace NonceState

/-- Recycle the lowest freed nonce, else take a fresh one. -/
def allocate (s : NonceState) : Nat × NonceState :=
  if h : s.free.Nonempty then (s.free.min' h, { s with free := s.free.erase (s.free.min' h) })
  else (s.next, { s with next := s.next + 1 })

/-- Absorb the freed nonces that are now contiguous with the top. -/
def absorb : Nat → Finset Nat → NonceState
  | 0, free => ⟨0, free⟩
  | k + 1, free => if k ∈ free then absorb k (free.erase k) else ⟨k + 1, free⟩

/-- Give a nonce back; `none` when it is not a live reservation. -/
def release (s : NonceState) (nonce : Nat) : Option NonceState :=
  if s.next ≤ nonce then none
  else if nonce + 1 = s.next then some (absorb (s.next - 1) s.free)
  else some { s with free := insert nonce s.free }

/-- Move forward to the chain's next nonce. -/
def reset (s : NonceState) (chainNext : Nat) : NonceState :=
  ⟨max s.next chainNext, s.free.filter (chainNext ≤ ·)⟩

end NonceState

/-- A manager: the fence it carries on every swap, and the bound on its rounds. -/
structure LocalNonceManager where
  fence : FenceToken
  attempts : Nat

namespace LocalNonceManager

/-- As `LocalNonceManager::new` builds it. -/
def new (attempts : Nat) : LocalNonceManager := ⟨.singleWriter, attempts⟩

def cas (m : LocalNonceManager) (scope : NonceScope) (version : Nat) (value : NonceState)
    (note : CasNote) : ExceptT NonceManagerError Io Bool :=
  (StateStore.casNonceState scope version value m.fence note).orThrow .store

def load (scope : NonceScope) : ExceptT NonceManagerError Io (Versioned NonceState) :=
  (StateStore.loadNonceState scope).orThrow .store

/-- The pending nonce, read only on the first use of an account. -/
def firstUse (account : Address) (version : Nat) : ExceptT NonceManagerError Io (Option Nat) :=
  if version = 0 then do
    let pending ← (Rpc.pendingNonce account).orThrow .rpc
    return some pending
  else pure none

/-- The state an allocation starts from: reconciled with the chain on first use. -/
def reconciled (value : NonceState) : Option Nat → NonceState
  | some pending => { value with next := pending }
  | none => value

def allocateLoop (m : LocalNonceManager) (account : Address) :
    Nat → ExceptT NonceManagerError Io Nat
  | 0 => ExceptT.mk .halt
  | rounds + 1 => do
    let loaded ← load ⟨account⟩
    let first ← firstUse account loaded.version
    let (nonce, value) := (reconciled loaded.value first).allocate
    if ← m.cas ⟨account⟩ loaded.version value (.allocate nonce first) then
      return nonce
    m.allocateLoop account rounds

def releaseLoop (m : LocalNonceManager) (account : Address) (nonce : Nat) :
    Nat → ExceptT NonceManagerError Io Unit
  | 0 => ExceptT.mk .halt
  | rounds + 1 => do
    let loaded ← load ⟨account⟩
    match loaded.value.release nonce with
    | none => return ()
    | some value =>
      if ← m.cas ⟨account⟩ loaded.version value (.release nonce) then
        return ()
      m.releaseLoop account nonce rounds

def resetLoop (m : LocalNonceManager) (account : Address) (chainNext : Nat) :
    Nat → ExceptT NonceManagerError Io Unit
  | 0 => ExceptT.mk .halt
  | rounds + 1 => do
    let loaded ← load ⟨account⟩
    if ← m.cas ⟨account⟩ loaded.version (loaded.value.reset chainNext) (.reset chainNext) then
      return ()
    m.resetLoop account chainNext rounds

/-- Reserve the next nonce for `account`. -/
def allocate (m : LocalNonceManager) (account : Address) : ExceptT NonceManagerError Io Nat :=
  m.allocateLoop account m.attempts

/-- Recycle a reserved nonce whose transaction will never mine. -/
def release (m : LocalNonceManager) (account : Address) (nonce : Nat) :
    ExceptT NonceManagerError Io Unit := m.releaseLoop account nonce m.attempts

/-- Reconcile the counter forward to the chain's next nonce. -/
def reset (m : LocalNonceManager) (account : Address) (chainNext : Nat) :
    ExceptT NonceManagerError Io Unit := m.resetLoop account chainNext m.attempts

end LocalNonceManager

end WalletKit
