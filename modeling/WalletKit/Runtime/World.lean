import WalletKit.Core.PortRules
import WalletKit.Machine.Pool
import WalletKit.Machine.Table

/-!
# The world behind the ports

`Store` is the in-memory state store, the behaviour every store backend is held to. A
`World` adds what lives in an executor's memory and a log of all calls with their answers.
`World.apply` says what a call does to the world and `World.can` which answers the store
and the memory may give: what they hold, or, for the store, an error that changed nothing.
The other ports may answer anything; each property says what it needs of them.
-/
namespace WalletKit

open Machine

abbrev PortEvent := Event ports

/-- A call through a port and its answer. -/
def ev (o : Op) (r : o.Reply) : PortEvent := ⟨o, r⟩

@[simp] theorem asks_history {owes : List PortEvent → Op → Prop} {o : Op}
    {Q : o.Reply → List PortEvent → Prop} {h : List PortEvent} :
    Spec.Asks (.history (E := ports) owes) o Q h ↔ owes h o ∧ ∀ r, Q r (h ++ [ev o r]) :=
  ⟨fun k => ⟨k.1, fun r => k.2 r _ rfl⟩, fun k => ⟨k.1, by rintro r _ rfl; exact k.2 r⟩⟩

/-- `InMemoryStateStore`. -/
structure Store where
  nonces : NonceScope → Option (Versioned NonceState × FenceToken)
  handles : Table TxHandle TxHandle.id

namespace Store

def empty : Store := ⟨fun _ => none, .empty⟩

def loadNonceState (s : Store) (scope : NonceScope) : Versioned NonceState :=
  ((s.nonces scope).map (·.1)).getD .absent

/-- Swap a scope's nonce state: fenced writers are refused, a stale version is reported. -/
def casNonceState (s : Store) (scope : NonceScope) (expectedVersion : Nat) (state : NonceState)
    (fence : FenceToken) : Except StateStoreError Bool × Store :=
  let current := (s.nonces scope).getD (.absent, .singleWriter)
  if fence < current.2 then (.error .fenced, s)
  else if current.1.version ≠ expectedVersion then (.ok false, s)
  else (.ok true, { s with
    nonces := Function.update s.nonces scope (some (⟨state, expectedVersion + 1⟩, fence)) })

def putHandle (s : Store) (h : TxHandle) : Store := { s with handles := s.handles.put h }

def pendingHandles (s : Store) (account : Address) : List TxHandle :=
  s.handles.rows.filter fun h => h.account = account && !h.status.isTerminal

def handle (s : Store) (id : HandleId) : Option TxHandle := s.handles.get id

/-- Some stored record is of this kind. -/
def has (s : Store) (kind : TxHandle → Bool) : Bool := s.handles.rows.any kind

theorem exists_of_has {s : Store} {kind : TxHandle → Bool} (h : s.has kind) :
    ∃ g, s.handle g.id = some g ∧ kind g := by
  obtain ⟨g, hg, hf⟩ := List.any_eq_true.mp h
  exact ⟨g, Table.mem_rows.mp hg, hf⟩

theorem has_of_stored {s : Store} {kind : TxHandle → Bool} {g : TxHandle}
    (hg : s.handle g.id = some g) (hk : kind g) : s.has kind :=
  List.any_eq_true.mpr ⟨g, Table.mem_rows.mpr hg, hk⟩

@[simp] theorem handle_putHandle_self (s : Store) (h : TxHandle) :
    (s.putHandle h).handle h.id = some h := Table.get_put_self _ _

theorem handle_putHandle (s : Store) (h : TxHandle) (id : HandleId) :
    (s.putHandle h).handle id = if id = h.id then some h else s.handle id :=
  Table.get_put _ _ _

theorem mem_pendingHandles {s : Store} {a : Address} {h : TxHandle} :
    h ∈ s.pendingHandles a ↔
      s.handle h.id = some h ∧ h.account = a ∧ h.status.isTerminal = false := by
  simp [pendingHandles, handle, Table.mem_rows]

@[simp] theorem loadNonceState_putHandle (s : Store) (h : TxHandle) (scope : NonceScope) :
    (s.putHandle h).loadNonceState scope = s.loadNonceState scope := rfl

theorem current_state (s : Store) (scope : NonceScope) :
    ((s.nonces scope).getD (.absent, .singleWriter)).1 = s.loadNonceState scope := by
  unfold loadNonceState
  cases s.nonces scope <;> rfl

/-- A swap that goes through found the version it expected and stores the new state. -/
theorem casNonceState_true {s : Store} {scope : NonceScope} {n : Nat} {v : NonceState}
    {f : FenceToken} (h : (s.casNonceState scope n v f).1 = .ok true) :
    (s.loadNonceState scope).version = n ∧
      ∀ t, (s.casNonceState scope n v f).2.loadNonceState t =
        if t = scope then ⟨v, n + 1⟩ else s.loadNonceState t := by
  unfold casNonceState at *
  simp only [current_state] at *
  split at h
  · cases h
  · split at h
    · cases h
    · rename_i hf hn
      refine ⟨by simpa using hn, fun t => ?_⟩
      rw [if_neg hf, if_neg hn]
      by_cases ht : t = scope
      · subst ht; simp [loadNonceState]
      · simp [loadNonceState, ht]

/-- A swap with the version that is there is not refused as stale. -/
theorem casNonceState_loaded {s : Store} {scope : NonceScope} {v : NonceState} {f : FenceToken}
    {b : Bool} (h : (s.casNonceState scope (s.loadNonceState scope).version v f).1 = .ok b) :
    b = true := by
  unfold casNonceState at h
  simp only [current_state, ne_eq, not_true, if_false] at h
  split at h
  · cases h
  · cases h
    rfl

/-- The token of the last swap on a scope. -/
def fence (s : Store) (scope : NonceScope) : FenceToken :=
  ((s.nonces scope).getD (.absent, .singleWriter)).2

/-- A swap with a token that is not older is answered by whether its version is the stored one. -/
theorem casNonceState_ok_iff {s : Store} {scope : NonceScope} {n : Nat} {v : NonceState}
    {f : FenceToken} {b : Bool} : (s.casNonceState scope n v f).1 = .ok b ↔
      s.fence scope ≤ f ∧ b = decide ((s.loadNonceState scope).version = n) := by
  unfold casNonceState fence
  simp only [current_state]
  split
  · rename_i hfence
    simp [Nat.not_le.mpr hfence]
  split
  · rename_i hfence hn
    simp [Nat.not_lt.mp hfence, hn, eq_comm]
  · rename_i hfence hn
    simp [Nat.not_lt.mp hfence, not_not.mp hn, eq_comm]

theorem fence_casNonceState {s : Store} {scope : NonceScope} {n : Nat} {v : NonceState}
    {f : FenceToken} (h : (s.casNonceState scope n v f).1 = .ok true) (t : NonceScope) :
    (s.casNonceState scope n v f).2.fence t = if t = scope then f else s.fence t := by
  unfold casNonceState at h ⊢
  dsimp only at h ⊢
  split at h
  · cases h
  · split at h
    · cases h
    · rename_i hfence hversion
      rw [if_neg hfence, if_neg hversion]
      by_cases ht : t = scope
      · simp [fence, ht]
      · simp [fence, ht]

theorem casNonceState_handles (s : Store) (scope : NonceScope) (n : Nat) (v : NonceState)
    (f : FenceToken) : (s.casNonceState scope n v f).2.handles = s.handles := by
  unfold casNonceState
  dsimp only
  split
  · rfl
  · split <;> rfl

end Store

structure World where
  store : Store
  lastLatest : ExecutorId → Nat
  approvals : ExecutorId → HandleId → Option PolicyApproval
  log : List PortEvent

namespace World

/-- A process that has just started on an empty store. -/
def initial : World := ⟨.empty, fun _ => 0, fun _ _ => none, []⟩

/-- What a call does to the store. -/
def storeAfter (s : Store) : PortEvent → Store
  | ⟨.casNonceState scope n v f _, r⟩ =>
    match (r : Except StateStoreError Bool) with
    | .ok true => (s.casNonceState scope n v f).2
    | _ => s
  | ⟨.putHandle h _, r⟩ =>
    match (r : Except StateStoreError Unit) with
    | .ok _ => s.putHandle h
    | .error _ => s
  | _ => s

def lastLatestAfter (m : ExecutorId → Nat) : PortEvent → ExecutorId → Nat
  | ⟨.lastLatestStore x n, _⟩ => Function.update m x n
  | _ => m

def approvalsAfter (m : ExecutorId → HandleId → Option PolicyApproval) :
    PortEvent → ExecutorId → HandleId → Option PolicyApproval
  | ⟨.approvalsInsert x i a, _⟩ => Function.update m x (Function.update (m x) i (some a))
  | ⟨.approvalsRemove x i, _⟩ => Function.update m x (Function.update (m x) i none)
  | _ => m

def apply (w : World) (e : PortEvent) : World where
  store := storeAfter w.store e
  lastLatest := lastLatestAfter w.lastLatest e
  approvals := approvalsAfter w.approvals e
  log := w.log ++ [e]

@[simp] theorem apply_log (w : World) (e : PortEvent) : (w.apply e).log = w.log ++ [e] := rfl

/-- The answers the store and an executor's memory can give. -/
def can (w : World) : PortEvent → Bool
  | ⟨.loadNonceState scope, r⟩ =>
    match (r : Except StateStoreError (Versioned NonceState)) with
    | .ok v => v = w.store.loadNonceState scope
    | .error _ => true
  | ⟨.casNonceState scope n v f _, r⟩ =>
    match (r : Except StateStoreError Bool) with
    | .ok b => (w.store.casNonceState scope n v f).1 = .ok b
    | .error _ => true
  | ⟨.pendingHandles a, r⟩ =>
    match (r : Except StateStoreError (List TxHandle)) with
    | .ok hs => hs.Perm (w.store.pendingHandles a)
    | .error _ => true
  | ⟨.handle i, r⟩ =>
    match (r : Except StateStoreError (Option TxHandle)) with
    | .ok found => found = w.store.handle i
    | .error _ => true
  | ⟨.lastLatestLoad x, r⟩ => (r : Nat) = w.lastLatest x
  | ⟨.approvalsGet x i, r⟩ => (r : Option PolicyApproval) = w.approvals x i
  | _ => true

/-- The answers of a store and a memory that always work; the other ports answer as told. -/
def serve (others : (o : Op) → Option o.Reply) (w : World) : (o : Op) → Option o.Reply
  | .loadNonceState scope => some (.ok (w.store.loadNonceState scope))
  | .casNonceState scope n v f _ => some (w.store.casNonceState scope n v f).1
  | .putHandle _ _ => some (.ok ())
  | .pendingHandles a => some (.ok (w.store.pendingHandles a))
  | .handle i => some (.ok (w.store.handle i))
  | .lastLatestLoad x => some (w.lastLatest x)
  | .lastLatestStore _ _ => some ()
  | .approvalsGet x i => some (w.approvals x i)
  | .approvalsInsert _ _ _ => some ()
  | .approvalsRemove _ _ => some ()
  | o => others o

/-- Which calls the store answers without an error. -/
def working : PortEvent → Bool
  | ⟨.loadNonceState _, r⟩ => (r : Except StateStoreError (Versioned NonceState)).isOk
  | ⟨.casNonceState _ _ _ _ _, r⟩ => (r : Except StateStoreError Bool).isOk
  | ⟨.putHandle _ _, r⟩ => (r : Except StateStoreError Unit).isOk
  | ⟨.pendingHandles _, r⟩ => (r : Except StateStoreError (List TxHandle)).isOk
  | ⟨.handle _, r⟩ => (r : Except StateStoreError (Option TxHandle)).isOk
  | _ => true

end World

end WalletKit
