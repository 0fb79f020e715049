import Mathlib.Data.String.Basic
import WalletKit.Adapters.Serde
import WalletKit.Machine.Mealy
import WalletKit.Runtime.World

/-!
# The store backends

The calls of a state store with the arguments their types allow, and the three backends as
machines that answer them: the in-memory store, redb (one key-value table a kind of record and
an index of the live records) and Postgres (rows with `i64` columns and `JSONB` documents).
Transactions are atomic. Text is read back as it was written, so redb keeps documents. Integer
arithmetic is checked: an overflow panics.
-/
namespace WalletKit

open Machine

abbrev U64 := { n : Nat // n < 2 ^ 64 }

/-- The calls of `StateStore`. -/
inductive StoreCall where
  | loadNonceState (scope : NonceScope)
  | casNonceState (scope : NonceScope) (expectedVersion : U64)
      (state : { s : NonceState // s.Typed }) (fence : U64)
  | putHandle (h : { h : TxHandle // h.Typed })
  | pendingHandles (account : Address)
  | handle (id : HandleId)

inductive StoreReply where
  | loaded (r : Except StateStoreError (Versioned NonceState))
  | swapped (r : Except StateStoreError Bool)
  | written (r : Except StateStoreError Unit)
  | listed (r : Except StateStoreError (List TxHandle))
  | found (r : Except StateStoreError (Option TxHandle))
  | panicked

/-- What a reply says: of a listing, everything but its order. -/
def StoreReply.content : StoreReply → StoreReply ⊕ Multiset TxHandle
  | .listed (.ok hs) => .inr hs
  | r => .inl r

def StoreReply.Same (r r' : StoreReply) : Prop := r.content = r'.content

/-- `format!("{account:x}")`. -/
def accountKey (account : Address) : String := String.ofList (Json.hex (beBytes 20 account.toNat))

/-- `HandleId::as_bytes`. -/
def HandleId.asBytes (id : HandleId) : Bytes := beBytes 32 id.toNat

theorem accountKey_inj {a b : Address} : accountKey a = accountKey b ↔ a = b := by
  rw [accountKey, accountKey, String.ofList_inj, Serde.hex_inj]
  exact @Serde.beBytes_toNat_inj 20 a b

theorem HandleId.asBytes_inj {i j : HandleId} : HandleId.asBytes i = HandleId.asBytes j ↔ i = j :=
  @Serde.beBytes_toNat_inj 32 i j

section Memory

/-- `InMemoryStateStore`, with the overflow of `expected_version + 1` in a build that checks for it;
one that does not goes on with version 0. -/
def Store.answer (s : Store) : StoreCall → StoreReply × Store
  | .loadNonceState scope => (.loaded (.ok (s.loadNonceState scope)), s)
  | .casNonceState scope expectedVersion state fence =>
    let (swapped, s') := s.casNonceState scope expectedVersion state fence
    if swapped = .ok true ∧ expectedVersion.val + 1 = 2 ^ 64 then (.panicked, s)
    else (.swapped swapped, s')
  | .putHandle h => (.written (.ok ()), s.putHandle h)
  | .pendingHandles account => (.listed (.ok (s.pendingHandles account)), s)
  | .handle id => (.found (.ok (s.handle id)), s)

def inMemory : Mealy StoreCall StoreReply := ⟨Store, .empty, Store.answer⟩

end Memory

/-- A document that was stored reads as a value, or the reader reports it. -/
def fromDocument {α : Type} (c : Codec α) (d : Document) : Except StateStoreError α :=
  match c.decode d with
  | some a => .ok a
  | none => .error (.serialization "invalid document")

@[simp] theorem fromDocument_encode {α : Type} (c : Codec α) (a : α) :
    fromDocument c (c.encode a) = .ok a := by
  simp [fromDocument]

section Redb

/-- What the table of nonce states holds: version, fence and state. -/
def nonceEntry : Codec (Nat × FenceToken × NonceState) where
  encode e := .arr [Codec.nat.encode e.1, Codec.nat.encode e.2.1, Serde.nonceState.encode e.2.2]
  decode
    | .arr [version, fence, state] => do
      return (← Codec.nat.decode version, ← Codec.nat.decode fence, ← Serde.nonceState.decode state)
    | _ => none
  decode_encode e := by simp

structure RedbStateStore where
  nonce : String → Option Document
  tx : Bytes → Option Document
  /-- The index of non-terminal records, keyed by account and id. -/
  txPending : Table (String × Bytes) fun k => k

namespace RedbStateStore

def empty : RedbStateStore := ⟨fun _ => none, fun _ => none, .empty⟩

def loadNonceState (s : RedbStateStore) (scope : NonceScope) :
    Except StateStoreError (Versioned NonceState) :=
  match s.nonce (accountKey scope.account) with
  | some d => do
    let (version, _, value) ← fromDocument nonceEntry d
    return ⟨value, version⟩
  | none => .ok .absent

/-- In a build that checks, an overflow panics in the blocking task, which its caller sees as a
failed task; one that does not check goes on with version 0. -/
def casNonceState (s : RedbStateStore) (scope : NonceScope) (expectedVersion : U64)
    (state : NonceState) (fence : U64) : Except StateStoreError Bool × RedbStateStore :=
  let key := accountKey scope.account
  let current : Except StateStoreError (Nat × FenceToken × NonceState) :=
    match s.nonce key with
    | some d => fromDocument nonceEntry d
    | none => .ok (0, .singleWriter, ⟨0, ∅⟩)
  match current with
  | .error e => (.error e, s)
  | .ok (curVersion, curFence, _) =>
    if fence.val < curFence then (.error .fenced, s)
    else if curVersion ≠ expectedVersion then (.ok false, s)
    else if expectedVersion.val + 1 = 2 ^ 64 then (.error (.task "panicked"), s)
    else (.ok true, { s with
      nonce := Function.update s.nonce key
        (some (nonceEntry.encode (expectedVersion + 1, fence.val, state))) })

def putHandle (s : RedbStateStore) (h : TxHandle) : RedbStateStore :=
  let id := HandleId.asBytes h.id
  let k := (accountKey h.account, id)
  { s with
    tx := Function.update s.tx id (some (Serde.txHandle.encode h))
    txPending := if h.status.isTerminal then s.txPending.remove k else s.txPending.put k }

/-- How redb compares the keys of the index: by account, then byte by byte. -/
def keyRank (k : String × Bytes) : String ×ₗ List Nat := toLex (k.1, k.2.map UInt8.toNat)

def idLo : Bytes := List.replicate 32 0
def idHi : Bytes := List.replicate 32 0xff

/-- The ids that the scan from `ID_LO` to `ID_HI` under an account meets, in its order. -/
def idsInRange (s : RedbStateStore) (account : Address) : List Bytes :=
  (s.txPending.range keyRank (accountKey account, idLo) (accountKey account, idHi)).map (·.2)

def pendingHandles (s : RedbStateStore) (account : Address) :
    Except StateStoreError (List TxHandle) :=
  ((s.idsInRange account).filterMap s.tx).mapM (fromDocument Serde.txHandle)

def handle (s : RedbStateStore) (id : HandleId) : Except StateStoreError (Option TxHandle) :=
  match s.tx (HandleId.asBytes id) with
  | some d => some <$> fromDocument Serde.txHandle d
  | none => .ok none

theorem idLo_le (id : HandleId) : idLo.map UInt8.toNat ≤ (HandleId.asBytes id).map UInt8.toNat := by
  have hlo : idLo.map UInt8.toNat =
      List.replicate ((HandleId.asBytes id).map UInt8.toNat).length 0 := by
    simp [idLo, HandleId.asBytes]
  rw [hlo]
  exact replicate_le fun _ _ => Nat.zero_le _

theorem le_idHi (id : HandleId) : (HandleId.asBytes id).map UInt8.toNat ≤ idHi.map UInt8.toNat := by
  have hhi : idHi.map UInt8.toNat =
      List.replicate ((HandleId.asBytes id).map UInt8.toNat).length 255 := by
    simp [idHi, HandleId.asBytes]
  rw [hhi]
  refine le_replicate fun x hx => ?_
  obtain ⟨b, -, rfl⟩ := List.mem_map.mp hx
  have := b.toNat_lt
  omega

/-- The range of an account takes in the keys under it, whatever the id. -/
theorem inRange_iff (account a : Address) (id : HandleId) :
    keyRank (accountKey account, idLo) ≤ keyRank (accountKey a, HandleId.asBytes id) ∧
        keyRank (accountKey a, HandleId.asBytes id) ≤ keyRank (accountKey account, idHi) ↔
      a = account := by
  rw [keyRank, keyRank, keyRank, lex_between, accountKey_inj]
  exact and_iff_left ⟨idLo_le id, le_idHi id⟩

def answer (s : RedbStateStore) : StoreCall → StoreReply × RedbStateStore
  | .loadNonceState scope => (.loaded (s.loadNonceState scope), s)
  | .casNonceState scope expectedVersion state fence =>
    let (swapped, s') := s.casNonceState scope expectedVersion state fence
    (.swapped swapped, s')
  | .putHandle h => (.written (.ok ()), s.putHandle h)
  | .pendingHandles account => (.listed (s.pendingHandles account), s)
  | .handle id => (.found (s.handle id), s)

end RedbStateStore

def redb : Mealy StoreCall StoreReply := ⟨RedbStateStore, .empty, RedbStateStore.answer⟩

end Redb

section Postgres

/-- `n as i64`. -/
def asI64 (n : Nat) : Int := if n < 2 ^ 63 then n else n - 2 ^ 64

/-- `i as u64`. -/
def asU64 (i : Int) : Nat := (if 0 ≤ i then i else i + 2 ^ 64).toNat

/-- `serde_json::to_value`: integers above `u64::MAX` are rejected. -/
def toValue (d : Document) : Except StateStoreError Document :=
  if d.all Serde.fits then .ok d else .error (.serialization "number out of range")

/-- Binding a document to a `JSONB` column. -/
def toJsonb (d : Document) : Except StateStoreError Document :=
  if d.all Serde.storable then .ok d
  else .error (.backend "unsupported Unicode escape sequence")

structure NonceRow where
  version : Int
  fence : Int
  state : Document

structure HandleRow where
  id : Bytes
  account : String
  terminal : Bool
  handle : Document

structure PostgresStateStore where
  nonceState : String → Option NonceRow
  txHandles : Table HandleRow HandleRow.id

namespace PostgresStateStore

def empty : PostgresStateStore := ⟨fun _ => none, .empty⟩

def loadNonceState (s : PostgresStateStore) (scope : NonceScope) :
    Except StateStoreError (Versioned NonceState) :=
  match s.nonceState (accountKey scope.account) with
  | some r => do
    let value ← fromDocument Serde.nonceState r.state
    return ⟨value, asU64 r.version⟩
  | none => .ok .absent

/-- The version and the fence in the row of an account. -/
def current (s : PostgresStateStore) (account : String) : Int × Int :=
  match s.nonceState account with
  | some r => (r.version, r.fence)
  | none => (0, asI64 FenceToken.singleWriter)

/-- The overflow of `expected_version as i64 + 1` panics; the transaction is rolled back. -/
def casNonceState (s : PostgresStateStore) (scope : NonceScope) (expectedVersion : U64)
    (state : NonceState) (fence : U64) : StoreReply × PostgresStateStore :=
  let account := accountKey scope.account
  let fenceI := asI64 fence
  let (curVersion, curFence) := s.current account
  if fenceI < curFence then (.swapped (.error .fenced), s)
  else if curVersion ≠ asI64 expectedVersion then (.swapped (.ok false), s)
  else
    match toValue (Serde.nonceState.encode state) with
    | .error e => (.swapped (.error e), s)
    | .ok json =>
      if asI64 expectedVersion + 1 = 2 ^ 63 then (.panicked, s)
      else
        match toJsonb json with
        | .error e => (.swapped (.error e), s)
        | .ok json => (.swapped (.ok true), { s with
            nonceState := Function.update s.nonceState account
              (some ⟨asI64 expectedVersion + 1, fenceI, json⟩) })

def putHandle (s : PostgresStateStore) (h : TxHandle) :
    Except StateStoreError Unit × PostgresStateStore :=
  match toValue (Serde.txHandle.encode h) >>= toJsonb with
  | .error e => (.error e, s)
  | .ok json => (.ok (), { s with
      txHandles := s.txHandles.put
        ⟨HandleId.asBytes h.id, accountKey h.account, h.status.isTerminal, json⟩ })

def pendingHandles (s : PostgresStateStore) (account : Address) :
    Except StateStoreError (List TxHandle) :=
  (s.txHandles.rows.filter fun r => r.account = accountKey account && !r.terminal).mapM
    fun r => fromDocument Serde.txHandle r.handle

def handle (s : PostgresStateStore) (id : HandleId) : Except StateStoreError (Option TxHandle) :=
  match s.txHandles.get (HandleId.asBytes id) with
  | some r => some <$> fromDocument Serde.txHandle r.handle
  | none => .ok none

def answer (s : PostgresStateStore) : StoreCall → StoreReply × PostgresStateStore
  | .loadNonceState scope => (.loaded (s.loadNonceState scope), s)
  | .casNonceState scope expectedVersion state fence =>
    s.casNonceState scope expectedVersion state fence
  | .putHandle h =>
    let (written, s') := s.putHandle h
    (.written written, s')
  | .pendingHandles account => (.listed (s.pendingHandles account), s)
  | .handle id => (.found (s.handle id), s)

end PostgresStateStore

def postgres : Mealy StoreCall StoreReply :=
  ⟨PostgresStateStore, .empty, PostgresStateStore.answer⟩

end Postgres

end WalletKit
