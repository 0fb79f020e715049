import Mathlib
import WalletKit.Adapters.Stores

/-!
# The backends agree

`Journal` is what a store is for: it remembers the swaps that went through and the records that
were written, and answers from them. A swap goes through exactly when the version it expects is
the number of swaps so far and its fence is not below any committed one; a record is read back
as it was last written.

The in-memory store follows the journal. Redb and Postgres do on calls within their encodings:
Postgres compares fences and counts versions as `i64`, writes gas caps through a serializer of
64-bit integers and texts into `JSONB`, and redb's index forgets that a record moved to another
account. Each backend answers as the journal on a sequence of calls iff every call of it is
within the encoding.
-/
namespace WalletKit

open Machine

/-- The swaps of a scope that went through and the records written, the latest first. The
fences of a scope never fall. -/
structure Journal where
  swaps : NonceScope → List (NonceState × FenceToken)
  puts : List TxHandle
  ordered (scope : NonceScope) : (swaps scope).Pairwise fun newer older => older.2 ≤ newer.2

namespace Journal

def empty : Journal := ⟨fun _ => [], [], fun _ => .nil⟩

/-- The highest fence a swap was committed with. -/
def highest (l : Journal) (scope : NonceScope) : FenceToken :=
  ((l.swaps scope).map (·.2)).foldr max 0

def current (l : Journal) (scope : NonceScope) : Versioned NonceState :=
  ⟨((l.swaps scope).head?.map (·.1)).getD ⟨0, ∅⟩, (l.swaps scope).length⟩

def latest (l : Journal) (id : HandleId) : Option TxHandle := l.puts.find? (·.id = id)

/-- The latest record of an id among those written under an account. -/
def latestUnder (l : Journal) (account : Address) (id : HandleId) : Option TxHandle :=
  l.puts.find? fun h => h.account = account ∧ h.id = id

def pending (l : Journal) (account : Address) : List TxHandle :=
  (l.puts.filter fun h =>
    l.latest h.id = some h ∧ h.account = account ∧ h.status.isTerminal = false).dedup

theorem le_highest {l : Journal} {scope : NonceScope} {e : NonceState × FenceToken}
    (h : e ∈ l.swaps scope) : e.2 ≤ l.highest scope := by
  unfold highest
  revert h
  induction l.swaps scope with
  | nil => exact fun h => absurd h List.not_mem_nil
  | cons x xs ih =>
    intro h
    rcases List.mem_cons.mp h with rfl | h
    · exact le_max_left _ _
    · exact (ih h).trans (le_max_right _ _)

def commit (l : Journal) (scope : NonceScope) (state : NonceState) (fence : FenceToken)
    (h : l.highest scope ≤ fence) : Journal where
  swaps := Function.update l.swaps scope ((state, fence) :: l.swaps scope)
  puts := l.puts
  ordered t := by
    by_cases ht : t = scope
    · subst ht
      rw [Function.update_self]
      exact List.pairwise_cons.mpr ⟨fun _ he => (le_highest he).trans h, l.ordered t⟩
    · rw [Function.update_of_ne ht]
      exact l.ordered t

def answer (l : Journal) : StoreCall → StoreReply × Journal
  | .loadNonceState scope => (.loaded (.ok (l.current scope)), l)
  | .casNonceState scope expectedVersion state fence =>
    if h : fence.val < l.highest scope then (.swapped (.error .fenced), l)
    else if (l.swaps scope).length ≠ expectedVersion then (.swapped (.ok false), l)
    else (.swapped (.ok true), l.commit scope state fence (not_lt.mp h))
  | .putHandle h => (.written (.ok ()), { l with puts := h :: l.puts })
  | .pendingHandles account => (.listed (.ok (l.pending account)), l)
  | .handle id => (.found (.ok (l.latest id)), l)

end Journal

def journal : Mealy StoreCall StoreReply := ⟨Journal, .empty, Journal.answer⟩

section Facts

variable {l : Journal} {scope : NonceScope} {id : HandleId} {account : Address} {h g : TxHandle}

namespace Journal

/-- What a backend keeps of a scope: the version, the last fence and the last state. -/
def lastSwap (l : Journal) (scope : NonceScope) : Option (Nat × FenceToken × NonceState) :=
  match l.swaps scope with
  | [] => none
  | (state, fence) :: older => some (older.length + 1, fence, state)

def entry (l : Journal) (scope : NonceScope) : Nat × FenceToken × NonceState :=
  (l.lastSwap scope).getD (0, .singleWriter, ⟨0, ∅⟩)

theorem length_swaps : (l.swaps scope).length = (l.entry scope).1 := by
  unfold entry lastSwap
  cases l.swaps scope <;> rfl

theorem current_eq : l.current scope = ⟨(l.entry scope).2.2, (l.entry scope).1⟩ := by
  unfold current entry lastSwap
  cases l.swaps scope <;> rfl

/-- The last committed fence is the highest. -/
theorem highest_eq : l.highest scope = (l.entry scope).2.1 := by
  have hordered := l.ordered scope
  unfold highest entry lastSwap
  cases hs : l.swaps scope with
  | nil => rfl
  | cons e older =>
    rw [hs] at hordered
    have hle : ∀ older : List (NonceState × FenceToken), (∀ x ∈ older, x.2 ≤ e.2) →
        (older.map (·.2)).foldr max 0 ≤ e.2 := by
      intro older
      induction older with
      | nil => simp
      | cons x xs ih =>
        intro hx
        exact max_le (hx x List.mem_cons_self) (ih fun y hy => hx y (List.mem_cons_of_mem _ hy))
    exact max_eq_left (hle older (List.pairwise_cons.mp hordered).1)

theorem lastSwap_commit {state : NonceState} {fence : FenceToken} {hf : l.highest scope ≤ fence}
    (t : NonceScope) :
    (l.commit scope state fence hf).lastSwap t =
      if t = scope then some ((l.entry scope).1 + 1, fence, state) else l.lastSwap t := by
  by_cases ht : t = scope
  · subst ht
    simp [lastSwap, commit, ← length_swaps]
  · simp [lastSwap, commit, ht]

theorem latest_put (t : HandleId) :
    ({ l with puts := h :: l.puts } : Journal).latest t =
      if h.id = t then some h else l.latest t := by
  by_cases ht : h.id = t <;> simp [latest, ht]

theorem latestUnder_put (a : Address) (t : HandleId) :
    ({ l with puts := h :: l.puts } : Journal).latestUnder a t =
      if h.account = a ∧ h.id = t then some h else l.latestUnder a t := by
  by_cases ht : h.account = a ∧ h.id = t <;> simp [latestUnder, ht]

theorem id_of_latest (hl : l.latest id = some h) : h.id = id := by
  simpa using List.find?_some hl

theorem under_of_latestUnder (hl : l.latestUnder account id = some h) :
    h.account = account ∧ h.id = id := by
  simpa using List.find?_some hl

theorem exists_latest (hl : l.latestUnder account id = some h) : ∃ g, l.latest id = some g := by
  have hid := (under_of_latestUnder hl).2
  exact Option.isSome_iff_exists.mp
    (List.find?_isSome.mpr ⟨h, List.mem_of_find?_eq_some hl, by simpa using hid⟩)

theorem latestUnder_of_latest (hl : l.latest id = some h) :
    l.latestUnder h.account id = some h := by
  obtain ⟨hid, newer, older, hputs, hnewer⟩ := List.find?_eq_some_iff_append.mp hl
  refine List.find?_eq_some_iff_append.mpr ⟨by simpa using hid, newer, older, hputs, ?_⟩
  intro x hx
  have := hnewer x hx
  simp_all

theorem mem_pending :
    h ∈ l.pending account ↔
      l.latest h.id = some h ∧ h.account = account ∧ h.status.isTerminal = false := by
  unfold pending
  simp only [List.mem_dedup, List.mem_filter, decide_eq_true_eq, and_iff_right_iff_imp]
  exact fun hh => List.mem_of_find?_eq_some hh.1

theorem nodup_pending : (l.pending account).Nodup := List.nodup_dedup _

end Journal

end Facts

section Same

namespace StoreReply

variable {hs hs' : List TxHandle}

@[simp] theorem same_listed : Same (.listed (.ok hs)) (.listed (.ok hs')) ↔ hs.Perm hs' := by
  simp [Same, content]

@[simp] theorem same_loaded {r r' : Except StateStoreError (Versioned NonceState)} :
    Same (.loaded r) (.loaded r') ↔ r = r' := by
  simp [Same, content]

@[simp] theorem same_swapped {r r' : Except StateStoreError Bool} :
    Same (.swapped r) (.swapped r') ↔ r = r' := by
  simp [Same, content]

@[simp] theorem same_written {r r' : Except StateStoreError Unit} :
    Same (.written r) (.written r') ↔ r = r' := by
  simp [Same, content]

@[simp] theorem same_found {r r' : Except StateStoreError (Option TxHandle)} :
    Same (.found r) (.found r') ↔ r = r' := by
  simp [Same, content]

@[simp] theorem not_same_panicked {r : Except StateStoreError Bool} :
    ¬ Same .panicked (.swapped r) := by
  simp [Same, content]

end StoreReply

end Same

section Swaps

/-- What a swap does in a backend whose version counter ends at `bound`. The backend stays in the
state `s` or gets to `s'`. -/
inductive SwapsTo {S : Type} (l : Journal) (scope : NonceScope) (n f : U64) (bound : Nat)
    (s s' : S) : StoreReply × S → Prop
  | fenced (hf : f.val < l.highest scope) :
    SwapsTo l scope n f bound s s' (.swapped (.error .fenced), s)
  | stale (hf : l.highest scope ≤ f) (hn : (l.swaps scope).length ≠ n) :
    SwapsTo l scope n f bound s s' (.swapped (.ok false), s)
  | ended {r : StoreReply} (hf : l.highest scope ≤ f) (hn : (l.swaps scope).length = n)
    (hlast : n.val + 1 = bound) (hr : ¬ r.Same (.swapped (.ok true))) :
    SwapsTo l scope n f bound s s' (r, s)
  | swapped (hf : l.highest scope ≤ f) (hn : (l.swaps scope).length = n)
    (hlast : n.val + 1 ≠ bound) : SwapsTo l scope n f bound s s' (.swapped (.ok true), s')

namespace SwapsTo

variable {S : Type} {l : Journal} {scope : NonceScope} {n f : U64} {bound : Nat} {s s' : S}
  {a : StoreReply × S} {v : { s : NonceState // s.Typed }}

/-- It answers as the journal does, until the counter has ended. -/
theorem same_iff (h : SwapsTo l scope n f bound s s' a) :
    a.1.Same (l.answer (.casNonceState scope n v f)).1 ↔
      (l.highest scope ≤ f → (l.swaps scope).length = n → n.val + 1 ≠ bound) := by
  cases h with
  | fenced hf => simp [Journal.answer, hf, not_le.mpr hf]
  | stale hf hn => simp [Journal.answer, not_lt.mpr hf, hn]
  | ended hf hn hlast hr => simp [Journal.answer, not_lt.mpr hf, hf, hn, hlast, hr]
  | swapped hf hn hlast => simp [Journal.answer, not_lt.mpr hf, hn, hlast]

/-- A relation to the journal that a swap keeps. -/
theorem keeps {rel : S → Journal → Prop} (h : SwapsTo l scope n f bound s s' a)
    (hok : l.highest scope ≤ f → (l.swaps scope).length = n → n.val + 1 ≠ bound) (hs : rel s l)
    (hswap : ∀ hf : l.highest scope ≤ f, (l.swaps scope).length = n → n.val + 1 ≠ bound →
      rel s' (l.commit scope v f hf)) :
    rel a.2 (l.answer (.casNonceState scope n v f)).2 := by
  cases h with
  | fenced hf => simpa [Journal.answer, hf] using hs
  | stale hf hn => simpa [Journal.answer, not_lt.mpr hf, hn] using hs
  | ended hf hn hlast hr => exact absurd hlast (hok hf hn)
  | swapped hf hn hlast => simpa [Journal.answer, not_lt.mpr hf, hn] using hswap hf hn hlast

end SwapsTo

end Swaps

section Memory

/-- The version counter of a swap that goes through stays within `u64`. -/
def WithinU64 (l : Journal) : StoreCall → Prop
  | .casNonceState scope expectedVersion _ fence =>
    l.highest scope ≤ fence → (l.swaps scope).length = expectedVersion →
      expectedVersion.val + 1 < 2 ^ 64
  | _ => True

theorem withinU64_cas {l : Journal} {scope : NonceScope} {n f : U64}
    {v : { s : NonceState // s.Typed }} : WithinU64 l (.casNonceState scope n v f) ↔
      (l.highest scope ≤ f → (l.swaps scope).length = n → n.val + 1 ≠ 2 ^ 64) :=
  forall₂_congr fun _ _ => (Nat.succ_le_of_lt n.2).lt_iff_ne

structure MemoryFollows (s : Store) (l : Journal) : Prop where
  nonces (scope : NonceScope) :
    s.nonces scope = (l.lastSwap scope).map fun e => (⟨e.2.2, e.1⟩, e.2.1)
  handles (id : HandleId) : s.handle id = l.latest id

namespace MemoryFollows

variable {s : Store} {l : Journal}

theorem load (h : MemoryFollows s l) (scope : NonceScope) :
    s.loadNonceState scope = l.current scope := by
  rw [Store.loadNonceState, h.nonces, Journal.current_eq, Journal.entry]
  cases l.lastSwap scope <;> rfl

theorem pending (h : MemoryFollows s l) (account : Address) :
    (s.pendingHandles account).Perm (l.pending account) := by
  refine (List.perm_ext_iff_of_nodup (s.handles.rows_nodup.filter _) Journal.nodup_pending).mpr ?_
  intro g
  exact Store.mem_pendingHandles.trans (by rw [Journal.mem_pending, h.handles])

/-- The store reads the journal's version and highest fence before it swaps. -/
theorem casNonceState (h : MemoryFollows s l) (scope : NonceScope) (n : Nat) (v : NonceState)
    (f : FenceToken) :
    s.casNonceState scope n v f =
      if f < l.highest scope then (.error .fenced, s)
      else if (l.swaps scope).length ≠ n then (.ok false, s)
      else (.ok true, { s with
        nonces := Function.update s.nonces scope (some (⟨v, n + 1⟩, f)) }) := by
  rw [Store.casNonceState, h.nonces, Journal.highest_eq, Journal.length_swaps, Journal.entry]
  cases l.lastSwap scope <;> rfl

theorem swap (h : MemoryFollows s l) (scope : NonceScope) (n f : U64)
    (v : { s : NonceState // s.Typed }) :
    SwapsTo l scope n f (2 ^ 64) s
      { s with nonces := Function.update s.nonces scope (some (⟨v, n + 1⟩, f)) }
      (s.answer (.casNonceState scope n v f)) := by
  simp only [Store.answer, h.casNonceState]
  by_cases hf : f.val < l.highest scope
  · simp only [hf, if_true, reduceCtorEq, false_and, if_false]
    exact .fenced hf
  by_cases hn : (l.swaps scope).length = n
  · simp only [hf, hn, if_false, ne_eq, not_true_eq_false, true_and]
    split_ifs with hlast
    · exact .ended (not_lt.mp hf) hn hlast StoreReply.not_same_panicked
    · exact .swapped (not_lt.mp hf) hn hlast
  · simp only [hf, hn, if_false, ne_eq, not_false_eq_true, if_true, Except.ok.injEq,
      Bool.false_eq_true, false_and]
    exact .stale (not_lt.mp hf) hn

theorem same_iff (h : MemoryFollows s l) (call : StoreCall) :
    StoreReply.Same (s.answer call).1 (l.answer call).1 ↔ WithinU64 l call := by
  cases call with
  | loadNonceState scope => simp [Store.answer, Journal.answer, h.load, WithinU64]
  | casNonceState scope n v f =>
    rw [(h.swap scope n f v).same_iff, withinU64_cas]
  | putHandle g => simp [Store.answer, Journal.answer, WithinU64]
  | pendingHandles account =>
    simpa [Store.answer, Journal.answer, WithinU64] using h.pending account
  | handle id => simp [Store.answer, Journal.answer, h.handles, WithinU64]

theorem step (h : MemoryFollows s l) (call : StoreCall) (hok : WithinU64 l call) :
    MemoryFollows (s.answer call).2 (l.answer call).2 := by
  cases call with
  | loadNonceState scope => exact h
  | casNonceState scope n v f =>
    refine (h.swap scope n f v).keeps (withinU64_cas.mp hok) h fun hf hn _ => ?_
    refine ⟨fun t => ?_, h.handles⟩
    rw [Journal.lastSwap_commit, ← Journal.length_swaps, hn]
    by_cases ht : t = scope
    · subst ht
      simp
    · simp [ht, h.nonces]
  | putHandle g =>
    refine ⟨h.nonces, fun id => ?_⟩
    simp only [Store.answer, Journal.answer]
    rw [Store.handle_putHandle, h.handles, Journal.latest_put]
    simp only [eq_comm]
  | pendingHandles account => exact h
  | handle id => exact h

end MemoryFollows

def memorySimulation : Mealy.Simulation inMemory journal StoreReply.Same WithinU64 where
  rel := MemoryFollows
  start := ⟨fun _ => rfl, fun _ => rfl⟩
  same_iff call h := h.same_iff call
  step call h hok := h.step call hok

end Memory

section Listing

variable {l : Journal} {account : Address}

/-- A listing without duplicates shows what the journal has pending iff it has the same members. -/
theorem Journal.perm_pending {hs : List TxHandle} (hnodup : hs.Nodup) :
    hs.Perm (l.pending account) ↔ ∀ g, g ∈ hs ↔
      l.latest g.id = some g ∧ g.account = account ∧ g.status.isTerminal = false := by
  rw [List.perm_ext_iff_of_nodup hnodup Journal.nodup_pending]
  simp only [Journal.mem_pending]

/-- Documents that were written read back as the values they were written from. -/
theorem mapM_fromDocument {α β : Type} {c : Codec α} (write : α → β) (read : β → Document)
    (h : ∀ a, read (write a) = c.encode a) (as : List α) :
    (as.map write).mapM (fun b => fromDocument c (read b)) = .ok as := by
  induction as with
  | nil => rfl
  | cons a as ih =>
    rw [List.map_cons, List.mapM_cons, ih, h, fromDocument_encode]
    rfl

end Listing

theorem scopeKey_inj {s t : NonceScope} : accountKey s.account = accountKey t.account ↔ s = t := by
  rw [accountKey_inj]
  cases s
  cases t
  simp

section Redb

/-- No live record was last written under this account and then moved to another. -/
def Unmoved (l : Journal) : StoreCall → Prop
  | .pendingHandles account => ∀ h ∈ l.puts,
      l.latestUnder account h.id = some h → h.status.isTerminal = false → l.latest h.id = some h
  | _ => True

structure RedbFollows (s : RedbStateStore) (l : Journal) : Prop where
  nonce (scope : NonceScope) :
    s.nonce (accountKey scope.account) = (l.lastSwap scope).map nonceEntry.encode
  tx (id : HandleId) :
    s.tx (HandleId.asBytes id) = (l.latest id).map Serde.txHandle.encode
  indexed (account : Address) (id : HandleId) :
    (accountKey account, HandleId.asBytes id) ∈ s.txPending.rows ↔
      ∃ h, l.latestUnder account id = some h ∧ h.status.isTerminal = false
  keyed : ∀ k ∈ s.txPending.rows, ∃ account id, k = (accountKey account, HandleId.asBytes id)

namespace RedbFollows

variable {s : RedbStateStore} {l : Journal}

theorem start : RedbFollows .empty .empty where
  nonce _ := rfl
  tx _ := rfl
  indexed _ _ := by simp [RedbStateStore.empty, Journal.empty, Table.empty, Journal.latestUnder]
  keyed _ hk := absurd hk List.not_mem_nil

theorem load (h : RedbFollows s l) (scope : NonceScope) :
    s.loadNonceState scope = .ok (l.current scope) := by
  rw [RedbStateStore.loadNonceState, h.nonce, Journal.current_eq, Journal.entry]
  cases l.lastSwap scope with
  | none => rfl
  | some e =>
    simp only [Option.map_some, fromDocument_encode]
    rfl

theorem handle (h : RedbFollows s l) (id : HandleId) : s.handle id = .ok (l.latest id) := by
  rw [RedbStateStore.handle, h.tx]
  cases l.latest id with
  | none => rfl
  | some g =>
    simp only [Option.map_some, fromDocument_encode]
    rfl

theorem casNonceState (h : RedbFollows s l) (scope : NonceScope) (n : U64) (v : NonceState)
    (f : U64) :
    s.casNonceState scope n v f =
      if f.val < l.highest scope then (.error .fenced, s)
      else if (l.swaps scope).length ≠ n then (.ok false, s)
      else if n.val + 1 = 2 ^ 64 then (.error (.task "panicked"), s)
      else (.ok true, { s with
        nonce := Function.update s.nonce (accountKey scope.account)
          (some (nonceEntry.encode (n.val + 1, f.val, v))) }) := by
  rw [RedbStateStore.casNonceState, h.nonce, Journal.highest_eq, Journal.length_swaps,
    Journal.entry]
  cases l.lastSwap scope with
  | none => rfl
  | some e => simp

/-- The scan meets each id that the index has under an account once. -/
theorem exists_ids (h : RedbFollows s l) (account : Address) :
    ∃ ids : List HandleId, s.idsInRange account = ids.map HandleId.asBytes ∧ ids.Nodup ∧
      ∀ id, id ∈ ids ↔ (accountKey account, HandleId.asBytes id) ∈ s.txPending.rows := by
  have hrange : ∀ k ∈ s.txPending.range RedbStateStore.keyRank
      (accountKey account, RedbStateStore.idLo) (accountKey account, RedbStateStore.idHi),
      k ∈ s.txPending.rows ∧ ∃ id, k = (accountKey account, HandleId.asBytes id) := by
    intro k hk
    obtain ⟨hmem, hbetween⟩ := Table.mem_range.mp hk
    obtain ⟨a, id, rfl⟩ := h.keyed k hmem
    obtain rfl := (RedbStateStore.inRange_iff account a id).mp hbetween
    exact ⟨hmem, id, rfl⟩
  have hkeys : s.idsInRange account ∈ Set.range (List.map HandleId.asBytes) := by
    rw [Set.range_list_map]
    intro _ hk
    obtain ⟨k, hmem, rfl⟩ := List.mem_map.mp hk
    obtain ⟨-, id, rfl⟩ := hrange k hmem
    exact ⟨id, rfl⟩
  have hnodup : (s.idsInRange account).Nodup := by
    refine List.Nodup.map_on (fun x hx y hy hxy => ?_) (Table.nodup_range _ _ _ _)
    obtain ⟨-, i, rfl⟩ := hrange x hx
    obtain ⟨-, j, rfl⟩ := hrange y hy
    exact Prod.ext rfl hxy
  obtain ⟨ids, hids⟩ := hkeys
  refine ⟨ids, hids.symm, List.Nodup.of_map _ (hids ▸ hnodup), fun id => ?_⟩
  have hscan : id ∈ ids ↔ HandleId.asBytes id ∈ s.idsInRange account := by
    rw [← hids]
    simp [HandleId.asBytes_inj]
  rw [hscan, RedbStateStore.idsInRange, List.mem_map]
  constructor
  · rintro ⟨k, hk, hid⟩
    obtain ⟨hmem, j, rfl⟩ := hrange k hk
    rwa [← hid]
  · intro hmem
    exact ⟨_, Table.mem_range.mpr ⟨hmem, (RedbStateStore.inRange_iff _ _ _).mpr rfl⟩, rfl⟩

theorem listing_of_ids (h : RedbFollows s l) (ids : List HandleId) :
    ((ids.map HandleId.asBytes).filterMap s.tx).mapM (fromDocument Serde.txHandle) =
      .ok (ids.filterMap l.latest) := by
  have hdocs : (ids.map HandleId.asBytes).filterMap s.tx =
      (ids.filterMap l.latest).map Serde.txHandle.encode := by
    rw [List.filterMap_map, List.map_filterMap]
    exact List.filterMap_congr fun id _ => h.tx id
  rw [hdocs]
  exact mapM_fromDocument Serde.txHandle.encode (fun d => d) (fun _ => rfl) _

/-- The index leads to the current records of the ids it has under the account. -/
theorem exists_listing (h : RedbFollows s l) (account : Address) :
    ∃ hs : List TxHandle, s.pendingHandles account = .ok hs ∧ hs.Nodup ∧
      ∀ g, g ∈ hs ↔ l.latest g.id = some g ∧
        ∃ old, l.latestUnder account g.id = some old ∧ old.status.isTerminal = false := by
  obtain ⟨ids, hids, hnodup, hmem⟩ := h.exists_ids account
  refine ⟨ids.filterMap l.latest, ?_, ?_, fun g => ?_⟩
  · rw [RedbStateStore.pendingHandles, hids]
    exact h.listing_of_ids ids
  · refine hnodup.filterMap fun i j g hi hj => ?_
    exact (Journal.id_of_latest hi).symm.trans (Journal.id_of_latest hj)
  · simp only [List.mem_filterMap, hmem, h.indexed]
    constructor
    · rintro ⟨id, hold, hg⟩
      obtain rfl := Journal.id_of_latest hg
      exact ⟨hg, hold⟩
    · rintro ⟨hg, hold⟩
      exact ⟨g.id, hold, hg⟩

theorem listing_same_iff (h : RedbFollows s l) (account : Address) :
    StoreReply.Same (.listed (s.pendingHandles account)) (.listed (.ok (l.pending account))) ↔
      Unmoved l (.pendingHandles account) := by
  obtain ⟨hs, hlist, hnodup, hmem⟩ := h.exists_listing account
  rw [hlist, StoreReply.same_listed, Journal.perm_pending hnodup]
  constructor
  · intro hsame old hput hold hlive
    obtain ⟨g, hg⟩ := Journal.exists_latest hold
    have hid := Journal.id_of_latest hg
    rw [← hid] at hold hg ⊢
    -- the record redb lists for the id is one the journal lists, so it was written here last
    obtain ⟨-, haccount, -⟩ := (hsame g).mp ((hmem g).mpr ⟨hg, old, hold, hlive⟩)
    have hunder := Journal.latestUnder_of_latest hg
    rw [haccount, hold] at hunder
    rw [hg, hunder]
  · intro hunmoved g
    rw [hmem]
    refine and_congr_right fun hg => ⟨?_, ?_⟩
    · rintro ⟨old, hold, hlive⟩
      obtain ⟨haccount, hid⟩ := Journal.under_of_latestUnder hold
      have hcurrent := hunmoved old (List.mem_of_find?_eq_some hold) (hid ▸ hold) hlive
      rw [hid, hg] at hcurrent
      obtain rfl := Option.some.inj hcurrent
      exact ⟨haccount, hlive⟩
    · rintro ⟨rfl, hlive⟩
      exact ⟨g, Journal.latestUnder_of_latest hg, hlive⟩

theorem swap (h : RedbFollows s l) (scope : NonceScope) (n f : U64)
    (v : { s : NonceState // s.Typed }) :
    SwapsTo l scope n f (2 ^ 64) s { s with
        nonce := Function.update s.nonce (accountKey scope.account)
          (some (nonceEntry.encode (n.val + 1, f.val, v))) }
      (s.answer (.casNonceState scope n v f)) := by
  simp only [RedbStateStore.answer, h.casNonceState]
  split_ifs with hf hn hlast
  · exact .fenced hf
  · exact .stale (not_lt.mp hf) hn
  · exact .ended (not_lt.mp hf) (not_not.mp hn) hlast (by simp)
  · exact .swapped (not_lt.mp hf) (not_not.mp hn) hlast

theorem same_iff (h : RedbFollows s l) (call : StoreCall) :
    StoreReply.Same (s.answer call).1 (l.answer call).1 ↔ WithinU64 l call ∧ Unmoved l call := by
  cases call with
  | loadNonceState scope =>
    simp [RedbStateStore.answer, Journal.answer, h.load, WithinU64, Unmoved]
  | casNonceState scope n v f =>
    rw [(h.swap scope n f v).same_iff, withinU64_cas]
    simp only [Unmoved, and_true]
  | putHandle g => simp [RedbStateStore.answer, Journal.answer, WithinU64, Unmoved]
  | pendingHandles account => exact (h.listing_same_iff account).trans (by simp [WithinU64])
  | handle id => simp [RedbStateStore.answer, Journal.answer, h.handle, WithinU64, Unmoved]

theorem put (h : RedbFollows s l) (g : TxHandle) :
    RedbFollows (s.putHandle g) { l with puts := g :: l.puts } where
  nonce := h.nonce
  tx id := by
    rw [Journal.latest_put]
    by_cases hid : g.id = id
    · subst hid
      simp [RedbStateStore.putHandle]
    · have hne : HandleId.asBytes id ≠ HandleId.asBytes g.id :=
        fun he => hid (HandleId.asBytes_inj.mp he).symm
      simp [RedbStateStore.putHandle, hid, hne, h.tx]
  indexed account id := by
    have hkey : (accountKey account, HandleId.asBytes id) =
        (accountKey g.account, HandleId.asBytes g.id) ↔ g.account = account ∧ g.id = id := by
      rw [Prod.mk.injEq, accountKey_inj, HandleId.asBytes_inj, eq_comm, @eq_comm _ id]
    rw [Journal.latestUnder_put]
    unfold RedbStateStore.putHandle
    cases hterminal : g.status.isTerminal <;> by_cases hk : g.account = account ∧ g.id = id
    · simp [Table.mem_put, hk, hterminal]
    · simp [Table.mem_put, hkey, hk, h.indexed]
    · simp [Table.mem_remove, hk, hterminal]
    · simp [Table.mem_remove, hkey, hk, h.indexed]
  keyed k hk := by
    unfold RedbStateStore.putHandle at hk
    dsimp only at hk
    split at hk
    · exact h.keyed k (Table.mem_remove.mp hk).1
    · obtain rfl | ⟨hk, -⟩ := Table.mem_put.mp hk
      · exact ⟨_, _, rfl⟩
      · exact h.keyed k hk

theorem step (h : RedbFollows s l) (call : StoreCall) (hok : WithinU64 l call) :
    RedbFollows (s.answer call).2 (l.answer call).2 := by
  cases call with
  | loadNonceState scope => exact h
  | casNonceState scope n v f =>
    refine (h.swap scope n f v).keeps (withinU64_cas.mp hok) h fun hf hn _ => ?_
    refine ⟨fun t => ?_, h.tx, h.indexed, h.keyed⟩
    rw [Journal.lastSwap_commit, ← Journal.length_swaps, hn]
    by_cases ht : t = scope
    · subst ht
      simp
    · simp [ht, scopeKey_inj, h.nonce]
  | putHandle g => exact h.put g
  | pendingHandles account => exact h
  | handle id => exact h

end RedbFollows

def redbSimulation :
    Mealy.Simulation redb journal StoreReply.Same
      fun l call => WithinU64 l call ∧ Unmoved l call where
  rel := RedbFollows
  start := .start
  same_iff call h := h.same_iff call
  step call h hok := h.step call hok.1

end Redb

section Postgres

/-- Fences and versions within `i64`, gas caps within `u64` and no `U+0000` in a text. -/
def Encodable (l : Journal) : StoreCall → Prop
  | .casNonceState scope expectedVersion _ fence =>
    fence.val < 2 ^ 63 ∧ (l.highest scope ≤ fence → (l.swaps scope).length = expectedVersion →
      expectedVersion.val + 1 < 2 ^ 63)
  | .putHandle h =>
    (h.val.envelope.maxFeeCap < 2 ^ 64 ∧ h.val.envelope.maxPriorityCap < 2 ^ 64) ∧
      ∀ t ∈ h.val.texts, '\x00' ∉ t.toList
  | _ => True

theorem asI64_of_lt {n : Nat} (h : n < 2 ^ 63) : asI64 n = n := if_pos h

theorem asI64_eq_iff {n m : Nat} (hn : n < 2 ^ 63) (hm : m < 2 ^ 64) :
    (n : Int) = asI64 m ↔ n = m := by
  unfold asI64
  split <;> omega

theorem asU64_natCast (n : Nat) : asU64 n = n := by
  simp [asU64]

def rowOf (h : TxHandle) : HandleRow :=
  ⟨HandleId.asBytes h.id, accountKey h.account, h.status.isTerminal, Serde.txHandle.encode h⟩

theorem rowOf_inj {g h : TxHandle} : rowOf g = rowOf h ↔ g = h := by
  refine ⟨fun he => ?_, fun he => he ▸ rfl⟩
  have hdoc : Serde.txHandle.encode g = Serde.txHandle.encode h := congrArg HandleRow.handle he
  have hread := Serde.txHandle.decode_encode g
  rw [hdoc, Serde.txHandle.decode_encode] at hread
  exact (Option.some.inj hread).symm

structure PostgresFollows (s : PostgresStateStore) (l : Journal) : Prop where
  nonceState (scope : NonceScope) :
    s.nonceState (accountKey scope.account) =
      (l.lastSwap scope).map fun e => ⟨e.1, e.2.1, Serde.nonceState.encode e.2.2⟩
  version_lt (scope : NonceScope) : (l.entry scope).1 < 2 ^ 63
  fence_lt (scope : NonceScope) : (l.entry scope).2.1 < 2 ^ 63
  txHandles (r : HandleRow) :
    r ∈ s.txHandles.rows ↔ ∃ h, l.latest h.id = some h ∧ r = rowOf h

namespace PostgresFollows

variable {s : PostgresStateStore} {l : Journal}

theorem start : PostgresFollows .empty .empty where
  nonceState _ := rfl
  version_lt _ := by norm_num [Journal.entry, Journal.lastSwap, Journal.empty]
  fence_lt _ := by
    norm_num [Journal.entry, Journal.lastSwap, Journal.empty, FenceToken.singleWriter]
  txHandles r := by simp [PostgresStateStore.empty, Journal.empty, Table.empty, Journal.latest]

theorem load (h : PostgresFollows s l) (scope : NonceScope) :
    s.loadNonceState scope = .ok (l.current scope) := by
  rw [PostgresStateStore.loadNonceState, h.nonceState, Journal.current_eq, Journal.entry]
  cases l.lastSwap scope with
  | none => rfl
  | some e =>
    simp only [Option.map_some, fromDocument_encode, asU64_natCast]
    rfl

theorem get (h : PostgresFollows s l) (id : HandleId) :
    s.txHandles.get (HandleId.asBytes id) = (l.latest id).map rowOf := by
  refine Option.ext fun r => ?_
  rw [Table.get_eq_some, h.txHandles, Option.map_eq_some_iff]
  constructor
  · rintro ⟨⟨g, hg, rfl⟩, hid⟩
    obtain rfl : g.id = id := HandleId.asBytes_inj.mp hid
    exact ⟨g, hg, rfl⟩
  · rintro ⟨g, hg, rfl⟩
    obtain rfl := Journal.id_of_latest hg
    exact ⟨⟨g, hg, rfl⟩, rfl⟩

theorem handle (h : PostgresFollows s l) (id : HandleId) : s.handle id = .ok (l.latest id) := by
  rw [PostgresStateStore.handle, h.get]
  cases l.latest id with
  | none => rfl
  | some g =>
    simp only [Option.map_some, rowOf, fromDocument_encode]
    rfl

theorem exists_listing (h : PostgresFollows s l) (account : Address) :
    ∃ hs : List TxHandle, s.pendingHandles account = .ok hs ∧ hs.Perm (l.pending account) := by
  let listed := s.txHandles.rows.filter fun r => r.account = accountKey account && !r.terminal
  have hrows : listed ∈ Set.range (List.map rowOf) := by
    rw [Set.range_list_map]
    intro r hr
    obtain ⟨g, -, rfl⟩ := (h.txHandles r).mp (List.mem_of_mem_filter hr)
    exact ⟨g, rfl⟩
  obtain ⟨hs, hhs⟩ := hrows
  have hnodup : hs.Nodup := List.Nodup.of_map rowOf (hhs ▸ s.txHandles.rows_nodup.filter _)
  refine ⟨hs, ?_, (Journal.perm_pending hnodup).mpr fun g => ?_⟩
  · change listed.mapM _ = _
    rw [← hhs]
    exact mapM_fromDocument rowOf HandleRow.handle (fun _ => rfl) hs
  · have hmem : g ∈ hs ↔ rowOf g ∈ listed := by
      rw [← hhs]
      simp [rowOf_inj]
    rw [hmem, List.mem_filter, h.txHandles]
    simp only [rowOf_inj, exists_eq_right']
    simp [rowOf, accountKey_inj]

/-- The row of a scope, or what stands for it while there is none. -/
theorem current (h : PostgresFollows s l) (scope : NonceScope) :
    s.current (accountKey scope.account) =
      (((l.entry scope).1 : Int), ((l.entry scope).2.1 : Int)) := by
  rw [PostgresStateStore.current, h.nonceState, Journal.entry]
  cases l.lastSwap scope <;> rfl

/-- A fence within `i64` is compared as the number it is, and so is a version. -/
theorem casNonceState (h : PostgresFollows s l) (scope : NonceScope) (n : U64) {v : NonceState}
    (hv : v.Typed) {f : U64} (hf : f.val < 2 ^ 63) :
    s.casNonceState scope n v f =
      if f.val < l.highest scope then (.swapped (.error .fenced), s)
      else if (l.swaps scope).length ≠ n then (.swapped (.ok false), s)
      else if n.val + 1 = 2 ^ 63 then (.panicked, s)
      else (.swapped (.ok true), { s with
        nonceState := Function.update s.nonceState (accountKey scope.account)
          (some ⟨(n.val + 1 : Nat), f.val, Serde.nonceState.encode v⟩) }) := by
  have hversion := h.version_lt scope
  have hvalue : toValue (Serde.nonceState.encode v) = .ok (Serde.nonceState.encode v) :=
    if_pos hv.fits
  have hjsonb : toJsonb (Serde.nonceState.encode v) = .ok (Serde.nonceState.encode v) :=
    if_pos v.storable
  simp only [PostgresStateStore.casNonceState, h.current, asI64_of_lt hf, hvalue, hjsonb, ne_eq,
    asI64_eq_iff hversion n.2, Journal.highest_eq, Journal.length_swaps, Nat.cast_lt]
  by_cases hfence : f.val < (l.entry scope).2.1
  · simp [hfence]
  by_cases hn : (l.entry scope).1 = n
  · rw [hn] at hversion
    have hlast : (n.val : Int) + 1 = 2 ^ 63 ↔ n.val + 1 = 2 ^ 63 := by omega
    simp only [hfence, hn, asI64_of_lt hversion, hlast, if_false, not_true_eq_false,
      Nat.cast_add, Nat.cast_one]
  · simp [hfence, hn]

/-- A larger fence is negative there, below every committed one. -/
theorem fenced (h : PostgresFollows s l) (scope : NonceScope) (n : U64) {v : NonceState} {f : U64}
    (hf : 2 ^ 63 ≤ f.val) : s.casNonceState scope n v f = (.swapped (.error .fenced), s) := by
  have hlt := f.2
  have hneg : asI64 f.val < ((l.entry scope).2.1 : Int) := by
    unfold asI64
    split <;> omega
  simp only [PostgresStateStore.casNonceState, h.current, hneg, if_true]

/-- A record is written iff the serializer and the column take its document. -/
theorem putHandle_eq (s : PostgresStateStore) (g : TxHandle) :
    ∃ e, s.putHandle g =
      if (Serde.txHandle.encode g).all Serde.fits ∧
          (Serde.txHandle.encode g).all Serde.storable then
        (.ok (), { s with txHandles := s.txHandles.put (rowOf g) })
      else (.error e, s) := by
  unfold PostgresStateStore.putHandle toValue toJsonb
  cases hfits : (Serde.txHandle.encode g).all Serde.fits
  · exact ⟨_, by simp [bind, Except.bind]; rfl⟩
  · cases hstorable : (Serde.txHandle.encode g).all Serde.storable
    · exact ⟨_, by simp [bind, Except.bind, hstorable]; rfl⟩
    · exact ⟨.fenced, by simp [bind, Except.bind, hstorable, rowOf]⟩

theorem put (h : PostgresFollows s l) (g : TxHandle) :
    PostgresFollows { s with txHandles := s.txHandles.put (rowOf g) }
      { l with puts := g :: l.puts } where
  nonceState := h.nonceState
  version_lt := h.version_lt
  fence_lt := h.fence_lt
  txHandles r := by
    rw [Table.mem_put, h.txHandles]
    constructor
    · rintro (rfl | ⟨⟨o, ho, rfl⟩, hid⟩)
      · exact ⟨g, by simp [Journal.latest_put], rfl⟩
      · have hne : g.id ≠ o.id := fun he => hid (HandleId.asBytes_inj.mpr he.symm)
        exact ⟨o, by simp [Journal.latest_put, hne, ho], rfl⟩
    · rintro ⟨o, ho, rfl⟩
      rw [Journal.latest_put] at ho
      split at ho
      · exact .inl (by rw [Option.some.inj ho])
      · rename_i hne
        exact .inr ⟨⟨o, ho, rfl⟩, fun he => hne (HandleId.asBytes_inj.mp he).symm⟩

theorem commit (h : PostgresFollows s l) {scope : NonceScope} {n f : Nat} {v : NonceState}
    (hn : (l.swaps scope).length = n) (hlast : n + 1 < 2 ^ 63) (hsmall : f < 2 ^ 63)
    (hf : l.highest scope ≤ f) :
    PostgresFollows { s with
      nonceState := Function.update s.nonceState (accountKey scope.account)
        (some ⟨(n + 1 : Nat), f, Serde.nonceState.encode v⟩) } (l.commit scope v f hf) := by
  have hentry (t : NonceScope) : (l.commit scope v f hf).lastSwap t =
      if t = scope then some (n + 1, f, v) else l.lastSwap t := by
    rw [Journal.lastSwap_commit, ← Journal.length_swaps, hn]
  refine ⟨fun t => ?_, fun t => ?_, fun t => ?_, h.txHandles⟩
  · rw [hentry]
    by_cases ht : t = scope
    · subst ht
      simp
    · simp [ht, scopeKey_inj, h.nonceState]
  · rw [Journal.entry, hentry]
    split
    · exact hlast
    · exact h.version_lt t
  · rw [Journal.entry, hentry]
    split
    · exact hsmall
    · exact h.fence_lt t

/-- With a fence within `i64` only the counter is shorter. -/
theorem swap (h : PostgresFollows s l) (scope : NonceScope) (n : U64) {f : U64}
    (hsmall : f.val < 2 ^ 63) (v : { s : NonceState // s.Typed }) :
    SwapsTo l scope n f (2 ^ 63) s { s with
        nonceState := Function.update s.nonceState (accountKey scope.account)
          (some ⟨(n.val + 1 : Nat), f.val, Serde.nonceState.encode v⟩) }
      (s.answer (.casNonceState scope n v f)) := by
  rw [PostgresStateStore.answer, h.casNonceState scope n v.2 hsmall]
  split_ifs with hf hn hlast
  · exact .fenced hf
  · exact .stale (not_lt.mp hf) hn
  · exact .ended (not_lt.mp hf) (not_not.mp hn) hlast StoreReply.not_same_panicked
  · exact .swapped (not_lt.mp hf) (not_not.mp hn) hlast

theorem encodable_cas (h : PostgresFollows s l) {scope : NonceScope} {n f : U64}
    {v : { s : NonceState // s.Typed }} : Encodable l (.casNonceState scope n v f) ↔
      f.val < 2 ^ 63 ∧
        (l.highest scope ≤ f → (l.swaps scope).length = n → n.val + 1 ≠ 2 ^ 63) := by
  refine and_congr_right fun _ => forall₂_congr fun _ hn => ?_
  have hversion := h.version_lt scope
  rw [← Journal.length_swaps, hn] at hversion
  exact (Nat.succ_le_of_lt hversion).lt_iff_ne

theorem same_iff (h : PostgresFollows s l) (call : StoreCall) :
    StoreReply.Same (s.answer call).1 (l.answer call).1 ↔ Encodable l call := by
  cases call with
  | loadNonceState scope => simp [PostgresStateStore.answer, Journal.answer, h.load, Encodable]
  | casNonceState scope n v f =>
    rw [h.encodable_cas]
    by_cases hsmall : f.val < 2 ^ 63
    · rw [(h.swap scope n hsmall v).same_iff, and_iff_right hsmall]
    · -- the journal takes no such fence for an old one
      have hhighest : l.highest scope < 2 ^ 63 := Journal.highest_eq ▸ h.fence_lt scope
      have hf : ¬ f.val < l.highest scope := not_lt.mpr (hhighest.le.trans (not_lt.mp hsmall))
      rw [PostgresStateStore.answer, h.fenced scope n (not_lt.mp hsmall), Journal.answer]
      by_cases hn : (l.swaps scope).length = n <;> simp [-Nat.reducePow, hf, hn, hsmall]
  | putHandle g =>
    obtain ⟨e, he⟩ := putHandle_eq s g
    simp only [PostgresStateStore.answer, Journal.answer, Encodable, he, g.2.fits_iff,
      TxHandle.storable_iff]
    split
    · simpa only [StoreReply.same_written, true_iff]
    · simpa only [StoreReply.same_written, reduceCtorEq, false_iff]
  | pendingHandles account =>
    obtain ⟨hs, hlist, hperm⟩ := h.exists_listing account
    simpa [PostgresStateStore.answer, Journal.answer, hlist, Encodable] using hperm
  | handle id => simp [PostgresStateStore.answer, Journal.answer, h.handle, Encodable]

theorem step (h : PostgresFollows s l) (call : StoreCall) (hok : Encodable l call) :
    PostgresFollows (s.answer call).2 (l.answer call).2 := by
  cases call with
  | loadNonceState scope => exact h
  | casNonceState scope n v f =>
    obtain ⟨hsmall, hlast⟩ := h.encodable_cas.mp hok
    exact (h.swap scope n hsmall v).keeps hlast h fun hf hn _ =>
      h.commit hn (hok.2 hf hn) hsmall hf
  | putHandle g =>
    obtain ⟨e, he⟩ := putHandle_eq s g
    rw [if_pos ⟨g.2.fits_iff.mpr hok.1, TxHandle.storable_iff.mpr hok.2⟩] at he
    simpa only [PostgresStateStore.answer, Journal.answer, he] using h.put g
  | pendingHandles account => exact h
  | handle id => exact h

end PostgresFollows

def postgresSimulation : Mealy.Simulation postgres journal StoreReply.Same Encodable where
  rel := PostgresFollows
  start := .start
  same_iff call h := h.same_iff call
  step call h hok := h.step call hok

end Postgres

section Agreement

/-- The same results, call by call. -/
def SameAnswers (rs rs' : List StoreReply) : Prop := List.Forall₂ StoreReply.Same rs rs'

theorem sameAnswers_iff {rs rs' : List StoreReply} :
    SameAnswers rs rs' ↔ rs.map StoreReply.content = rs'.map StoreReply.content := by
  rw [SameAnswers, ← List.forall₂_eq_eq_eq, List.forall₂_map_left_iff, List.forall₂_map_right_iff]
  rfl

/-- The three backends return the same results, and these are what the calls should get. -/
structure Agree (calls : List StoreCall) : Prop where
  redb : SameAnswers (redb.answers calls) (inMemory.answers calls)
  postgres : SameAnswers (postgres.answers calls) (inMemory.answers calls)
  lawful : SameAnswers (inMemory.answers calls) (journal.answers calls)

/-- Where Postgres can encode a swap, the version counter is within `u64`. -/
theorem Encodable.withinU64 {l : Journal} {call : StoreCall} (h : Encodable l call) :
    WithinU64 l call := by
  cases call with
  | casNonceState scope n v f => exact fun hf hn => (h.2 hf hn).trans (by norm_num)
  | _ => trivial

/-- The backends agree on a sequence of calls iff each call, in the state it finds, is within the
encodings: its fence and the version it commits are below `2 ^ 63`, a record's gas caps are below
`2 ^ 64` and its texts have no `U+0000`, and the account whose records are listed has none that
was last written there live and then moved to another account. -/
theorem backends_agree_iff (calls : List StoreCall) :
    Agree calls ↔
      journal.Along (fun l call => Encodable l call ∧ Unmoved l call) Journal.empty calls := by
  have hmemory := memorySimulation.answers_iff calls
  have hredb := redbSimulation.answers_iff calls
  have hpostgres := postgresSimulation.answers_iff calls
  constructor
  · rintro ⟨h₁, h₂, h₃⟩
    rw [sameAnswers_iff] at h₁ h₂ h₃
    exact Mealy.along_and.mpr ⟨hpostgres.mp (sameAnswers_iff.mpr (h₂.trans h₃)),
      (Mealy.along_and.mp (hredb.mp (sameAnswers_iff.mpr (h₁.trans h₃)))).2⟩
  · intro h
    have hwithin : journal.Along WithinU64 Journal.empty calls :=
      h.imp fun _ _ hok => hok.1.withinU64
    obtain ⟨hencodable, hunmoved⟩ := Mealy.along_and.mp h
    have h₁ := sameAnswers_iff.mp (hredb.mpr (Mealy.along_and.mpr ⟨hwithin, hunmoved⟩))
    have h₂ := sameAnswers_iff.mp (hpostgres.mpr hencodable)
    have h₃ := sameAnswers_iff.mp (hmemory.mpr hwithin)
    exact ⟨sameAnswers_iff.mpr (h₁.trans h₃.symm), sameAnswers_iff.mpr (h₂.trans h₃.symm),
      sameAnswers_iff.mpr h₃⟩

/-- A record of one id, with the account it is written under and its fee cap. -/
def recordOf (account : Address) (maxFeeCap : Nat) : TxHandle where
  id := 7
  account := account
  intent := ⟨1, account, .call 2, 0, [], none⟩
  intentHash := 0
  nonce := 0
  status := .sent
  envelope := ⟨maxFeeCap, 1⟩
  signed := []
  broadcasts := []
  lastBroadcastAt := 0
  cancelled := false
  submission := .default
  «meta» := none

theorem recordOf_typed {account : Address} {cap : Nat} (h : cap < 2 ^ 128) :
    (recordOf account cap).Typed := by
  constructor <;>
    simp_all [recordOf, TxStatus.numbers, SubmissionOpts.default, SubmissionRoute.Typed]

/-- A first swap with the fence `2 ^ 63` goes through in memory and is fenced off in Postgres. A
record with the fee cap `2 ^ 64` is refused by Postgres alone. A live record written under one
account and then under another is still listed by redb for the first. -/
theorem backends_disagree :
    inMemory.answers [.casNonceState ⟨1⟩ ⟨0, by norm_num⟩ ⟨⟨1, ∅⟩, by norm_num, by simp⟩
        ⟨2 ^ 63, by norm_num⟩] = [.swapped (.ok true)] ∧
      postgres.answers [.casNonceState ⟨1⟩ ⟨0, by norm_num⟩ ⟨⟨1, ∅⟩, by norm_num, by simp⟩
        ⟨2 ^ 63, by norm_num⟩] = [.swapped (.error .fenced)] ∧
      inMemory.answers [.putHandle ⟨recordOf 1 (2 ^ 64), recordOf_typed (by norm_num)⟩] =
        [.written (.ok ())] ∧
      postgres.answers [.putHandle ⟨recordOf 1 (2 ^ 64), recordOf_typed (by norm_num)⟩] =
        [.written (.error (.serialization "number out of range"))] ∧
      inMemory.answers [.putHandle ⟨recordOf 1 1, recordOf_typed (by norm_num)⟩,
        .putHandle ⟨recordOf 2 1, recordOf_typed (by norm_num)⟩, .pendingHandles 1] =
        [.written (.ok ()), .written (.ok ()), .listed (.ok [])] ∧
      redb.answers [.putHandle ⟨recordOf 1 1, recordOf_typed (by norm_num)⟩,
        .putHandle ⟨recordOf 2 1, recordOf_typed (by norm_num)⟩, .pendingHandles 1] =
        [.written (.ok ()), .written (.ok ()), .listed (.ok [recordOf 2 1])] := by
  refine ⟨rfl, rfl, rfl, rfl, rfl, ?_⟩
  let moved := (RedbStateStore.empty.putHandle (recordOf 1 1)).putHandle (recordOf 2 1)
  have hids : moved.idsInRange 1 = [HandleId.asBytes 7] := by
    have hrows : moved.txPending.rows =
        [(accountKey 2, HandleId.asBytes 7), (accountKey 1, HandleId.asBytes 7)] := rfl
    have hfilter := Table.range_perm RedbStateStore.keyRank moved.txPending
      (accountKey 1, RedbStateStore.idLo) (accountKey 1, RedbStateStore.idHi)
    rw [hrows, List.filter_cons_of_neg, List.filter_cons_of_pos, List.filter_nil,
      List.perm_singleton] at hfilter
    · rw [RedbStateStore.idsInRange, hfilter]
      rfl
    · exact decide_eq_true ((RedbStateStore.inRange_iff 1 1 7).mpr rfl)
    · rw [decide_eq_true_eq]
      exact fun h => absurd ((RedbStateStore.inRange_iff 1 2 7).mp h) (by decide)
  have hlisted : moved.pendingHandles 1 = .ok [recordOf 2 1] := by
    rw [RedbStateStore.pendingHandles, hids]
    exact mapM_fromDocument Serde.txHandle.encode (fun d => d) (fun _ => rfl) [recordOf 2 1]
  exact congrArg (fun r => [StoreReply.written (.ok ()), .written (.ok ()), .listed r]) hlisted

end Agreement

end WalletKit
