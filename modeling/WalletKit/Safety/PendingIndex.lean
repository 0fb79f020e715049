import WalletKit.Safety.Backends

/-!
# The index of live records in redb

`put_handle` writes a record to the table of all records and, in the same transaction, puts its
key into the index of live records or takes it out. `pending_handles` scans a range of the index.
While no id is written under two accounts, the index has the keys of the live records and no
others, so the scan finds each live record of an account once.
-/
namespace WalletKit

open Machine

namespace RedbStateStore

variable {s : RedbStateStore}

/-- The table of records has this one. -/
def Holds (s : RedbStateStore) (h : TxHandle) : Prop :=
  s.tx (HandleId.asBytes h.id) = some (Serde.txHandle.encode h)

/-- The key of a record in the index. -/
def pendingKey (h : TxHandle) : String × Bytes := (accountKey h.account, HandleId.asBytes h.id)

/-- The table holds records under their ids, and the index has the keys of the live ones. -/
structure Indexed (s : RedbStateStore) : Prop where
  records : ∀ k d, s.tx k = some d → ∃ h, s.Holds h ∧ k = HandleId.asBytes h.id
  index : ∀ k, k ∈ s.txPending.rows ↔
    ∃ h, s.Holds h ∧ h.status.isTerminal = false ∧ k = pendingKey h

section Put

theorem holds_put (g h : TxHandle) :
    (s.putHandle g).Holds h ↔ h = g ∨ s.Holds h ∧ h.id ≠ g.id := by
  unfold Holds putHandle
  dsimp only
  by_cases hid : h.id = g.id
  · rw [hid, Function.update_self, Option.some.injEq, Serde.txHandle.encode_injective.eq_iff]
    simp [eq_comm]
  · have hkey : HandleId.asBytes h.id ≠ HandleId.asBytes g.id := mt HandleId.asBytes_inj.mp hid
    have hne : h ≠ g := fun he => hid (congrArg TxHandle.id he)
    simp [Function.update_of_ne hkey, hid, hne]

theorem mem_pending_put (g : TxHandle) (k : String × Bytes) :
    k ∈ (s.putHandle g).txPending.rows ↔
      g.status.isTerminal = false ∧ k = pendingKey g ∨ k ∈ s.txPending.rows ∧ k ≠ pendingKey g := by
  unfold putHandle pendingKey
  cases hlive : g.status.isTerminal
  · simp [Table.mem_put]
  · simp [Table.mem_remove]

theorem Indexed.put (hs : s.Indexed) (g : TxHandle)
    (hown : ∀ h, s.Holds h → h.id = g.id → h.account = g.account) : (s.putHandle g).Indexed where
  records k d hk := by
    by_cases hid : k = HandleId.asBytes g.id
    · exact ⟨g, (holds_put g g).mpr (.inl rfl), hid⟩
    · obtain ⟨h, hh, rfl⟩ := hs.records k d ((Function.update_of_ne hid _ _).symm.trans hk)
      exact ⟨h, (holds_put g h).mpr (.inr ⟨hh, fun he => hid (congrArg _ he)⟩), rfl⟩
  index k := by
    simp only [mem_pending_put, holds_put, hs.index]
    constructor
    · rintro (⟨hlive, rfl⟩ | ⟨⟨h, hh, hlive, rfl⟩, hne⟩)
      · exact ⟨g, .inl rfl, hlive, rfl⟩
      · refine ⟨h, .inr ⟨hh, fun hid => hne ?_⟩, hlive, rfl⟩
        rw [pendingKey, pendingKey, hown h hh hid, hid]
    · rintro ⟨h, rfl | ⟨hh, hid⟩, hlive, rfl⟩
      · exact .inl ⟨hlive, rfl⟩
      · refine .inr ⟨⟨h, hh, hlive, rfl⟩, fun he => hid ?_⟩
        exact HandleId.asBytes_inj.mp (Prod.mk.inj he).2

end Put

section Scan

theorem Holds.unique {g h : TxHandle} (hg : s.Holds g) (hh : s.Holds h) (hid : g.id = h.id) :
    g = h := by
  rw [Holds, hid, hh, Option.some.injEq] at hg
  exact (Serde.txHandle.encode_injective hg).symm

/-- A live record of the account. -/
def Live (s : RedbStateStore) (account : Address) (h : TxHandle) : Prop :=
  s.Holds h ∧ h.account = account ∧ h.status.isTerminal = false

theorem Indexed.mem_range (hs : s.Indexed) {account : Address} {k : String × Bytes} :
    k ∈ s.txPending.range keyRank (accountKey account, idLo) (accountKey account, idHi) ↔
      ∃ h, s.Live account h ∧ k = pendingKey h := by
  rw [Table.mem_range, hs.index]
  constructor
  · rintro ⟨⟨h, hh, hlive, rfl⟩, hrange⟩
    exact ⟨h, ⟨hh, (inRange_iff _ _ _).mp hrange, hlive⟩, rfl⟩
  · rintro ⟨h, ⟨hh, haccount, hlive⟩, rfl⟩
    exact ⟨⟨h, hh, hlive, rfl⟩, (inRange_iff _ _ _).mpr haccount⟩

/-- The scan meets the live records of the account, each once. -/
theorem Indexed.exists_scan (hs : s.Indexed) (account : Address) :
    ∃ live : List TxHandle, s.idsInRange account = live.map (HandleId.asBytes ·.id) ∧
      live.Nodup ∧ ∀ h, h ∈ live ↔ s.Live account h := by
  have hkeys : s.txPending.range keyRank (accountKey account, idLo) (accountKey account, idHi) ∈
      Set.range (List.map fun h : { h // s.Live account h } => pendingKey h.val) := by
    rw [Set.range_list_map]
    intro k hk
    obtain ⟨h, hlive, rfl⟩ := hs.mem_range.mp hk
    exact ⟨⟨h, hlive⟩, rfl⟩
  obtain ⟨live, hkeys⟩ := hkeys
  have hnodup :=
    s.txPending.nodup_range keyRank (accountKey account, idLo) (accountKey account, idHi)
  rw [← hkeys] at hnodup
  refine ⟨live.map (·.val), ?_, (hnodup.of_map _).map Subtype.val_injective, fun h => ?_⟩
  · rw [idsInRange, ← hkeys, List.map_map, List.map_map]
    rfl
  · constructor
    · intro hmem
      obtain ⟨g, -, rfl⟩ := List.mem_map.mp hmem
      exact g.2
    · intro hlive
      -- the key of the record was scanned, and no other record has its id
      have hk := hs.mem_range.mpr ⟨h, hlive, rfl⟩
      rw [← hkeys] at hk
      obtain ⟨g, hg, hsame⟩ := List.mem_map.mp hk
      have hid := HandleId.asBytes_inj.mp (Prod.mk.inj hsame).2
      exact List.mem_map.mpr ⟨g, hg, g.2.1.unique hlive.1 hid⟩

/-- `pending_handles` returns the live records of the account, each once. -/
theorem Indexed.exists_listing (hs : s.Indexed) (account : Address) :
    ∃ live, s.pendingHandles account = .ok live ∧ live.Nodup ∧
      ∀ h, h ∈ live ↔ s.Live account h := by
  obtain ⟨live, hids, hnodup, hmem⟩ := hs.exists_scan account
  refine ⟨live, ?_, hnodup, hmem⟩
  have hdocs : (live.map (HandleId.asBytes ·.id)).filterMap s.tx =
      live.map Serde.txHandle.encode := by
    rw [List.filterMap_map, ← List.filterMap_eq_map]
    exact List.filterMap_congr fun h hh => ((hmem h).mp hh).1
  rw [pendingHandles, hids, hdocs]
  exact mapM_fromDocument Serde.txHandle.encode (fun d => d) (fun _ => rfl) live

end Scan

section Runs

variable {s : RedbStateStore}

/-- The store after these calls on an empty one. -/
def after (calls : List StoreCall) : RedbStateStore :=
  calls.foldl (fun s call => (s.answer call).2) .empty

theorem after_concat (calls : List StoreCall) (call : StoreCall) :
    after (calls ++ [call]) = ((after calls).answer call).2 := by
  simp [after]

/-- Only `put_handle` writes to the two tables. -/
theorem answer_cases (s : RedbStateStore) (call : StoreCall) :
    (∃ g, call = .putHandle g ∧ (s.answer call).2 = s.putHandle g) ∨
      (s.answer call).2.tx = s.tx ∧ (s.answer call).2.txPending = s.txPending := by
  cases call with
  | putHandle g => exact .inl ⟨g, rfl, rfl⟩
  | casNonceState scope n v f =>
    refine .inr ?_
    simp only [answer, casNonceState]
    split
    · exact ⟨rfl, rfl⟩
    · split_ifs <;> exact ⟨rfl, rfl⟩
  | _ => exact .inr ⟨rfl, rfl⟩

theorem holds_congr {s t : RedbStateStore} (h : t.tx = s.tx) (g : TxHandle) :
    t.Holds g ↔ s.Holds g := by
  rw [Holds, Holds, h]

theorem Indexed.congr {s t : RedbStateStore} (hs : s.Indexed) (htx : t.tx = s.tx)
    (hpending : t.txPending = s.txPending) : t.Indexed where
  records k d hk := by
    rw [htx] at hk
    simp only [holds_congr htx]
    exact hs.records k d hk
  index k := by
    rw [hpending]
    simp only [holds_congr htx]
    exact hs.index k

/-- No two records with the same id are written under different accounts. -/
def OneAccount (calls : List StoreCall) : Prop :=
  ∀ g h, .putHandle g ∈ calls → .putHandle h ∈ calls → g.val.id = h.val.id →
    g.val.account = h.val.account

theorem exists_put_of_holds {calls : List StoreCall} {h : TxHandle} (hh : (after calls).Holds h) :
    ∃ g, .putHandle g ∈ calls ∧ g.val = h := by
  induction calls using List.reverseRecOn with
  | nil => cases hh
  | append_singleton calls call ih =>
    rw [after_concat] at hh
    rcases answer_cases (after calls) call with ⟨g, rfl, hput⟩ | ⟨htx, -⟩
    · rw [hput, holds_put] at hh
      rcases hh with rfl | ⟨hh, -⟩
      · exact ⟨g, by simp, rfl⟩
      · obtain ⟨g', hmem, hg'⟩ := ih hh
        exact ⟨g', List.mem_append_left _ hmem, hg'⟩
    · obtain ⟨g', hmem, hg'⟩ := ih ((holds_congr htx h).mp hh)
      exact ⟨g', List.mem_append_left _ hmem, hg'⟩

theorem indexed_after {calls : List StoreCall} (hown : OneAccount calls) :
    (after calls).Indexed := by
  induction calls using List.reverseRecOn with
  | nil =>
    refine ⟨fun k d hk => ?_, fun k => ⟨fun hk => absurd hk List.not_mem_nil, ?_⟩⟩
    · cases hk
    · rintro ⟨h, hh, -⟩
      cases hh
  | append_singleton calls call ih =>
    have hs := ih fun g h hg hh => hown g h (List.mem_append_left _ hg) (List.mem_append_left _ hh)
    rw [after_concat]
    rcases answer_cases (after calls) call with ⟨g, rfl, hput⟩ | ⟨htx, hpending⟩
    · rw [hput]
      refine hs.put g fun h hh hid => ?_
      obtain ⟨g', hmem, rfl⟩ := exists_put_of_holds hh
      exact hown g' g (List.mem_append_left _ hmem) (by simp) hid
    · exact hs.congr htx hpending

end Runs

/-- While no id is written under two accounts, after every call the index has the keys of the live
records and no others, and a listing returns each live record of the account once. -/
theorem pending_index_exact (calls : List StoreCall) (hown : OneAccount calls)
    (done : List StoreCall) (hdone : done <+: calls) :
    (after done).Indexed ∧
      ∀ account, ∃ live, (after done).pendingHandles account = .ok live ∧ live.Nodup ∧
        ∀ h, h ∈ live ↔ (after done).Live account h := by
  have hs : (after done).Indexed := indexed_after fun g h hg hh =>
    hown g h (hdone.subset hg) (hdone.subset hh)
  exact ⟨hs, hs.exists_listing⟩

section Witness

/-- A record of account 1, live or dropped. -/
def recordAt (id : HandleId) (dropped : Bool) : { h : TxHandle // h.Typed } :=
  ⟨{ recordOf 1 1 with id := id, status := if dropped then .dropped else .sent }, by
    cases dropped <;> constructor <;>
      simp [recordOf, TxStatus.numbers, SubmissionOpts.default, SubmissionRoute.Typed]⟩

/-- Live records with the least and the greatest id; then the first one is dropped. -/
def threePuts : List StoreCall :=
  [.putHandle (recordAt 0 false), .putHandle (recordAt (.allOnes 256) false),
    .putHandle (recordAt 0 true)]

theorem pending_index_exact_extremes :
    (after threePuts).Live 1 (recordAt (.allOnes 256) false) ∧
      ¬(after threePuts).Live 1 (recordAt 0 true) ∧
      (after threePuts).Indexed ∧
      ∀ account, ∃ live, (after threePuts).pendingHandles account = .ok live ∧ live.Nodup ∧
        ∀ h, h ∈ live ↔ (after threePuts).Live account h := by
  have hown : OneAccount threePuts := by
    intro g h hg hh _
    simp only [threePuts, List.mem_cons, StoreCall.putHandle.injEq, List.not_mem_nil, or_false]
      at hg hh
    rcases hg with rfl | rfl | rfl <;> rcases hh with rfl | rfl | rfl <;> rfl
  refine ⟨⟨?_, rfl, rfl⟩, fun h => absurd h.2.2 (by decide),
    pending_index_exact threePuts hown threePuts (List.prefix_refl _)⟩
  exact (holds_put _ _).mpr (.inr ⟨(holds_put _ _).mpr (.inl rfl), by decide⟩)

end Witness

end RedbStateStore

end WalletKit
