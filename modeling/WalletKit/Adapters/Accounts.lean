import WalletKit.Core.Ports

/-!
# Account discovery

`AccountManager::discover` probes the indices of each scheme in windows of a full gap, one batch
of addresses per chain and window, and carries the run of unused indices from one window to the
next. It finds what a scan that probes one index at a time would find. The one exception is in the
arithmetic of the windows: the end of the first one is computed before it is cut at the bound, and
with a gap limit near the end of `usize` that addition overflows.
-/
namespace WalletKit

inductive AccountError where
  | invalidPath (message : String)
  | invalidPhrase
  | derivation (message : String)
  deriving DecidableEq, Repr

/-- Which slot of the path the index varies. -/
inductive PathScheme where
  | bip44Standard
  | ledgerLive
  | custom (template : String)
  deriving DecidableEq, Repr

namespace PathScheme

def placeholder : List Char := "\x7bindex\x7d".toList

/-- Replace every placeholder by these digits; `skip` characters still belong to the last one. -/
def substitute (digits : List Char) : Nat → List Char → List Char
  | _, [] => []
  | skip + 1, _ :: cs => substitute digits skip cs
  | 0, c :: cs =>
    if placeholder.isPrefixOf (c :: cs) then digits ++ substitute digits (placeholder.length - 1) cs
    else c :: substitute digits 0 cs

/-- The derivation path for an index. -/
def pathFor (s : PathScheme) (index : Nat) : Except AccountError String :=
  match s with
  | .bip44Standard => .ok s!"m/44'/60'/0'/0/{index}"
  | .ledgerLive => .ok s!"m/44'/60'/{index}'/0/0"
  | .custom t =>
    if t.toList.tails.any placeholder.isPrefixOf then
      .ok (String.ofList (substitute (Nat.toDigits 10 index) 0 t.toList))
    else .error (.invalidPath ("custom path template missing `\x7bindex\x7d`: " ++ t))

end PathScheme

/-- A derived account. -/
structure Account where
  index : Nat
  path : String
  address : Address
  label : Option String
  deriving DecidableEq, Repr

/-- What a chain reports of an address. -/
structure AccountActivity where
  nonce : Nat
  balance : Nat
  deriving DecidableEq, Repr

inductive UsedPredicate where
  | nonceOnly
  | nonceOrBalance
  deriving DecidableEq, Repr

/-- Whether one account's activity counts as used. -/
def isUsed (act : AccountActivity) (pred : UsedPredicate) : Bool :=
  0 < act.nonce || (pred = .nonceOrBalance && act.balance ≠ 0)

structure DiscoveryOpts where
  schemes : List PathScheme
  gapLimit : Nat
  maxIndex : Nat
  used : UsedPredicate
  startIndex : Nat

def DiscoveryOpts.default : DiscoveryOpts := ⟨[.bip44Standard], 20, 256, .nonceOrBalance, 0⟩

structure DiscoveredAccounts where
  accounts : List Account
  scannedTo : Nat
  hitMaxIndex : Bool
  partialResult : Bool
  deriving DecidableEq, Repr

/-- `account_activity` of one chain. -/
abbrev Activity := List Address → Except RpcError (List AccountActivity)

/-- The seed, by the addresses it derives, and the labels. -/
structure AccountManager where
  addressAtPath : String → Except AccountError Address
  labels : Nat → Option String

/-- A computation that fails, or panics (`none`). -/
abbrev ScanM := ExceptT AccountError Option

namespace AccountManager

/-- The number of values of `usize`. -/
def usizeSize : Nat := 2 ^ 64

/-- `i + window`. Where it overflows, the scan panics: at once in a build that checks, and in one
that does not when it asks for a vector of the wrapped length `window`, which is too long as long as
`i` is far from the end of `usize`, as every index below `2 ^ 31` is. Nearer to that end such a
build would go on from the wrapped index, which is not modelled. -/
def addUsize (i window : Nat) : ScanM Nat :=
  if i + window < usizeSize then pure (i + window) else ExceptT.mk none

/-- One index of a window. -/
structure Entry where
  index : Nat
  path : String
  address : Address
  deriving DecidableEq, Repr

/-- What a scan has found so far. -/
structure Scan where
  found : List Account
  scannedTo : Nat
  hitMaxIndex : Bool
  partialResult : Bool

/-- Mark the addresses that one chain reports as used. -/
def markUsed (pred : UsedPredicate) : List AccountActivity → List Bool → ScanM (List Bool)
  | [], used => pure used
  | act :: acts, [] => if isUsed act pred then ExceptT.mk none else markUsed pred acts []
  | act :: acts, u :: used => do
    let rest ← markUsed pred acts used
    return (u || isUsed act pred) :: rest

/-- The union over the chains; one that fails only hides usage. -/
def unionUsed (pred : UsedPredicate) (addrs : List Address) :
    List Activity → List Bool × Bool → ScanM (List Bool × Bool)
  | [], acc => pure acc
  | chain :: chains, (used, failed) =>
    match chain addrs with
    | .ok activity => do
      let used ← markUsed pred activity used
      unionUsed pred addrs chains (used, failed)
    | .error _ => unionUsed pred addrs chains (used, true)

/-- `found.entry(address).or_insert(account)`. -/
def orInsert (found : List Account) (account : Account) : List Account :=
  if found.any (·.address = account.address) then found else found ++ [account]

variable (m : AccountManager)

def entry (scheme : PathScheme) (x : Nat) : Except AccountError Entry := do
  let idx := x % 2 ^ 32
  let path ← scheme.pathFor idx
  let address ← m.addressAtPath path
  return ⟨idx, path, address⟩

/-- The account that an entry becomes. -/
def accountOf (e : Entry) : Account := ⟨e.index, e.path, e.address, m.labels e.index⟩

/-- Visit the entries of a window, with the run of unused ones before it. `none` for the run
afterwards: the gap limit is reached and the scheme is left. -/
def visit (gapLimit : Nat) : List (Entry × Bool) → Nat → Scan → Scan × Option Nat
  | [], run, s => (s, some run)
  | (e, used) :: entries, run, s =>
    let s := { s with scannedTo := max s.scannedTo e.index }
    if used then
      visit gapLimit entries 0 { s with found := orInsert s.found (m.accountOf e) }
    else if gapLimit ≤ run + 1 then (s, none)
    else visit gapLimit entries (run + 1) s

/-- The windows of one scheme from index `i` on. A window takes at least one of the indices that
are left. -/
def scanScheme (chains : List Activity) (opts : DiscoveryOpts) (scheme : PathScheme) :
    (left i run : Nat) → Scan → ScanM Scan
  | 0, _, _, s => pure s
  | left + 1, i, run, s =>
    if i < opts.maxIndex then do
      let sum ← addUsize i (max opts.gapLimit 1)
      let stop := min sum opts.maxIndex
      let entries ← ExceptT.mk (some ((List.range' i (stop - i)).mapM (m.entry scheme)))
      let (used, failed) ← unionUsed opts.used (entries.map (·.address)) chains
        (entries.map fun _ => false, s.partialResult)
      match m.visit opts.gapLimit (entries.zip used) run { s with partialResult := failed } with
      | (s, none) => return s
      | (s, some run) =>
        if stop = opts.maxIndex then return { s with hitMaxIndex := true }
        else scanScheme chains opts scheme left stop run s
    else pure s

/-- Scan the seed for used accounts. -/
def discover (chains : List Activity) (opts : DiscoveryOpts) : ScanM DiscoveredAccounts := do
  let s ← opts.schemes.foldlM (fun s scheme =>
    m.scanScheme chains opts scheme (opts.maxIndex - opts.startIndex) opts.startIndex 0 s)
    ⟨[], 0, false, false⟩
  -- the map is in the order of the addresses, which the sort keeps among equal indices
  let values := s.found.mergeSort fun a b => a.address.toNat ≤ b.address.toNat
  return ⟨values.mergeSort fun a b => a.index ≤ b.index, s.scannedTo, s.hitMaxIndex,
    s.partialResult⟩

/-! ### The scan that probes one index at a time -/

/-- The indices probed from `i` on when `left` of them are below the bound, and the run of unused
ones at the bound, unless the gap ended the scan before. -/
def oneByOne (used : Nat → Bool) (gapLimit : Nat) : (left i run : Nat) → List Nat × Option Nat
  | 0, _, run => ([], some run)
  | left + 1, i, run =>
    if used i then
      let rest := oneByOne used gapLimit left (i + 1) 0
      (i :: rest.1, rest.2)
    else if gapLimit ≤ run + 1 then ([i], none)
    else
      let rest := oneByOne used gapLimit left (i + 1) (run + 1)
      (i :: rest.1, rest.2)

/-- A chain whose answer for an address never changes and never fails. -/
def fixed (act : Address → AccountActivity) : Activity := fun addrs => .ok (addrs.map act)

section Reference

variable (acts : List (Address → AccountActivity)) (opts : DiscoveryOpts) (scheme : PathScheme)

/-- Whether some chain has seen the address. -/
def addressUsed (a : Address) : Bool := acts.any fun act => isUsed (act a) opts.used

/-- The account at an index, if it is used. -/
def usedAccount (x : Nat) : Option Account :=
  match m.entry scheme x with
  | .ok e => if addressUsed acts opts e.address then some (m.accountOf e) else none
  | .error _ => none

def used (x : Nat) : Bool := (m.usedAccount acts opts scheme x).isSome

/-- The scan of one scheme. -/
def probe : List Nat × Option Nat :=
  oneByOne (m.used acts opts scheme) opts.gapLimit (opts.maxIndex - opts.startIndex)
    opts.startIndex 0

/-- The first index of the window that `x` lies in. -/
def windowStart (i x : Nat) : Nat := i + (x - i) / max opts.gapLimit 1 * max opts.gapLimit 1

/-- Discovery derives an address for `x`: the scan gets to the window of `x`. -/
def Probed (x : Nat) : Prop :=
  opts.startIndex ≤ x ∧ x < opts.maxIndex ∧
    windowStart opts opts.startIndex x ∈ (m.probe acts opts scheme).1

/-- The used accounts that the scans meet, scheme by scheme and by index. -/
def hits : List Account :=
  opts.schemes.flatMap fun scheme =>
    (m.probe acts opts scheme).1.filterMap (m.usedAccount acts opts scheme)

/-- The first of the list with its address. -/
def FirstOf (l : List Account) (a : Account) : Prop :=
  ∃ before after, l = before ++ a :: after ∧ ∀ b ∈ before, b.address ≠ a.address

/-- The result says what the one-by-one scan finds. -/
structure Agrees (r : DiscoveredAccounts) : Prop where
  accounts : ∀ a, a ∈ r.accounts ↔ FirstOf (m.hits acts opts) a
  distinct : (r.accounts.map (·.address)).Nodup
  sorted : r.accounts.Pairwise (·.index ≤ ·.index)
  scannedTo : r.scannedTo =
    (opts.schemes.flatMap fun scheme => (m.probe acts opts scheme).1).foldl max 0
  hitMaxIndex : r.hitMaxIndex = opts.schemes.any fun scheme => (m.probe acts opts scheme).2.isSome

end Reference

/-! ### One window -/

theorem markUsed_map (pred : UsedPredicate) (act : Address → AccountActivity)
    (addrs : List Address) (f : Address → Bool) :
    markUsed pred (addrs.map act) (addrs.map f) =
      pure (addrs.map fun a => f a || isUsed (act a) pred) := by
  induction addrs with
  | nil => rfl
  | cons a addrs ih =>
    simp only [List.map_cons, markUsed, ih, pure_bind]

theorem unionUsed_fixed (pred : UsedPredicate) (addrs : List Address) (failed : Bool)
    (acts : List (Address → AccountActivity)) (f : Address → Bool) :
    unionUsed pred addrs (acts.map fixed) (addrs.map f, failed) =
      pure (addrs.map fun a => f a || acts.any fun act => isUsed (act a) pred, failed) := by
  induction acts generalizing f with
  | nil => simp [unionUsed]
  | cons act acts ih =>
    simp only [List.map_cons, unionUsed, fixed, markUsed_map, pure_bind, ih, List.any_cons,
      Bool.or_assoc]

theorem ok_bind {α β : Type} (a : α) (f : α → ScanM β) :
    (ExceptT.mk (some (.ok a)) : ScanM α) >>= f = f a := rfl

/-- What a scan knows after probing the indices. -/
def record (f : Nat → Option Account) (s : Scan) (visited : List Nat) : Scan :=
  { s with
    found := (visited.filterMap f).foldl orInsert s.found
    scannedTo := visited.foldl max s.scannedTo }

/-- Probing goes on at a window's end with the run it carries over. -/
theorem oneByOne_add (used : Nat → Bool) (gapLimit n k i run : Nat) :
    oneByOne used gapLimit (n + k) i run =
      match oneByOne used gapLimit n i run with
      | (visited, none) => (visited, none)
      | (visited, some run) =>
        (visited ++ (oneByOne used gapLimit k (i + n) run).1,
          (oneByOne used gapLimit k (i + n) run).2) := by
  induction n generalizing i run with
  | zero => simp [oneByOne]
  | succ n ih =>
    rw [Nat.add_right_comm]
    simp only [oneByOne, ih, Nat.add_assoc, Nat.add_comm 1 n]
    by_cases hu : used i
    · simp only [hu, if_true]
      rcases oneByOne used gapLimit n (i + 1) 0 with ⟨visited, _ | run⟩ <;> rfl
    · by_cases hg : gapLimit ≤ run + 1
      · simp [hu, hg]
      · simp only [hu, hg, if_false, Bool.false_eq_true]
        rcases oneByOne used gapLimit n (i + 1) (run + 1) with ⟨visited, _ | run⟩ <;> rfl

theorem mem_oneByOne {used : Nat → Bool} {gapLimit left i run : Nat} (h : 0 < left) :
    i ∈ (oneByOne used gapLimit left i run).1 := by
  obtain ⟨left, rfl⟩ := Nat.exists_eq_succ_of_ne_zero h.ne'
  simp only [oneByOne]
  split_ifs <;> simp

variable {m} {acts : List (Address → AccountActivity)} {opts : DiscoveryOpts} {scheme : PathScheme}

theorem entry_index {x : Nat} {e : Entry} (h : m.entry scheme x = .ok e) (hx : x < 2 ^ 32) :
    e.index = x := by
  simp only [entry, Nat.mod_eq_of_lt hx, bind, Except.bind] at h
  cases hp : scheme.pathFor x with
  | error err => simp [hp] at h
  | ok path =>
    cases ha : m.addressAtPath path with
    | error err => simp [hp, ha] at h
    | ok address =>
      simp only [hp, ha, pure, Except.pure, Except.ok.injEq] at h
      rw [← h]

theorem mapM_entry_cons {x : Nat} {xs : List Nat} {entries : List Entry}
    (h : (x :: xs).mapM (m.entry scheme) = .ok entries) :
    ∃ e es, m.entry scheme x = .ok e ∧ xs.mapM (m.entry scheme) = .ok es ∧ entries = e :: es := by
  rw [List.mapM_cons] at h
  cases he : m.entry scheme x with
  | error err => rw [he] at h; cases h
  | ok e =>
    cases hes : xs.mapM (m.entry scheme) with
    | error err => rw [he, hes] at h; cases h
    | ok es => rw [he, hes] at h; cases h; exact ⟨e, es, rfl, rfl, rfl⟩

theorem exists_mapM_entry {xs : List Nat} (h : ∀ x ∈ xs, ∃ e, m.entry scheme x = .ok e) :
    ∃ entries, xs.mapM (m.entry scheme) = .ok entries := by
  induction xs with
  | nil => exact ⟨[], rfl⟩
  | cons x xs ih =>
    obtain ⟨e, he⟩ := h x (by simp)
    obtain ⟨es, hes⟩ := ih fun x hx => h x (by simp [hx])
    exact ⟨e :: es, by rw [List.mapM_cons, he, hes]; rfl⟩

/-- Visiting a window is probing its indices one by one. -/
theorem visit_eq (m : AccountManager) (acts : List (Address → AccountActivity))
    (opts : DiscoveryOpts) {n i : Nat} {entries : List Entry} (run : Nat) (s : Scan)
    (h : (List.range' i n).mapM (m.entry scheme) = .ok entries) (hn : i + n ≤ 2 ^ 32) :
    m.visit opts.gapLimit (entries.zip (entries.map fun e => addressUsed acts opts e.address))
        run s =
      (record (m.usedAccount acts opts scheme) s
        (oneByOne (m.used acts opts scheme) opts.gapLimit n i run).1,
        (oneByOne (m.used acts opts scheme) opts.gapLimit n i run).2) := by
  induction n generalizing i entries run s with
  | zero =>
    cases h
    rfl
  | succ n ih =>
    rw [List.range'_succ] at h
    obtain ⟨e, es, he, hes, rfl⟩ := mapM_entry_cons h
    have hidx : e.index = i := entry_index he (by omega)
    simp only [List.map_cons, List.zip_cons_cons, visit, oneByOne, used, usedAccount, he]
    by_cases hu : addressUsed acts opts e.address
    · simp [hu, ih 0 _ hes (by omega), record, usedAccount, he, hidx]
    · by_cases hg : opts.gapLimit ≤ run + 1
      · simp [hu, hg, record, usedAccount, he, hidx]
      · simp [hu, hg, ih _ _ hes (by omega), record, usedAccount, he, hidx]

/-! ### One scheme -/

theorem windowStart_first {i x : Nat} (hi : i ≤ x) (hx : x < i + max opts.gapLimit 1) :
    windowStart opts i x = i := by
  rw [windowStart, Nat.div_eq_of_lt (by omega), Nat.zero_mul, Nat.add_zero]

theorem windowStart_next {i x : Nat} (hx : i + max opts.gapLimit 1 ≤ x) :
    windowStart opts i x = windowStart opts (i + max opts.gapLimit 1) x := by
  have hw : 0 < max opts.gapLimit 1 := by omega
  have hsub : x - i = (x - (i + max opts.gapLimit 1)) + max opts.gapLimit 1 := by omega
  rw [windowStart, windowStart, hsub, Nat.add_div_right _ hw, Nat.succ_mul]
  omega

/-- The windows of a scheme probe what the one-by-one scan probes. -/
theorem scanScheme_eq (hmax : opts.maxIndex < 2 ^ 31) {left i run : Nat} {s : Scan}
    (hi : i < opts.maxIndex) (hleft : opts.maxIndex - i ≤ left)
    (hfit : i + max opts.gapLimit 1 < usizeSize)
    (hderive : ∀ x, i ≤ x → x < opts.maxIndex →
      windowStart opts i x ∈
        (oneByOne (m.used acts opts scheme) opts.gapLimit (opts.maxIndex - i) i run).1 →
      ∃ e, m.entry scheme x = .ok e) :
    m.scanScheme (acts.map fixed) opts scheme left i run s =
      pure { record (m.usedAccount acts opts scheme) s
          (oneByOne (m.used acts opts scheme) opts.gapLimit (opts.maxIndex - i) i run).1 with
        hitMaxIndex := s.hitMaxIndex || (oneByOne (m.used acts opts scheme) opts.gapLimit
          (opts.maxIndex - i) i run).2.isSome } := by
  -- the scan so far is at the start of a window, with the run that the one-by-one scan has there
  induction left generalizing i run s with
  | zero => omega
  | succ left ih =>
    obtain ⟨stop, hstop⟩ : ∃ stop, stop = min (i + max opts.gapLimit 1) opts.maxIndex := ⟨_, rfl⟩
    obtain ⟨entries, hentries⟩ :
        ∃ entries, (List.range' i (stop - i)).mapM (m.entry scheme) = .ok entries := by
      refine exists_mapM_entry fun x hx => ?_
      rw [List.mem_range'_1] at hx
      refine hderive x hx.1 (by omega) ?_
      rw [windowStart_first hx.1 (by omega)]
      exact mem_oneByOne (by omega)
    have hsplit : opts.maxIndex - i = (stop - i) + (opts.maxIndex - stop) := by omega
    have hnext : i + (stop - i) = stop := by omega
    have hused : (entries.map fun _ => false) = (entries.map (·.address)).map fun _ => false := by
      rw [List.map_map]; rfl
    rw [hsplit, oneByOne_add, hnext] at hderive ⊢
    simp only [scanScheme, hi, if_true, addUsize, hfit, pure_bind, ← hstop, hentries, ok_bind]
    rw [hused, unionUsed_fixed]
    simp only [pure_bind, Bool.false_or, List.map_map, Function.comp_def]
    have hvisit := m.visit_eq acts opts run s hentries (by omega)
    simp only [addressUsed] at hvisit
    rw [hvisit]
    rcases hprobe : oneByOne (m.used acts opts scheme) opts.gapLimit (stop - i) i run with
      ⟨visited, _ | run'⟩
    · simp [record]
    · rw [hprobe] at hderive
      simp only at hderive ⊢
      by_cases hend : stop = opts.maxIndex
      · simp [hend, oneByOne, record]
      · have hfull : stop = i + max opts.gapLimit 1 := by omega
        have hwindow : stop + max opts.gapLimit 1 < usizeSize := by
          rw [usizeSize]
          omega
        rw [if_neg hend, ih (by omega) (by omega) hwindow]
        · simp [record]
        · intro x hx hlt hmem
          refine hderive x (by omega) hlt (List.mem_append_right _ ?_)
          rw [windowStart_next (by omega), ← hfull]
          exact hmem

/-- A first window past the end of `usize` stops everything. -/
theorem discover_panics {chains : List Activity} (hschemes : opts.schemes ≠ [])
    (hstart : opts.startIndex < opts.maxIndex)
    (hfit : ¬opts.startIndex + max opts.gapLimit 1 < usizeSize) :
    m.discover chains opts = ExceptT.mk none := by
  obtain ⟨scheme, schemes, hschemes⟩ := List.exists_cons_of_ne_nil hschemes
  obtain ⟨left, hleft⟩ : ∃ left, opts.maxIndex - opts.startIndex = left + 1 :=
    ⟨_, (Nat.succ_pred_eq_of_pos (by omega)).symm⟩
  rw [discover, hschemes, List.foldlM_cons, hleft, scanScheme, if_pos hstart, addUsize,
    if_neg hfit]
  rfl

/-! ### All schemes -/

theorem firstOf_cons {c a : Account} {l : List Account} :
    FirstOf (c :: l) a ↔ a = c ∨ c.address ≠ a.address ∧ FirstOf l a := by
  constructor
  · rintro ⟨_ | ⟨b, before⟩, after, hl, hbefore⟩
    · exact .inl (List.cons.inj hl).1.symm
    · obtain ⟨rfl, rfl⟩ := List.cons.inj hl
      exact .inr ⟨hbefore _ (by simp), before, after, rfl, fun b hb => hbefore b (by simp [hb])⟩
  · rintro (rfl | ⟨hc, before, after, rfl, hbefore⟩)
    · exact ⟨[], l, rfl, by simp⟩
    · exact ⟨c :: before, after, rfl, List.forall_mem_cons.mpr ⟨hc, hbefore⟩⟩

theorem mem_orInsert {found : List Account} {c a : Account} :
    a ∈ orInsert found c ↔ a ∈ found ∨ a = c ∧ ∀ b ∈ found, b.address ≠ a.address := by
  unfold orInsert
  split_ifs with h
  · obtain ⟨b, hb, hbc⟩ := List.any_eq_true.mp h
    refine ⟨.inl, fun h => h.elim id ?_⟩
    rintro ⟨rfl, hnone⟩
    exact absurd (of_decide_eq_true hbc) (hnone b hb)
  · have hnone : ∀ b ∈ found, b.address ≠ c.address := by simpa using h
    rw [List.mem_append, List.mem_singleton]
    refine or_congr_right ⟨?_, And.left⟩
    rintro rfl
    exact ⟨rfl, hnone⟩

theorem forall_mem_orInsert {found : List Account} {c : Account} {x : Address} :
    (∀ b ∈ orInsert found c, b.address ≠ x) ↔
      (∀ b ∈ found, b.address ≠ x) ∧ c.address ≠ x := by
  constructor
  · refine fun h => ⟨fun b hb => h b (mem_orInsert.mpr (.inl hb)), ?_⟩
    by_cases hc : ∀ b ∈ found, b.address ≠ c.address
    · exact h c (mem_orInsert.mpr (.inr ⟨rfl, hc⟩))
    · push Not at hc
      obtain ⟨b, hb, hbc⟩ := hc
      exact hbc ▸ h b (mem_orInsert.mpr (.inl hb))
  · rintro ⟨hfound, hc⟩ b hb
    rcases mem_orInsert.mp hb with hb | ⟨rfl, -⟩
    · exact hfound b hb
    · exact hc

/-- Inserting keeps the first account of each address. -/
theorem mem_foldl_orInsert {l found : List Account} {a : Account} :
    a ∈ l.foldl orInsert found ↔
      a ∈ found ∨ (∀ b ∈ found, b.address ≠ a.address) ∧ FirstOf l a := by
  induction l generalizing found with
  | nil => simp [FirstOf]
  | cons c l ih =>
    rw [List.foldl_cons, ih, mem_orInsert, forall_mem_orInsert, firstOf_cons]
    tauto

theorem nodup_foldl_orInsert {l found : List Account} (h : (found.map (·.address)).Nodup) :
    ((l.foldl orInsert found).map (·.address)).Nodup := by
  induction l generalizing found with
  | nil => exact h
  | cons c l ih =>
    refine ih ?_
    unfold orInsert
    split_ifs with hc
    · exact h
    · have hnone : ∀ b ∈ found, b.address ≠ c.address := by simpa using hc
      rw [List.map_append, List.map_singleton, ← List.concat_eq_append]
      refine h.concat fun hmem => ?_
      obtain ⟨b, hb, hbc⟩ := List.mem_map.mp hmem
      exact hnone b hb hbc

/-- The schemes one after the other, each with what the ones before it found. -/
theorem foldlM_scanScheme (hstart : opts.startIndex < opts.maxIndex)
    (hmax : opts.maxIndex < 2 ^ 31) (hfit : opts.startIndex + max opts.gapLimit 1 < usizeSize)
    {schemes : List PathScheme} {s : Scan}
    (hderive : ∀ scheme ∈ schemes, ∀ x, m.Probed acts opts scheme x →
      ∃ e, m.entry scheme x = .ok e) :
    schemes.foldlM (fun s scheme => m.scanScheme (acts.map fixed) opts scheme
        (opts.maxIndex - opts.startIndex) opts.startIndex 0 s) s =
      pure { s with
        found := (schemes.flatMap fun scheme => (m.probe acts opts scheme).1.filterMap
          (m.usedAccount acts opts scheme)).foldl orInsert s.found
        scannedTo :=
          (schemes.flatMap fun scheme => (m.probe acts opts scheme).1).foldl max s.scannedTo
        hitMaxIndex := s.hitMaxIndex ||
          schemes.any fun scheme => (m.probe acts opts scheme).2.isSome } := by
  induction schemes generalizing s with
  | nil => simp
  | cons scheme schemes ih =>
    rw [List.foldlM_cons, scanScheme_eq hmax hstart le_rfl hfit
        fun x hx hlt hmem => hderive scheme (by simp) x ⟨hx, hlt, hmem⟩, pure_bind,
      ih fun scheme hs => hderive scheme (by simp [hs])]
    simp [record, probe, Bool.or_assoc]

/-- The scan that the one-by-one scans amount to. -/
def scanned (m : AccountManager) (acts : List (Address → AccountActivity)) (opts : DiscoveryOpts) :
    Scan where
  found := (m.hits acts opts).foldl orInsert []
  scannedTo := (opts.schemes.flatMap fun scheme => (m.probe acts opts scheme).1).foldl max 0
  hitMaxIndex := opts.schemes.any fun scheme => (m.probe acts opts scheme).2.isSome
  partialResult := false

/-- Sorting its accounts gives the result of the one-by-one scan. -/
theorem agrees_of_scanned :
    m.Agrees acts opts
      ⟨((m.scanned acts opts).found.mergeSort fun a b =>
          a.address.toNat ≤ b.address.toNat).mergeSort fun a b => a.index ≤ b.index,
        (m.scanned acts opts).scannedTo, (m.scanned acts opts).hitMaxIndex,
        (m.scanned acts opts).partialResult⟩ := by
  have hperm := (List.mergeSort_perm ((m.scanned acts opts).found.mergeSort
    fun a b => a.address.toNat ≤ b.address.toNat) fun a b => a.index ≤ b.index).trans
    (List.mergeSort_perm (m.scanned acts opts).found fun a b => a.address.toNat ≤ b.address.toNat)
  refine ⟨fun a => ?_, ?_, ?_, rfl, rfl⟩
  · rw [hperm.mem_iff, scanned, mem_foldl_orInsert]
    simp
  · exact (hperm.map _).nodup_iff.mpr (nodup_foldl_orInsert List.nodup_nil)
  · have hle : ∀ a b c : Account, decide (a.index ≤ b.index) → decide (b.index ≤ c.index) →
        decide (a.index ≤ c.index) := fun a b c => by simpa using Nat.le_trans
    have htotal : ∀ a b : Account, decide (a.index ≤ b.index) || decide (b.index ≤ a.index) :=
      fun a b => by simpa using Nat.le_total _ _
    simpa using List.pairwise_mergeSort hle htotal
      ((m.scanned acts opts).found.mergeSort fun a b => a.address.toNat ≤ b.address.toNat)

/-- Discovery finds what the one-by-one scan finds, exactly when the end of its first window is a
`usize`. -/
theorem discover_matches_one_by_one (m : AccountManager) (acts : List (Address → AccountActivity))
    (opts : DiscoveryOpts) (hstart : opts.startIndex < opts.maxIndex)
    (hmax : opts.maxIndex < 2 ^ 31)
    (hderive : ∀ scheme ∈ opts.schemes, ∀ x, m.Probed acts opts scheme x →
      ∃ e, m.entry scheme x = .ok e) :
    (∃ r, m.discover (acts.map fixed) opts = pure r ∧ m.Agrees acts opts r) ↔
      opts.schemes = [] ∨ opts.startIndex + max opts.gapLimit 1 < usizeSize := by
  constructor
  · rintro ⟨r, hr, -⟩
    by_contra hnot
    rw [not_or] at hnot
    rw [discover_panics hnot.1 hstart hnot.2] at hr
    cases hr
  · intro hfit
    have hscan : opts.schemes.foldlM (fun s scheme => m.scanScheme (acts.map fixed) opts scheme
        (opts.maxIndex - opts.startIndex) opts.startIndex 0 s) ⟨[], 0, false, false⟩ =
        pure (m.scanned acts opts) := by
      rcases hfit with hnil | hfit
      · simp [scanned, hits, hnil]
      · rw [foldlM_scanScheme hstart hmax hfit hderive]
        simp [scanned, hits]
    refine ⟨_, by rw [discover, hscan, pure_bind], ?_⟩
    exact agrees_of_scanned

/-- A seed that derives an address from the last digit of a path. -/
def digitSeed : AccountManager where
  addressAtPath path := .ok (BitVec.ofNat 160 ((path.toList.getLast?.map Char.toNat).getD 0))
  labels _ := none

/-- The chain on which indices 0, 1 and 4 of that seed are used. -/
def gappy (a : Address) : AccountActivity :=
  if a.toNat = '0'.toNat ∨ a.toNat = '1'.toNat ∨ a.toNat = '4'.toNat then ⟨1, 0⟩ else ⟨0, 0⟩

/-- Windows of three: the gap of 2 and 3 lies across the first two of them. -/
def gapOpts : DiscoveryOpts := { DiscoveryOpts.default with gapLimit := 3, maxIndex := 10 }

theorem discover_matches_one_by_one_gap :
    ((digitSeed.scanScheme [fixed gappy] gapOpts .bip44Standard 10 0 0
      ⟨[], 0, false, false⟩).run.any fun s => s.toOption.any fun s =>
        s.found.map (·.index) = [0, 1, 4] ∧ s.scannedTo = 7 ∧ s.hitMaxIndex = false) ∧
    ∃ r, digitSeed.discover ([gappy].map fixed) gapOpts = pure r ∧
      digitSeed.Agrees [gappy] gapOpts r := by
  refine ⟨by decide +kernel, (discover_matches_one_by_one digitSeed [gappy] gapOpts (by decide)
    (by decide) fun scheme hs x _ => ?_).mpr (.inr (by decide))⟩
  obtain rfl := List.mem_singleton.mp hs
  exact ⟨_, rfl⟩

/-- A seed that derives a different address for each length of path. -/
def lengthSeed : AccountManager := ⟨fun path => .ok (BitVec.ofNat 160 path.length), fun _ => none⟩

/-- A scan that resumes at index 1 with no gap limit to speak of. -/
def endlessOpts : DiscoveryOpts := ⟨[.bip44Standard], 2 ^ 64 - 1, 2, .nonceOrBalance, 1⟩

theorem discover_panics_without_gap :
    endlessOpts.startIndex < endlessOpts.maxIndex ∧ endlessOpts.maxIndex < 2 ^ 31 ∧
      (∀ scheme ∈ endlessOpts.schemes, ∀ x, lengthSeed.Probed [] endlessOpts scheme x →
        ∃ e, lengthSeed.entry scheme x = .ok e) ∧
      ¬∃ r, lengthSeed.discover ([].map fixed) endlessOpts = pure r ∧
        lengthSeed.Agrees [] endlessOpts r := by
  refine ⟨by decide, by decide, fun scheme hs x _ => ?_, ?_⟩
  · obtain rfl := List.mem_singleton.mp hs
    exact ⟨_, rfl⟩
  · rintro ⟨r, hr, -⟩
    rw [discover_panics (by simp [endlessOpts]) (by decide) (by decide)] at hr
    cases hr

end AccountManager

end WalletKit
