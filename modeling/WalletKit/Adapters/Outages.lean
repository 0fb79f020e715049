import WalletKit.Adapters.Accounts
import WalletKit.Machine.Trace

/-!
# Account discovery while chains fail

`AccountManager::discover` as a program whose calls are the batches it sends to the chains. Run
with chains that answer, it computes what `discover` does. A call that fails leaves its window
looking less used, which can only lengthen the run of unused indices: a scan in which some calls
fail is compared, window by window, with the one in which none does. It finds fewer addresses and
stops no later, and it says so.
-/
namespace WalletKit

open Machine

namespace AccountManager

/-- A batch of accounts that is sent to one of the chains. -/
structure ActivityCall (C : Type) where
  chain : C
  accounts : List Address

abbrev activityPort (C : Type) : Interface :=
  ⟨ActivityCall C, fun _ => Except RpcError (List AccountActivity)⟩

abbrev ScanIo (C : Type) := ExceptT AccountError (Prog (activityPort C))

section Program

variable {C α β : Type}

/-- A part of the scan that makes no call; where it panics, the scan ends. -/
def silent (x : ScanM α) : ScanIo C α :=
  ExceptT.mk (match x.run with
    | some r => .ret r
    | none => .halt)

theorem silent_pure (a : α) : (silent (pure a) : ScanIo C α) = pure a := rfl

theorem silent_ok (a : α) : (silent (ExceptT.mk (some (.ok a))) : ScanIo C α) = pure a := rfl

/-- `unionUsed`, chain by chain. -/
def unionUsedCalls (pred : UsedPredicate) (addrs : List Address) :
    List C → List Bool × Bool → ScanIo C (List Bool × Bool)
  | [], acc => pure acc
  | chain :: chains, (used, failed) => do
    let reply ← ExceptT.lift (Prog.perform (E := activityPort C) ⟨chain, addrs⟩)
    match reply with
    | .ok activity => do
      let used ← silent (markUsed pred activity used)
      unionUsedCalls pred addrs chains (used, failed)
    | .error _ => unionUsedCalls pred addrs chains (used, true)

variable (m : AccountManager)

/-- `scanScheme`, with its calls. -/
def scanSchemeCalls (chains : List C) (opts : DiscoveryOpts) (scheme : PathScheme) :
    (left i run : Nat) → Scan → ScanIo C Scan
  | 0, _, _, s => pure s
  | left + 1, i, run, s =>
    if i < opts.maxIndex then do
      let sum ← silent (addUsize i (max opts.gapLimit 1))
      let stop := min sum opts.maxIndex
      let entries ← silent (ExceptT.mk (some ((List.range' i (stop - i)).mapM (m.entry scheme))))
      let (used, failed) ← unionUsedCalls opts.used (entries.map (·.address)) chains
        (entries.map fun _ => false, s.partialResult)
      match m.visit opts.gapLimit (entries.zip used) run { s with partialResult := failed } with
      | (s, none) => return s
      | (s, some run) =>
        if stop = opts.maxIndex then return { s with hitMaxIndex := true }
        else scanSchemeCalls chains opts scheme left stop run s
    else pure s

/-- `discover`, with its calls. -/
def discoverCalls (chains : List C) (opts : DiscoveryOpts) : ScanIo C DiscoveredAccounts := do
  let s ← opts.schemes.foldlM (fun s scheme =>
    m.scanSchemeCalls chains opts scheme (opts.maxIndex - opts.startIndex) opts.startIndex 0 s)
    ⟨[], 0, false, false⟩
  let values := s.found.mergeSort fun a b => a.address.toNat ≤ b.address.toNat
  return ⟨values.mergeSort fun a b => a.index ≤ b.index, s.scannedTo, s.hitMaxIndex,
    s.partialResult⟩

/-! ### Chains that answer from the batch alone -/

/-- The scan, answered by chains whose answers depend on the batch alone. -/
def answered (chainOf : C → Activity) (x : ScanIo C α) : ScanM α :=
  ExceptT.mk (x.run.eval fun o : ActivityCall C => some (chainOf o.chain o.accounts))

variable (chainOf : C → Activity)

theorem answered_bind (x : ScanIo C α) (f : α → ScanIo C β) :
    answered chainOf (x >>= f) = answered chainOf x >>= fun a => answered chainOf (f a) := by
  refine ExceptT.ext ?_
  rw [ExceptT.run_bind]
  simp only [answered, ExceptT.run_mk, ExceptT.run_bind, Prog.eval_bind]
  refine congrArg (Option.bind _) (funext fun r => ?_)
  cases r <;> rfl

theorem answered_silent (x : ScanM α) : answered chainOf (silent x) = x := by
  unfold answered silent
  change ExceptT.mk (Prog.eval _ (match x.run with | some r => .ret r | none => .halt)) = x
  cases h : x.run with
  | none => exact h.symm
  | some r => exact h.symm

theorem answered_unionUsedCalls (pred : UsedPredicate) (addrs : List Address) (chains : List C)
    (acc : List Bool × Bool) :
    answered chainOf (unionUsedCalls pred addrs chains acc) =
      unionUsed pred addrs (chains.map chainOf) acc := by
  induction chains generalizing acc with
  | nil => rfl
  | cons chain chains ih =>
    obtain ⟨used, failed⟩ := acc
    rw [unionUsedCalls, answered_bind, List.map_cons, unionUsed]
    have hcall : answered chainOf (ExceptT.lift (Prog.perform (E := activityPort C)
        ⟨chain, addrs⟩)) = pure (chainOf chain addrs) := rfl
    rw [hcall, pure_bind]
    cases chainOf chain addrs with
    | ok activity =>
      dsimp only
      rw [answered_bind, answered_silent]
      exact congrArg _ (funext fun used => ih (used, failed))
    | error e => exact ih (used, true)

variable {chainOf}

theorem answered_scanSchemeCalls (chains : List C) (opts : DiscoveryOpts) (scheme : PathScheme)
    (left i run : Nat) (s : Scan) :
    answered chainOf (m.scanSchemeCalls chains opts scheme left i run s) =
      m.scanScheme (chains.map chainOf) opts scheme left i run s := by
  induction left generalizing i run s with
  | zero => rfl
  | succ left ih =>
    rw [scanSchemeCalls, scanScheme]
    split
    · rw [answered_bind, answered_silent]
      refine congrArg _ (funext fun sum => ?_)
      rw [answered_bind, answered_silent]
      refine congrArg _ (funext fun entries => ?_)
      rw [answered_bind, answered_unionUsedCalls]
      refine congrArg _ (funext fun r => ?_)
      obtain ⟨used, failed⟩ := r
      dsimp only
      rcases m.visit opts.gapLimit (entries.zip used) run { s with partialResult := failed } with
        ⟨s', _ | run'⟩
      · rfl
      · dsimp only
        split
        · rfl
        · exact ih _ _ _
    · rfl

/-- The program is `discover`. -/
theorem answered_discoverCalls (chains : List C) (opts : DiscoveryOpts) :
    answered chainOf (m.discoverCalls chains opts) = m.discover (chains.map chainOf) opts := by
  have hfold (schemes : List PathScheme) (s : Scan) :
      answered chainOf (schemes.foldlM (fun s scheme => m.scanSchemeCalls chains opts scheme
          (opts.maxIndex - opts.startIndex) opts.startIndex 0 s) s) =
        schemes.foldlM (fun s scheme => m.scanScheme (chains.map chainOf) opts scheme
          (opts.maxIndex - opts.startIndex) opts.startIndex 0 s) s := by
    induction schemes generalizing s with
    | nil => rfl
    | cons scheme schemes ih =>
      rw [List.foldlM_cons, List.foldlM_cons, answered_bind, answered_scanSchemeCalls]
      exact congrArg _ (funext ih)
  rw [discoverCalls, discover, answered_bind, hfold]
  rfl

end Program

/-! ### A scan with failures and one without -/

/-- Fewer addresses are found, and the scan got less far. -/
structure Below (s t : Scan) : Prop where
  found : s.found.map (·.address) ⊆ t.found.map (·.address)
  scannedTo : s.scannedTo ≤ t.scannedTo

namespace Below

theorem refl (s : Scan) : Below s s := ⟨fun _ h => h, le_rfl⟩

theorem trans {s t u : Scan} (h : Below s t) (h' : Below t u) : Below s u :=
  ⟨fun _ ha => h'.found (h.found ha), h.scannedTo.trans h'.scannedTo⟩

end Below

theorem mem_map_orInsert {found : List Account} {c : Account} {x : Address} :
    x ∈ (orInsert found c).map (·.address) ↔ x ∈ found.map (·.address) ∨ x = c.address := by
  rw [← not_iff_not, not_or]
  simpa [eq_comm] using @forall_mem_orInsert found c x

section Windows

variable {m : AccountManager}

namespace Below

variable {s t : Scan}

/-- An index is visited. -/
theorem reach (h : Below s t) (index : Nat) :
    Below { s with scannedTo := max s.scannedTo index }
      { t with scannedTo := max t.scannedTo index } :=
  ⟨h.found, max_le_max h.scannedTo le_rfl⟩

/-- An account is found. -/
theorem insert (h : Below s t) (c : Account) :
    Below { s with found := orInsert s.found c } { t with found := orInsert t.found c } := by
  refine ⟨fun x hx => mem_map_orInsert.mpr ?_, h.scannedTo⟩
  exact (mem_map_orInsert.mp hx).imp_left fun hx => h.found hx

/-- An account is hidden. -/
theorem insert_right (h : Below s t) (c : Account) :
    Below s { t with found := orInsert t.found c } :=
  ⟨fun _ hx => mem_map_orInsert.mpr (.inl (h.found hx)), h.scannedTo⟩

end Below

theorem below_visit (gapLimit : Nat) (entries : List (Entry × Bool)) (run : Nat) (s : Scan) :
    Below s (m.visit gapLimit entries run s).1 := by
  induction entries generalizing run s with
  | nil => exact .refl s
  | cons p entries ih =>
    obtain ⟨e, used⟩ := p
    have hreach : Below s { s with scannedTo := max s.scannedTo e.index } :=
      ⟨fun _ h => h, le_max_left _ _⟩
    simp only [visit]
    split_ifs
    · exact (hreach.insert_right _).trans (ih _ _)
    · exact hreach
    · exact hreach.trans (ih _ _)

/-- Where less looks used and the run of unused ones is longer, a window is left no later, with
less found. -/
theorem visit_below (gapLimit : Nat) {u v : Entry → Bool} (huv : ∀ e, u e → v e)
    (entries : List Entry) {run run' : Nat} {s s' : Scan} (hrun : run ≤ run') (hs : Below s' s) :
    Below (m.visit gapLimit (entries.map fun e => (e, u e)) run' s').1
        (m.visit gapLimit (entries.map fun e => (e, v e)) run s).1 ∧
      ∀ n', (m.visit gapLimit (entries.map fun e => (e, u e)) run' s').2 = some n' →
        ∃ n, (m.visit gapLimit (entries.map fun e => (e, v e)) run s).2 = some n ∧ n ≤ n' := by
  induction entries generalizing run run' s s' with
  | nil => exact ⟨hs, fun n' hn' => ⟨run, rfl, (Option.some.inj hn') ▸ hrun⟩⟩
  | cons e entries ih =>
    have hreach := hs.reach e.index
    simp only [List.map_cons, visit]
    by_cases hu : u e
    · simp only [hu, huv e hu, if_true]
      exact ih le_rfl (hreach.insert _)
    by_cases hv : v e
    · simp only [hu, hv, if_true, if_false, Bool.false_eq_true]
      by_cases hg : gapLimit ≤ run' + 1
      · rw [if_pos hg]
        exact ⟨(hreach.insert_right _).trans (below_visit _ _ _ _), by simp⟩
      · rw [if_neg hg]
        exact ih (Nat.zero_le _) (hreach.insert_right _)
    · simp only [hu, hv, if_false, Bool.false_eq_true]
      by_cases hg : gapLimit ≤ run' + 1
      · rw [if_pos hg]
        refine ⟨?_, by simp⟩
        split_ifs
        · exact hreach
        · exact hreach.trans (below_visit _ _ _ _)
      · rw [if_neg hg, if_neg (by omega)]
        exact ih (Nat.succ_le_succ hrun) hreach

theorem pure_inj {α : Type} {a b : α} (h : (pure a : ScanM α) = pure b) : a = b :=
  Except.ok.inj (Option.some.inj (congrArg ExceptT.run h))

theorem bind_eq_pure {α β : Type} {x : ScanM α} {f : α → ScanM β} {b : β}
    (h : x >>= f = pure b) : ∃ a, x = pure a ∧ f a = pure b := by
  have hrun := congrArg ExceptT.run h
  rw [ExceptT.run_bind] at hrun
  cases hx : x.run with
  | none =>
    rw [hx] at hrun
    cases hrun
  | some r =>
    rw [hx] at hrun
    cases r with
    | error e => cases hrun
    | ok a => exact ⟨a, ExceptT.ext hx, ExceptT.ext hrun⟩

section Scheme

variable {chains : List Activity} {opts : DiscoveryOpts} {scheme : PathScheme} {t : Scan}

/-- How a scan that returns `t` goes on from what it knows at the end of a window. -/
def GoesOn (m : AccountManager) (chains : List Activity) (opts : DiscoveryOpts)
    (scheme : PathScheme) (left stop : Nat) (t : Scan) : Scan × Option Nat → Prop
  | (s, none) => s = t
  | (s, some run) =>
    if stop = opts.maxIndex then { s with hitMaxIndex := true } = t
    else m.scanScheme chains opts scheme left stop run s = pure t

/-- The first window of a scan that returns. -/
theorem scanScheme_cases {left i run : Nat} {s : Scan} (hi : i < opts.maxIndex)
    (h : m.scanScheme chains opts scheme (left + 1) i run s = pure t) :
    ∃ sum entries used failed, addUsize i (max opts.gapLimit 1) = pure sum ∧
      (List.range' i (min sum opts.maxIndex - i)).mapM (m.entry scheme) = .ok entries ∧
      unionUsed opts.used (entries.map (·.address)) chains
        (entries.map fun _ => false, s.partialResult) = pure (used, failed) ∧
      m.GoesOn chains opts scheme left (min sum opts.maxIndex) t
        (m.visit opts.gapLimit (entries.zip used) run { s with partialResult := failed }) := by
  rw [scanScheme, if_pos hi] at h
  obtain ⟨sum, hsum, h⟩ := bind_eq_pure h
  obtain ⟨entries, hentries, h⟩ := bind_eq_pure h
  obtain ⟨⟨used, failed⟩, hused, h⟩ := bind_eq_pure h
  refine ⟨sum, entries, used, failed, hsum, ?_, hused, ?_⟩
  · exact Option.some.inj (congrArg ExceptT.run hentries)
  · revert h
    dsimp only
    rcases m.visit opts.gapLimit (entries.zip used) run { s with partialResult := failed } with
      ⟨s', _ | run'⟩
    · exact pure_inj
    · dsimp only [GoesOn]
      split_ifs
      · exact pure_inj
      · exact id

theorem GoesOn.of_some {left stop n : Nat} {r : Scan × Option Nat}
    (h : m.GoesOn chains opts scheme left stop t r) (hn : r.2 = some n) :
    stop = opts.maxIndex ∧ { r.1 with hitMaxIndex := true } = t ∨
      stop ≠ opts.maxIndex ∧ m.scanScheme chains opts scheme left stop n r.1 = pure t := by
  obtain ⟨s, _ | run⟩ := r
  · cases hn
  · cases hn
    dsimp only [GoesOn] at h
    split_ifs at h with hstop
    · exact .inl ⟨hstop, h⟩
    · exact .inr ⟨hstop, h⟩

theorem GoesOn.below {left stop : Nat} {r : Scan × Option Nat}
    (h : m.GoesOn chains opts scheme left stop t r)
    (hrest : ∀ {i run s}, m.scanScheme chains opts scheme left i run s = pure t → Below s t) :
    Below r.1 t := by
  obtain ⟨s, _ | run⟩ := r
  · exact h ▸ .refl s
  · rcases h.of_some rfl with ⟨-, ht⟩ | ⟨-, h⟩
    · exact ht ▸ ⟨fun _ h => h, le_rfl⟩
    · exact hrest h

theorem below_scanScheme {left i run : Nat} {s : Scan}
    (h : m.scanScheme chains opts scheme left i run s = pure t) : Below s t := by
  induction left generalizing i run s with
  | zero => exact pure_inj h ▸ .refl s
  | succ left ih =>
    by_cases hi : i < opts.maxIndex
    · obtain ⟨sum, entries, used, failed, -, -, -, hon⟩ := scanScheme_cases hi h
      have hstart : Below s { s with partialResult := failed } := ⟨fun _ h => h, le_rfl⟩
      exact (hstart.trans (below_visit _ _ _ _)).trans (hon.below fun h => ih h)
    · rw [scanScheme, if_neg hi] at h
      exact pure_inj h ▸ .refl s

end Scheme

end Windows

/-! ### The calls that fail -/

section Failures

variable {C : Type} {m : AccountManager} {act : C → Address → AccountActivity}
  {down : Nat → Option RpcError} {chains : List C} {opts : DiscoveryOpts} {scheme : PathScheme}

/-- Chains in a fixed state, and which of the calls fail. -/
def outage (act : C → Address → AccountActivity) (down : Nat → Option RpcError) (n : Nat)
    (call : ActivityCall C) : Except RpcError (List AccountActivity) :=
  match down n with
  | some e => .error e
  | none => .ok (call.accounts.map (act call.chain))

/-- Addresses that look used are. -/
theorem unionUsedCalls_succeeds (pred : UsedPredicate) (addrs : List Address) (failed : Bool)
    {f g : Address → Bool} (hfg : ∀ a, f a → g a) :
    Prog.Succeeds (E := activityPort C) (outage act down)
      (fun r => ∃ u : Address → Bool, r.1 = addrs.map u ∧
        ∀ a, u a → g a || chains.any fun c => isUsed (act c a) pred)
      (unionUsedCalls pred addrs chains (addrs.map f, failed)) := by
  induction chains generalizing f g failed with
  | nil => exact .pure ⟨f, rfl, fun a ha => by simp [hfg a ha]⟩
  | cons chain chains ih =>
    -- a chain that answers marks what it has seen, and one that fails marks nothing
    have hreply : Prog.Succeeds (E := activityPort C) (ε := AccountError) (outage act down)
        (fun r => r = .ok (addrs.map (act chain)) ∨ ∃ e, r = .error e)
        (ExceptT.lift (Prog.perform (E := activityPort C) ⟨chain, addrs⟩)) := .perform fun n => by
      unfold outage
      cases down n with
      | none => exact .inl rfl
      | some e => exact .inr ⟨e, rfl⟩
    have hany (a : Address) : (g a || (chain :: chains).any fun c => isUsed (act c a) pred) =
        ((g a || isUsed (act chain a) pred) || chains.any fun c => isUsed (act c a) pred) := by
      rw [List.any_cons, Bool.or_assoc]
    simp only [hany]
    refine hreply.bind ?_
    rintro r (rfl | ⟨e, rfl⟩)
    · dsimp only
      rw [markUsed_map]
      refine ih failed fun a ha => ?_
      rw [Bool.or_eq_true] at ha ⊢
      exact ha.imp_left (hfg a)
    · exact ih true fun a ha => by simp [hfg a ha]

theorem unionUsed_entries (pred : UsedPredicate) (entries : List Entry) (failed : Bool) :
    unionUsed pred (entries.map (·.address)) (chains.map fun c => fixed (act c))
        (entries.map fun _ => false, failed) =
      pure (entries.map fun e => chains.any fun c => isUsed (act c e.address) pred, failed) := by
  have h := unionUsed_fixed pred (entries.map (·.address)) failed (chains.map act) fun _ => false
  simpa [Function.comp_def] using h

theorem unionUsedCalls_entries (pred : UsedPredicate) (entries : List Entry) (failed : Bool) :
    Prog.Succeeds (E := activityPort C) (outage act down)
      (fun r => ∃ u : Entry → Bool, r.1 = entries.map u ∧
        ∀ e, u e → chains.any fun c => isUsed (act c e.address) pred)
      (unionUsedCalls pred (entries.map (·.address)) chains
        (entries.map fun _ => false, failed)) := by
  have hfalse : (entries.map fun _ => false) = (entries.map (·.address)).map fun _ => false := by
    rw [List.map_map]
    rfl
  rw [hfalse]
  refine (unionUsedCalls_succeeds pred _ failed (f := fun _ => false) fun _ h => h).mono ?_
  rintro ⟨used, failed'⟩ ⟨u, hused, hu⟩
  exact ⟨fun e => u e.address, hused.trans (List.map_map ..), fun e he => by simpa using hu _ he⟩

/-- A scheme that is scanned while calls fail. -/
theorem scanSchemeCalls_succeeds {left i run run' : Nat} {s s' t : Scan} (hs : Below s' s)
    (hrun : run ≤ run')
    (h : m.scanScheme (chains.map fun c => fixed (act c)) opts scheme left i run s = pure t) :
    Prog.Succeeds (E := activityPort C) (outage act down) (Below · t)
      (m.scanSchemeCalls chains opts scheme left i run' s') := by
  -- both scans stand at the start of the same window
  induction left generalizing i run run' s s' with
  | zero => exact .pure (pure_inj h ▸ hs)
  | succ left ih =>
    by_cases hi : i < opts.maxIndex
    · obtain ⟨sum, entries, used, failed, hsum, hentries, hused, hon⟩ := scanScheme_cases hi h
      rw [unionUsed_entries] at hused
      obtain ⟨rfl, rfl⟩ := Prod.mk.inj (pure_inj hused)
      rw [scanSchemeCalls, if_pos hi, hsum, silent_pure, pure_bind]
      dsimp only
      rw [hentries, silent_ok, pure_bind]
      refine (unionUsedCalls_entries _ entries _).bind ?_
      rintro ⟨used, failed⟩ ⟨u, hused, hu⟩
      have hstart : Below { s' with partialResult := failed } s := ⟨hs.found, hs.scannedTo⟩
      obtain ⟨hvisit, hruns⟩ := m.visit_below opts.gapLimit hu entries hrun hstart
      rw [List.map_prod_left_eq_zip, List.map_prod_left_eq_zip] at hvisit hruns
      dsimp only at hused ⊢
      rw [hused]
      rcases hwindow : m.visit opts.gapLimit (entries.zip (entries.map u)) run'
        { s' with partialResult := failed } with ⟨s₁, _ | n'⟩ <;> rw [hwindow] at hvisit hruns
      · exact .pure (hvisit.trans (hon.below below_scanScheme))
      · obtain ⟨n, hn, hle⟩ := hruns n' rfl
        dsimp only
        rcases hon.of_some hn with ⟨hstop, rfl⟩ | ⟨hstop, hrest⟩
        · rw [if_pos hstop]
          exact .pure ⟨hvisit.found, hvisit.scannedTo⟩
        · rw [if_neg hstop]
          exact ih hvisit hle hrest
    · rw [scanScheme, if_neg hi] at h
      rw [scanSchemeCalls, if_neg hi]
      exact .pure (pure_inj h ▸ hs)

/-- All schemes, one after the other. -/
theorem foldlM_scanSchemeCalls_succeeds {schemes : List PathScheme} {s s' t : Scan}
    (hs : Below s' s)
    (h : schemes.foldlM (fun s scheme => m.scanScheme (chains.map fun c => fixed (act c)) opts
      scheme (opts.maxIndex - opts.startIndex) opts.startIndex 0 s) s = pure t) :
    Prog.Succeeds (E := activityPort C) (outage act down) (Below · t)
      (schemes.foldlM (fun s scheme => m.scanSchemeCalls chains opts scheme
        (opts.maxIndex - opts.startIndex) opts.startIndex 0 s) s') := by
  induction schemes generalizing s s' with
  | nil => exact .pure (pure_inj h ▸ hs)
  | cons scheme schemes ih =>
    rw [List.foldlM_cons] at h ⊢
    obtain ⟨u, hu, hrest⟩ := bind_eq_pure h
    exact (scanSchemeCalls_succeeds hs le_rfl hu).bind fun u' hu' => ih hu' hrest

/-- Fewer addresses, and no further. -/
structure Hides (r' r : DiscoveredAccounts) : Prop where
  addresses : r'.accounts.map (·.address) ⊆ r.accounts.map (·.address)
  scannedTo : r'.scannedTo ≤ r.scannedTo

theorem discoverCalls_succeeds {r : DiscoveredAccounts}
    (h : m.discover (chains.map fun c => fixed (act c)) opts = pure r) :
    Prog.Succeeds (E := activityPort C) (outage act down) (Hides · r)
      (m.discoverCalls chains opts) := by
  obtain ⟨t, ht, hr⟩ := bind_eq_pure h
  refine (foldlM_scanSchemeCalls_succeeds (.refl _) ht).bind fun t' ht' => .pure ?_
  obtain rfl := pure_inj hr
  -- sorting keeps the addresses
  have hsorted (l : List Account) (x : Address) :
      x ∈ ((l.mergeSort fun a b => a.address.toNat ≤ b.address.toNat).mergeSort
        fun a b => a.index ≤ b.index).map (·.address) ↔ x ∈ l.map (·.address) :=
    (((List.mergeSort_perm _ _).trans (List.mergeSort_perm _ _)).map _).mem_iff
  exact ⟨fun x hx => (hsorted _ x).mpr (ht'.found ((hsorted _ x).mp hx)), ht'.scannedTo⟩

end Failures

/-! ### What a scan says of failures -/

section Partial

variable {C α : Type} {m : AccountManager} {chains : List C} {opts : DiscoveryOpts}
  {scheme : PathScheme} {es : List (Event (activityPort C))}

/-- The call was not answered. -/
def Failed (e : Event (activityPort C)) : Prop := ∃ err, e.reply = .error err

theorem trace_silent {x : ScanM α} {a : α}
    (h : (silent x : ScanIo C α).run.Trace es (.ok a)) : es = [] ∧ x = pure a := by
  change (match x.run with
    | some r => .ret r
    | none => .halt : Prog (activityPort C) _).Trace _ _ at h
  cases hx : x.run with
  | none =>
    rw [hx] at h
    cases h
  | some r =>
    rw [hx] at h
    obtain ⟨hes, ha⟩ := Prog.trace_ret_iff.mp h
    exact ⟨hes, ExceptT.ext (hx.trans (congrArg some ha.symm))⟩

theorem trace_call {call : ActivityCall C} {r : Except RpcError (List AccountActivity)}
    (h : (ExceptT.lift (Prog.perform (E := activityPort C) call) : ScanIo C _).run.Trace es
      (.ok r)) : es = [⟨call, r⟩] := by
  obtain ⟨r', rest, rfl, hrest⟩ := Prog.trace_call_iff.mp h
  obtain ⟨rfl, hr⟩ := Prog.trace_ret_iff.mp hrest
  cases hr
  rfl

theorem exists_failed_append {es₁ es₂ : List (Event (activityPort C))} :
    (∃ e ∈ es₁ ++ es₂, Failed e) ↔ (∃ e ∈ es₁, Failed e) ∨ ∃ e ∈ es₂, Failed e := by
  simp only [List.mem_append, or_and_right, exists_or]

theorem unionUsedCalls_failed {pred : UsedPredicate} {addrs : List Address} {used : List Bool}
    {failed : Bool} {r : List Bool × Bool}
    (h : (unionUsedCalls pred addrs chains (used, failed)).run.Trace es (.ok r)) :
    r.2 = true ↔ failed = true ∨ ∃ e ∈ es, Failed e := by
  induction chains generalizing used failed es with
  | nil =>
    obtain ⟨rfl, hr⟩ := Prog.trace_ret_iff.mp h
    cases hr
    simp
  | cons chain chains ih =>
    obtain ⟨es₁, es₂, reply, rfl, hcall, hreply⟩ := Prog.trace_tryBind_ok h
    obtain rfl := trace_call hcall
    rw [exists_failed_append]
    cases reply with
    | ok activity =>
      obtain ⟨es₃, es₄, used', rfl, hmark, hrest⟩ := Prog.trace_tryBind_ok hreply
      obtain ⟨rfl, -⟩ := trace_silent hmark
      simp [ih hrest, Failed]
    | error e => simp [ih hreply, Failed]

theorem visit_partialResult (gapLimit : Nat) (entries : List (Entry × Bool)) (run : Nat)
    (s : Scan) : (m.visit gapLimit entries run s).1.partialResult = s.partialResult := by
  induction entries generalizing run s with
  | nil => rfl
  | cons p entries ih =>
    simp only [visit]
    split_ifs
    · exact ih _ _
    · rfl
    · exact ih _ _

/-- A scan that ends here makes no more calls. -/
theorem partial_of_pure {s t : Scan} (h : (pure s : ScanIo C Scan).run.Trace es (.ok t)) :
    t.partialResult = true ↔ s.partialResult = true ∨ ∃ e ∈ es, Failed e := by
  obtain ⟨rfl, hr⟩ := Prog.trace_ret_iff.mp h
  cases hr
  simp

theorem scanSchemeCalls_partial {left i run : Nat} {s t : Scan}
    (h : (m.scanSchemeCalls chains opts scheme left i run s).run.Trace es (.ok t)) :
    t.partialResult = true ↔ s.partialResult = true ∨ ∃ e ∈ es, Failed e := by
  induction left generalizing i run s es with
  | zero => exact partial_of_pure h
  | succ left ih =>
    rw [scanSchemeCalls] at h
    split at h
    · obtain ⟨es₁, es₂, sum, rfl, hsum, hrest⟩ := Prog.trace_tryBind_ok h
      obtain ⟨rfl, -⟩ := trace_silent hsum
      obtain ⟨es₃, es₄, entries, rfl, hentries, hwindow⟩ := Prog.trace_tryBind_ok hrest
      obtain ⟨rfl, -⟩ := trace_silent hentries
      obtain ⟨es₅, es₆, ⟨used, failed⟩, rfl, hunion, hon⟩ := Prog.trace_tryBind_ok hwindow
      have hfailed : failed = true ↔ s.partialResult = true ∨ ∃ e ∈ es₅, Failed e :=
        unionUsedCalls_failed hunion
      have hvisit : (m.visit opts.gapLimit (entries.zip used) run
          { s with partialResult := failed }).1.partialResult = failed := visit_partialResult ..
      rw [List.nil_append, List.nil_append, exists_failed_append, ← or_assoc, ← hfailed, ← hvisit]
      clear h hrest hwindow hvisit
      revert hon
      dsimp only
      rcases m.visit opts.gapLimit (entries.zip used) run { s with partialResult := failed } with
        ⟨s₁, _ | n⟩
      · exact partial_of_pure
      · dsimp only
        split_ifs
        · exact partial_of_pure
        · exact ih
    · exact partial_of_pure h

theorem discoverCalls_partial {r : DiscoveredAccounts}
    (h : (m.discoverCalls chains opts).run.Trace es (.ok r)) :
    r.partialResult = true ↔ ∃ e ∈ es, Failed e := by
  have hfold {schemes : List PathScheme} {s t : Scan} {es : List (Event (activityPort C))}
      (h : (schemes.foldlM (fun s scheme => m.scanSchemeCalls chains opts scheme
        (opts.maxIndex - opts.startIndex) opts.startIndex 0 s) s).run.Trace es (.ok t)) :
      t.partialResult = true ↔ s.partialResult = true ∨ ∃ e ∈ es, Failed e := by
    induction schemes generalizing s es with
    | nil => exact partial_of_pure h
    | cons scheme schemes ih =>
      rw [List.foldlM_cons] at h
      obtain ⟨es₁, es₂, u, rfl, hscheme, hrest⟩ := Prog.trace_tryBind_ok h
      rw [ih hrest, scanSchemeCalls_partial hscheme, exists_failed_append, or_assoc]
  obtain ⟨es₁, es₂, t, rfl, hschemes, hend⟩ := Prog.trace_tryBind_ok h
  obtain ⟨rfl, hr⟩ := Prog.trace_ret_iff.mp hend
  cases hr
  simpa using hfold hschemes

end Partial

section Outages

variable {C : Type}

/-- The calls of a scan and its result, with the chains in a fixed state and some calls failing. -/
def discoverUnder (m : AccountManager) (act : C → Address → AccountActivity)
    (down : Nat → Option RpcError) (chains : List C) (opts : DiscoveryOpts) :
    Option (List (Event (activityPort C)) × Except AccountError DiscoveredAccounts) :=
  (m.discoverCalls chains opts).run.play (outage act down) 0

/-- With no failure the scan is `discover`. -/
theorem discover_of_under {m : AccountManager} {act : C → Address → AccountActivity}
    {chains : List C} {opts : DiscoveryOpts} {calls : List (Event (activityPort C))}
    {r : DiscoveredAccounts}
    (h : m.discoverUnder act (fun _ => none) chains opts = some (calls, .ok r)) :
    m.discover (chains.map fun c => fixed (act c)) opts = pure r := by
  rw [← answered_discoverCalls]
  refine ExceptT.ext ?_
  have heval := Prog.play_oracle (E := activityPort C) (fun o => fixed (act o.chain) o.accounts)
    (m.discoverCalls chains opts).run 0
  exact heval.symm.trans (congrArg (Option.map (·.2)) h)

/-- Whichever calls fail, the scan finds fewer addresses than without failures and stops no later,
and its result is marked partial exactly if a call that it made failed. -/
theorem outages_only_hide (m : AccountManager) (act : C → Address → AccountActivity)
    (down : Nat → Option RpcError) (chains : List C) (opts : DiscoveryOpts) :
    (∀ calls r, m.discoverUnder act (fun _ => none) chains opts = some (calls, .ok r) →
      ∃ calls' r', m.discoverUnder act down chains opts = some (calls', .ok r') ∧ Hides r' r) ∧
    ∀ calls r, m.discoverUnder act down chains opts = some (calls, .ok r) →
      (r.partialResult = true ↔ ∃ call ∈ calls, Failed call) := by
  refine ⟨fun calls r h => ?_, fun calls r h => ?_⟩
  · have hdown : Prog.Succeeds (E := activityPort C) (outage act down) (Hides · r)
        (m.discoverCalls chains opts) := discoverCalls_succeeds (discover_of_under h)
    obtain ⟨calls', _, hplay, r', rfl, hr'⟩ := hdown 0
    exact ⟨calls', r', hplay, hr'⟩
  · exact discoverCalls_partial (Prog.trace_of_play h)

/-- A seed whose addresses are the last characters of the paths. -/
def lastCharSeed : AccountManager :=
  ⟨fun path => .ok (BitVec.ofNat 160 (path.toList.getLastD '0').toNat), fun _ => none⟩

/-- Six indices in windows of two; every other account is used. -/
def shortOpts : DiscoveryOpts := ⟨[.bip44Standard], 2, 6, .nonceOnly, 0⟩

def evenUsed (_ : Unit) (a : Address) : AccountActivity := ⟨(a.toNat + 1) % 2, 0⟩

/-- The second call fails. -/
def secondDown (n : Nat) : Option RpcError := if n = 1 then some (.call "timeout" true) else none

theorem outages_only_hide_short :
    ∃ calls r calls' r',
      lastCharSeed.discoverUnder evenUsed (fun _ => none) [()] shortOpts = some (calls, .ok r) ∧
      lastCharSeed.discoverUnder evenUsed secondDown [()] shortOpts = some (calls', .ok r') ∧
      r.scannedTo = 5 ∧ r.partialResult = false ∧ Hides r' r ∧
      (r'.partialResult = true ↔ ∃ call ∈ calls', Failed call) := by
  have hall : (lastCharSeed.discoverUnder evenUsed (fun _ => none) [()] shortOpts).map
      (·.2.map fun r => (r.scannedTo, r.partialResult)) = some (.ok (5, false)) := by
    decide +kernel
  obtain ⟨⟨calls, out⟩, hcalls, hout⟩ := Option.map_eq_some_iff.mp hall
  cases out with
  | error e => cases hout
  | ok r =>
    obtain ⟨hscanned, hpartial⟩ := Prod.mk.inj (Except.ok.inj hout)
    obtain ⟨hhides, hfailed⟩ := outages_only_hide lastCharSeed evenUsed secondDown [()] shortOpts
    obtain ⟨calls', r', hcalls', hr'⟩ := hhides calls r hcalls
    exact ⟨calls, r, calls', r', hcalls, hcalls', hscanned, hpartial, hr',
      hfailed calls' r' hcalls'⟩

end Outages

end AccountManager

end WalletKit
