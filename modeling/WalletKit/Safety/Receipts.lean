import WalletKit.Core.Executor
import WalletKit.Runtime.Toy

/-!
# What a receipt tells

Two readings of receipts that others can get between. The outcome of a self-relayed call is
decided by the first event for the request in the receipt's logs, whoever emitted it: another
contract that runs inside the call can come before the forwarder. And the scan over a handle's
broadcasts stops at the newest one that has a receipt, though its block may be orphaned and an
older broadcast may be on the canonical chain.
-/
namespace WalletKit

open Machine

section Verdicts

variable [Alloy] {m : MetaContext} {logs : List Log}

namespace MetaContext

/-- The success flag of a log that is an event for this request. -/
def verdict (m : MetaContext) (log : Log) : Option Bool :=
  match Alloy.decodeExecuted log.topics log.data with
  | some e => if e.signer = m.signer ∧ e.nonce = m.nonce then some e.success else none
  | none => none

/-- The logs that the forwarder emitted. -/
def own (m : MetaContext) (logs : List Log) : List Log := logs.filter (·.address = m.forwarder)

/-- The success flag of the forwarder's first event for this request. -/
def forwarderVerdict (m : MetaContext) (logs : List Log) : Option Bool :=
  (m.own logs).findSome? m.verdict

theorem innerSucceeded_eq (m : MetaContext) (logs : List Log) :
    m.innerSucceeded logs = (logs.findSome? m.verdict).getD false := rfl

/-- Where the first event for this request is another contract's, its flag is that of the
forwarder's first event; a missing event counts as failure. -/
def Unforestalled (m : MetaContext) (logs : List Log) : Prop :=
  ∀ before log after success, logs = before ++ log :: after → (∀ l ∈ before, m.verdict l = none) →
    m.verdict log = some success → log.address ≠ m.forwarder →
    success = (m.forwarderVerdict logs).getD false

/-- Without an event for the request there is none of the forwarder. -/
theorem forwarderVerdict_eq_none (h : ∀ l ∈ logs, m.verdict l = none) :
    m.forwarderVerdict logs = none :=
  List.findSome?_eq_none_iff.mpr fun l hl => h l (List.mem_of_mem_filter hl)

/-- The forwarder's own event is its first one if it is the first of all. -/
theorem forwarderVerdict_of_first {before after : List Log} {log : Log} {success : Bool}
    (hbefore : ∀ l ∈ before, m.verdict l = none) (hlog : m.verdict log = some success)
    (hown : log.address = m.forwarder) :
    m.forwarderVerdict (before ++ log :: after) = some success := by
  have hnone : (m.own before).findSome? m.verdict = none := forwarderVerdict_eq_none hbefore
  have hsplit : m.own (before ++ log :: after) = m.own before ++ log :: m.own after := by
    simp [own, hown]
  rw [forwarderVerdict, hsplit, List.findSome?_append, hnone]
  simp [hlog]

/-- The first event of all says what the forwarder's says, exactly when it is not another
contract's with another flag. -/
theorem innerSucceeded_iff_unforestalled :
    m.innerSucceeded logs = (m.forwarderVerdict logs).getD false ↔ m.Unforestalled logs := by
  rw [innerSucceeded_eq]
  constructor
  · rintro h before log after success rfl hbefore hlog -
    rw [← h, List.findSome?_append, List.findSome?_eq_none_iff.mpr hbefore]
    simp [hlog]
  · intro h
    cases hfirst : logs.findSome? m.verdict with
    | none => rw [forwarderVerdict_eq_none (List.findSome?_eq_none_iff.mp hfirst)]
    | some success =>
      obtain ⟨before, log, after, rfl, hlog, hbefore⟩ := List.findSome?_eq_some_iff.mp hfirst
      by_cases hown : log.address = m.forwarder
      · rw [forwarderVerdict_of_first hbefore hlog hown]
      · exact h before log after success rfl hbefore hlog hown

end MetaContext

variable {h : TxHandle} {rc rc' : TransactionReceipt}

/-- The forwarder decides the outcome of this receipt. -/
def ForwarderDecides (m : MetaContext) (h : TxHandle) (rc : TransactionReceipt) : Prop :=
  outcomeOf rc h = .executed ↔ rc.status ∧ m.forwarderVerdict rc.logs = some true

/-- The receipts say the same as far as the forwarder's own logs go. -/
def SameForForwarder (m : MetaContext) (rc rc' : TransactionReceipt) : Prop :=
  rc'.status = rc.status ∧ m.own rc'.logs = m.own rc.logs

theorem outcomeOf_self_relayed (hm : h.meta = some m) (htask : m.task = none) :
    outcomeOf rc h = .executed ↔ rc.status ∧ m.innerSucceeded rc.logs := by
  simp [outcomeOf, hm, htask]

theorem forwarderDecides_iff (hm : h.meta = some m) (htask : m.task = none) :
    ForwarderDecides m h rc ↔ (rc.status → m.Unforestalled rc.logs) := by
  rw [ForwarderDecides, outcomeOf_self_relayed hm htask, and_congr_right_iff]
  refine imp_congr_right fun _ => ?_
  rw [← MetaContext.innerSucceeded_iff_unforestalled]
  cases hi : m.innerSucceeded rc.logs <;> cases hf : m.forwarderVerdict rc.logs with
  | none => simp
  | some b => cases b <;> simp

/-- **The forwarder's own event decides a self-relayed call's outcome exactly when no other
contract has come before it with another flag**: then the outcome is `executed` iff the receipt
succeeded and the forwarder's first event for the request says so; and of two receipts that
agree on their status and the forwarder's logs, the outcomes agree exactly when this is so for
both or for neither. -/
theorem forwarder_decides_iff_unforestalled (hm : h.meta = some m) (htask : m.task = none)
    (rc : TransactionReceipt) :
    (ForwarderDecides m h rc ↔ (rc.status → m.Unforestalled rc.logs)) ∧
      ∀ rc', SameForForwarder m rc rc' → (outcomeOf rc' h = outcomeOf rc h ↔
        ((rc'.status → m.Unforestalled rc'.logs) ↔ (rc.status → m.Unforestalled rc.logs))) := by
  refine ⟨forwarderDecides_iff hm htask, fun rc' hsame => ?_⟩
  obtain ⟨hstatus, hown⟩ := hsame
  rw [← forwarderDecides_iff hm htask, ← forwarderDecides_iff hm htask, ForwarderDecides,
    ForwarderDecides, hstatus, MetaContext.forwarderVerdict, MetaContext.forwarderVerdict, hown]
  generalize (rc.status = true ∧ (m.own rc.logs).findSome? m.verdict = some true) = spec
  by_cases hspec : spec <;> cases outcomeOf rc' h <;> cases outcomeOf rc h <;> simp [hspec]

end Verdicts

section Forestalled

/-- Logs that are decoded by their data: the flag, for signer 1 and nonce 7. -/
@[reducible] def Toy.eventAlloy : Alloy :=
  { Toy.alloy with decodeExecuted := fun _ data => some ⟨1, 7, data = [1]⟩ }

attribute [local instance] Toy.eventAlloy

/-- A request through forwarder 3. -/
def Toy.context : MetaContext := ⟨3, 1, 7, none⟩

def Toy.relayed : TxHandle where
  id := 1
  account := Toy.account
  intent := Toy.intent
  intentHash := 2
  nonce := 4
  status := .sent
  envelope := .default
  signed := [1]
  broadcasts := [10]
  lastBroadcastAt := 0
  cancelled := false
  submission := .default
  «meta» := some Toy.context

/-- The forwarder says that the call failed; with `forged`, the target has said before that it
succeeded. -/
def Toy.failedCall (forged : Bool) : TransactionReceipt :=
  ⟨some 8, some 3, true, (if forged then [⟨9, [], [1]⟩] else []) ++ [⟨3, [], [0]⟩]⟩

theorem forwarder_decides_plain_call :
    Toy.relayed.meta = some Toy.context ∧ Toy.context.task = none ∧
      (ForwarderDecides Toy.context Toy.relayed (Toy.failedCall false) ↔
        ((Toy.failedCall false).status →
          Toy.context.Unforestalled (Toy.failedCall false).logs)) :=
  ⟨rfl, rfl, (forwarder_decides_iff_unforestalled rfl rfl _).1⟩

theorem target_event_decides_outcome : ∃ (m : MetaContext) (h : TxHandle)
    (rc rc' : TransactionReceipt), h.meta = some m ∧ m.task = none ∧ SameForForwarder m rc rc' ∧
      outcomeOf rc h = .reverted ∧ outcomeOf rc' h = .executed ∧
      m.forwarderVerdict rc'.logs = some false :=
  ⟨Toy.context, Toy.relayed, Toy.failedCall false, Toy.failedCall true, rfl, rfl,
    ⟨rfl, by decide⟩, by decide, by decide, by decide⟩

end Forestalled

section Scans

variable [Alloy] {h : TxHandle} {mined : Nat} {receipts : TxHash → Option TransactionReceipt}
  {canonical : Nat → Option B256}

/-- An RPC that answers every read of a cycle. -/
def answering (receipts : TxHash → Option TransactionReceipt) (canonical : Nat → Option B256) :
    (o : Op) → Option o.Reply
  | .receipt x => some (.ok (receipts x))
  | .blockHash b => some (.ok (canonical b))
  | _ => none

/-- The transaction has this receipt, and its block is canonical. -/
def OnCanonical (receipts : TxHash → Option TransactionReceipt) (canonical : Nat → Option B256)
    (x : TxHash) (rc : TransactionReceipt) (b : Nat) (bh : B256) : Prop :=
  receipts x = some rc ∧ rc.blockNumber = some b ∧ rc.blockHash = some bh ∧ canonical b = some bh

/-- The event that a scan ends in when no broadcast has a receipt. -/
def unminedEvent (h : TxHandle) (mined : Nat) : ChainEvent :=
  if h.nonce < mined then .replaced else .pending

/-- The event of a receipt. -/
def receiptEvent (canonical : Nat → Option B256) (h : TxHandle) (rc : TransactionReceipt) :
    ChainEvent :=
  match rc.blockNumber, rc.blockHash with
  | some b, some bh => if canonical b = some bh then .mined b bh (outcomeOf rc h) else .unknown
  | _, _ => .unknown

theorem anchor_eval (rc : TransactionReceipt) :
    (AccountExecutor.anchor rc h).eval (answering receipts canonical) =
      some (receiptEvent canonical h rc) := by
  unfold AccountExecutor.anchor receiptEvent
  cases rc.blockNumber with
  | none => rfl
  | some b =>
    cases rc.blockHash with
    | none => rfl
    | some bh =>
      have hread : (Rpc.blockHash b).eval (answering receipts canonical) =
        some (.ok (canonical b)) := rfl
      dsimp only
      rw [Prog.eval_bind, hread]
      cases hcan : canonical b with
      | none => simp [Prog.eval]
      | some c => by_cases hc : c = bh <;> simp [hc, Prog.eval]

/-- A scan stops at the first broadcast that has a receipt. -/
theorem scan_eval (xs : List TxHash) :
    (AccountExecutor.scan h mined xs).eval (answering receipts canonical) =
      some (((xs.findSome? receipts).map (receiptEvent canonical h)).getD
        (unminedEvent h mined)) := by
  induction xs with
  | nil => rfl
  | cons x xs ih =>
    have hread : (Rpc.receipt x).eval (answering receipts canonical) =
        some (.ok (receipts x)) := rfl
    unfold AccountExecutor.scan
    rw [Prog.eval_bind, hread]
    cases hx : receipts x with
    | none => simpa [hx] using ih
    | some rc => simpa [hx] using anchor_eval rc

/-- The newest receipt of a handle's broadcasts. -/
def newestReceipt (receipts : TxHash → Option TransactionReceipt) (h : TxHandle) :
    Option TransactionReceipt := h.broadcasts.reverse.findSome? receipts

theorem eventFor_eval :
    (AccountExecutor.eventFor h mined).eval (answering receipts canonical) =
      some (((newestReceipt receipts h).map (receiptEvent canonical h)).getD
        (unminedEvent h mined)) := scan_eval _

omit [Alloy] in
theorem newestReceipt_eq_none :
    newestReceipt receipts h = none ↔ ∀ x ∈ h.broadcasts, receipts x = none := by
  simp [newestReceipt, List.findSome?_eq_none_iff]

/-- Newest first, no broadcast before one on the canonical chain has a receipt. -/
def Unmasked (receipts : TxHash → Option TransactionReceipt) (canonical : Nat → Option B256)
    (h : TxHandle) : Prop :=
  ∀ newer x older, h.broadcasts.reverse = newer ++ x :: older → x ∉ newer →
    (∃ rc b bh, OnCanonical receipts canonical x rc b bh) → ∀ y ∈ newer, receipts y = none

/-- What a scan of the broadcasts should come to. -/
structure ScanFinds (receipts : TxHash → Option TransactionReceipt) (canonical : Nat → Option B256)
    (h : TxHandle) (mined : Nat) (event : ChainEvent) : Prop where
  canonical : ∀ x ∈ h.broadcasts, ∀ rc b bh, OnCanonical receipts canonical x rc b bh →
    event = .mined b bh (outcomeOf rc h)
  unmined : (event = .replaced ∨ event = .pending) ↔ ∀ x ∈ h.broadcasts, receipts x = none
  byCount : (∀ x ∈ h.broadcasts, receipts x = none) → event = unminedEvent h mined

theorem receiptEvent_of_onCanonical {x : TxHash} {rc : TransactionReceipt} {b : Nat} {bh : B256}
    (hx : OnCanonical receipts canonical x rc b bh) :
    receiptEvent canonical h rc = .mined b bh (outcomeOf rc h) := by
  obtain ⟨-, hb, hbh, hc⟩ := hx
  simp [receiptEvent, hb, hbh, hc]

theorem onCanonical_of_receiptEvent {x : TxHash} {rc : TransactionReceipt} {b : Nat} {bh : B256}
    {o : Outcome} (hx : receipts x = some rc) (he : receiptEvent canonical h rc = .mined b bh o) :
    OnCanonical receipts canonical x rc b bh := by
  unfold receiptEvent at he
  split at he
  · rename_i b' bh' hb hbh
    split at he
    · cases he
      exact ⟨hx, hb, hbh, ‹_›⟩
    · cases he
  · cases he

theorem receiptEvent_ne_unmined (rc : TransactionReceipt) :
    receiptEvent canonical h rc ≠ .replaced ∧ receiptEvent canonical h rc ≠ .pending := by
  unfold receiptEvent
  split
  · split <;> simp
  · simp

/-- A broadcast on the canonical chain is the one whose receipt is found, exactly when nothing
masks it. -/
theorem finds_canonical_iff (hone : ∀ x ∈ h.broadcasts, ∀ y ∈ h.broadcasts,
      (∃ rc b bh, OnCanonical receipts canonical x rc b bh) →
      (∃ rc b bh, OnCanonical receipts canonical y rc b bh) → x = y) :
    (∀ x ∈ h.broadcasts, ∀ rc b bh, OnCanonical receipts canonical x rc b bh →
      ((newestReceipt receipts h).map (receiptEvent canonical h)).getD (unminedEvent h mined) =
        .mined b bh (outcomeOf rc h)) ↔ Unmasked receipts canonical h := by
  constructor
  · rintro hfinds newer x older hsplit hfirst ⟨rc, b, bh, hx⟩ y hy
    have hmem : ∀ {z}, z ∈ newer ++ x :: older → z ∈ h.broadcasts := fun hz =>
      List.mem_reverse.mp (hsplit ▸ hz)
    have hfound := hfinds x (hmem (by simp)) rc b bh hx
    by_contra hy'
    -- the newest receipt is of a broadcast after `x`, and it would have to be canonical too
    cases hnew : newer.findSome? receipts with
    | none => exact hy' (List.findSome?_eq_none_iff.mp hnew y hy)
    | some rc' =>
      obtain ⟨pre, z, post, rfl, hz, -⟩ := List.findSome?_eq_some_iff.mp hnew
      have hnewest : newestReceipt receipts h = some rc' := by
        rw [newestReceipt, hsplit, List.findSome?_append, hnew]
        rfl
      rw [hnewest] at hfound
      have hzx : z = x := hone z (hmem (by simp)) x (hmem (by simp))
        ⟨_, _, _, onCanonical_of_receiptEvent hz hfound⟩ ⟨_, _, _, hx⟩
      exact hfirst (by simp [hzx])
  · intro hun x hx rc b bh hcan
    obtain ⟨newer, older, hsplit, hfirst⟩ :=
      List.eq_append_cons_of_mem (List.mem_reverse.mpr hx)
    have hnone : newer.findSome? receipts = none :=
      List.findSome?_eq_none_iff.mpr (hun newer x older hsplit hfirst ⟨rc, b, bh, hcan⟩)
    have hnewest : newestReceipt receipts h = some rc := by
      rw [newestReceipt, hsplit, List.findSome?_append, hnone]
      simp [hcan.1]
    rw [hnewest]
    exact receiptEvent_of_onCanonical hcan

/-- **A canonical receipt is found exactly when no newer broadcast has a receipt.** Where all
reads are answered and at most one broadcast is on the canonical chain, the scan comes to an
event; the event is that of the canonical broadcast iff no newer broadcast masks it with a
receipt of an orphaned block, and without receipts the nonce count decides. -/
theorem scan_finds_iff_unmasked (hone : ∀ x ∈ h.broadcasts, ∀ y ∈ h.broadcasts,
      (∃ rc b bh, OnCanonical receipts canonical x rc b bh) →
      (∃ rc b bh, OnCanonical receipts canonical y rc b bh) → x = y) :
    ∃ event, (AccountExecutor.eventFor h mined).eval (answering receipts canonical) = some event ∧
      (ScanFinds receipts canonical h mined event ↔ Unmasked receipts canonical h) := by
  refine ⟨_, eventFor_eval, fun hs => (finds_canonical_iff hone).mp hs.canonical, fun hun => ?_⟩
  refine ⟨(finds_canonical_iff hone).mpr hun, ?_, fun hnone => ?_⟩
  · rw [← newestReceipt_eq_none]
    cases hn : newestReceipt receipts h with
    | none =>
      simp only [Option.map_none, Option.getD_none, iff_true, unminedEvent]
      split <;> simp
    | some rc => simpa using receiptEvent_ne_unmined rc
  · rw [newestReceipt_eq_none.mpr hnone]
    rfl

end Scans

section Masked

attribute [local instance] Toy.alloy

/-- Bumped once: the first body is mined in canonical block 8. With `orphaned`, the node still
has a receipt for the second one, from a block that is not canonical. -/
def Toy.bumped : TxHandle := { Toy.relayed with broadcasts := [10, 11], «meta» := none }

def Toy.receiptsOf (orphaned : Bool) (x : TxHash) : Option TransactionReceipt :=
  if x = 10 then some ⟨some 8, some 3, true, []⟩
  else if x = 11 && orphaned then some ⟨some 7, some 5, true, []⟩ else none

theorem oneCanonical_bumped (orphaned : Bool) :
    ∀ x ∈ Toy.bumped.broadcasts, ∀ y ∈ Toy.bumped.broadcasts,
      (∃ rc b bh, OnCanonical (Toy.receiptsOf orphaned) (fun _ => some 3) x rc b bh) →
      (∃ rc b bh, OnCanonical (Toy.receiptsOf orphaned) (fun _ => some 3) y rc b bh) → x = y := by
  have first : ∀ x ∈ Toy.bumped.broadcasts,
      (∃ rc b bh, OnCanonical (Toy.receiptsOf orphaned) (fun _ => some 3) x rc b bh) → x = 10 := by
    rintro x hx ⟨rc, b, bh, hr, hb, hbh, hc⟩
    rcases (by simpa [Toy.bumped] using hx : x = 10 ∨ x = 11) with rfl | rfl
    · rfl
    · cases orphaned
      · simp [Toy.receiptsOf] at hr
      · obtain rfl : (⟨some 7, some 5, true, []⟩ : TransactionReceipt) = rc := by
          simpa [Toy.receiptsOf] using hr
        simp at hbh hc
        simp [← hbh] at hc
  exact fun x hx y hy hcx hcy => (first x hx hcx).trans (first y hy hcy).symm

theorem scan_finds_first_body :
    ∃ event, (AccountExecutor.eventFor Toy.bumped 5).eval
        (answering (Toy.receiptsOf false) fun _ => some 3) = some event ∧
      (ScanFinds (Toy.receiptsOf false) (fun _ => some 3) Toy.bumped 5 event ↔
        Unmasked (Toy.receiptsOf false) (fun _ => some 3) Toy.bumped) :=
  scan_finds_iff_unmasked (oneCanonical_bumped false)

theorem orphaned_receipt_masks_canonical : ∃ (h : TxHandle) (mined : Nat)
    (receipts : TxHash → Option TransactionReceipt) (canonical : Nat → Option B256) (x : TxHash)
    (rc : TransactionReceipt) (b : Nat) (bh : B256),
    (∀ x ∈ h.broadcasts, ∀ y ∈ h.broadcasts,
      (∃ rc b bh, OnCanonical receipts canonical x rc b bh) →
      (∃ rc b bh, OnCanonical receipts canonical y rc b bh) → x = y) ∧
    x ∈ h.broadcasts ∧ OnCanonical receipts canonical x rc b bh ∧
    (AccountExecutor.eventFor h mined).eval (answering receipts canonical) = some .unknown :=
  ⟨Toy.bumped, 5, Toy.receiptsOf true, fun _ => some 3, 10, ⟨some 8, some 3, true, []⟩, 8, 3,
    oneCanonical_bumped true, by decide, ⟨rfl, rfl, rfl, rfl⟩, by decide⟩

end Masked

end WalletKit
