import WalletKit.Provenance.Executor
import WalletKit.Runtime.Toy

/-!
# The evidence law

No status is persisted without evidence. The ticks below run in any number and any
interleaving, and every call of theirs may be answered by anything: reads may fail, lag or
lie, the store may refuse a write or report handles nobody stored. Whatever `confirm`
writes for a chain-tracked handle then follows from reads of that same cycle, and a scan
in which a read failed is followed by no write at all.
-/
namespace WalletKit

open Machine

section Law

variable [Alloy]

/-- Ticks of any executors over ports that may answer anything. -/
def anyTicks : System ports Unit AccountExecutor (Except ExecutorError Unit) where
  Choice := Unit
  body e := e.tick.run
  admits _ _ := True
  allow _ _ _ _ _ := True
  next _ _ _ _ := ()

/-- The chain reads of the cycle a tick is in; none of them was made again since. -/
def CycleRead (past : List PortEvent) (e : AccountExecutor) (latest mined : Nat)
    (tag : Option Nat) : Prop :=
  ∃ before last after, past = before ++
    [ev .blockNumber (.ok latest), ev (.txCount e.account) (.ok mined),
      ev (.lastLatestLoad e.id) last, ev .finalizedBlock (.ok tag),
      ev (.lastLatestStore e.id latest) ()] ++ after ∧ ∀ x ∈ after, x.op ≠ .blockNumber

/-- Block `b` is final under the rule of the cycle. -/
def FinalIn (required latest : Nat) (tag : Option Nat) (b : Nat) : Prop :=
  match tag with
  | some finalized => b ≤ finalized ∧ finalized ≤ latest
  | none => required ≤ latest - b + 1

/-- The scan found `rc` for one of the broadcasts and nothing for any newer one, and the
block of `rc` is canonical. -/
def Anchored (h : TxHandle) (scan : List PortEvent) (rc : TransactionReceipt) (b : Nat)
    (bh : B256) : Prop :=
  ∃ older x newer, h.broadcasts = older ++ x :: newer ∧ rc.blockNumber = some b ∧
    rc.blockHash = some bh ∧
    scan = noReceipts newer.reverse ++
      [ev (.receipt x) (.ok (some rc)), ev (.blockHash b) (.ok (some bh))]

/-- No broadcast has a receipt. -/
def Unmined (h : TxHandle) (scan : List PortEvent) : Prop :=
  scan = noReceipts h.broadcasts.reverse

/-- What the reads of the cycle have to say for a new status of `h`. -/
def Justifies (required latest mined : Nat) (tag : Option Nat) (h : TxHandle)
    (scan : List PortEvent) : TxStatus → Prop
  | .pending => False
  | .sent => Unmined h scan ∧ mined ≤ h.nonce ∧
      ((∃ b bh, h.status = .mined b bh) ∨ ∃ l, h.status = .replacing l)
  | .mined b bh => ∃ rc, Anchored h scan rc b bh
  | .confirmed b => FinalIn required latest tag b ∧ ∃ rc bh, Anchored h scan rc b bh ∧
      rc.status ∧ ∀ context, h.meta = some context → context.task = none →
        context.innerSucceeded rc.logs
  | .failed reason => reason = "reverted on-chain" ∧ ∃ rc b bh, Anchored h scan rc b bh ∧
      FinalIn required latest tag b
  | .replacing _ | .replaced | .dropped => Unmined h scan ∧ h.nonce < mined

omit [Alloy] in
theorem finalIn_of_isFinal {cycle : Cycle} {required b : Nat} {tag : Option Nat}
    (hcfg : cycle.finality = ⟨if tag.isSome then .finalized else .depth, required⟩)
    (hfin : cycle.view.finalized = tag.getD 0) (hle : cycle.view.finalized ≤ cycle.view.latest)
    (h : isFinal b cycle.view cycle.finality) : FinalIn required cycle.view.latest tag b := by
  unfold isFinal at h
  cases tag with
  | none => simpa [hcfg, FinalIn] using h
  | some f =>
    simp only [Option.getD_some] at hfin
    simp only [hcfg, Option.isSome_some, ite_true, decide_eq_true_eq] at h
    exact ⟨hfin ▸ h, hfin ▸ hle⟩

/-- A receipt counts as executed only if it succeeded, inner call included. -/
theorem executed_of_outcomeOf {rc : TransactionReceipt} {h : TxHandle}
    (ho : outcomeOf rc h = .executed) : rc.status ∧ ∀ context, h.meta = some context →
      context.task = none → context.innerSucceeded rc.logs := by
  cases hm : h.meta with
  | none => exact ⟨by simpa [outcomeOf, hm] using ho, by simp⟩
  | some context =>
    have hok : rc.status ∧ (context.task = none → context.innerSucceeded rc.logs) := by
      simpa [outcomeOf, hm] using ho
    exact ⟨hok.1, by rintro _ ⟨rfl⟩; exact hok.2⟩

theorem justifies_of_evidence {past : List PortEvent} {e : AccountExecutor} {h h' : TxHandle}
    (hev : Evidence past e h h') : ∃ before scan latest mined tag, past = before ++ scan ∧
      CycleRead before e latest mined tag ∧ SeenPending before e.account h ∧
      h' = { h with status := h'.status } ∧ h'.status ≠ h.status ∧
      Justifies e.requiredConfirmations latest mined tag h scan h'.status := by
  obtain ⟨before, scan, cycle, event, next, hpast, hcycle, hseen, -, hscan, hnext, rfl⟩ := hev
  obtain ⟨pre, last, tag, after, hbefore, hafter, hcfg, hfin, -, hle⟩ := hcycle
  refine ⟨before, scan, cycle.view.latest, cycle.minedNonce, tag, hpast,
    ⟨pre, last, after, hbefore, hafter⟩, hseen.seen, rfl, ?_⟩
  have final : ∀ {b}, isFinal b cycle.view cycle.finality →
      FinalIn e.requiredConfirmations cycle.view.latest tag b := finalIn_of_isFinal hcfg hfin hle
  obtain ⟨hlive, hne, hcase⟩ := transition_cases hnext
  rcases hcase with ⟨rfl, rfl, hfrom⟩ | ⟨b, bh, o, rfl, hmined⟩ | ⟨rfl, hrep⟩
  · -- the nonce is open again
    refine ⟨hne, ?_⟩
    cases hscan with
    | «open» hopen => exact ⟨rfl, hopen, hfrom⟩
  · cases hscan with
    | anchored hsplit hb hbh =>
      have hanchor : Anchored h _ _ b bh := ⟨_, _, _, hsplit, hb, hbh, rfl⟩
      rcases hmined with ⟨hf, rfl⟩ | ⟨-, rfl⟩
      · cases ho : outcomeOf _ h with
        | executed =>
          rw [ho] at hne
          obtain ⟨hok, hinner⟩ := executed_of_outcomeOf ho
          exact ⟨hne, final hf, _, bh, hanchor, hok, hinner⟩
        | reverted =>
          rw [ho] at hne
          exact ⟨hne, rfl, _, b, bh, hanchor, final hf⟩
      · exact ⟨hne, _, hanchor⟩
  · cases hscan with
    | consumed hlt =>
      rcases hrep with ⟨l, -, -, rfl⟩ | ⟨-, rfl⟩
      · unfold AccountExecutor.settleStatus
        split
        · refine ⟨fun hd => ?_, rfl, hlt⟩
          rw [← hd] at hlive
          cases hlive
        · exact ⟨hne, rfl, hlt⟩
      · exact ⟨hne, rfl, hlt⟩

/-- **Evidence law.** Whenever a tick is about to persist a new status for a chain-tracked
handle, the reads of its own cycle justify that status. -/
theorem persisted_status_justified
    {p : Pool ports Unit AccountExecutor (Except ExecutorError Unit)}
    (hreach : anyTicks.Reaches ⟨(), []⟩ p) {th : Thread ports AccountExecutor _}
    (hth : th ∈ p.threads) {h h' : TxHandle} {k : Except StateStoreError Unit → Io _}
    (hput : th.prog = .call (.putHandle h' (.advance h)) k) :
    ∃ before scan latest mined tag, th.past = before ++ scan ∧
      CycleRead before th.call latest mined tag ∧ SeenPending before th.call.account h ∧
      h' = { h with status := h'.status } ∧ h'.status ≠ h.status ∧
      Justifies th.call.requiredConfirmations latest mined tag h scan h'.status := by
  have hist := hreach.history
    (fun e => AccountExecutor.tick_history (e := e) (done_of_idle rfl)) rfl th hth
  rw [hput] at hist
  obtain ⟨e, he, hev⟩ := (Prog.wp_history_call.mp hist).1
  cases he
  exact justifies_of_evidence hev

end Law

section Run

attribute [local instance] Toy.alloy

instance (p : Pool ports Unit AccountExecutor (Except ExecutorError Unit)) (i : Nat)
    (x : anyTicks.Choice) (o : ports.Op) (r : ports.Reply o) :
    Decidable (anyTicks.allow p i x o r) := inferInstanceAs (Decidable True)

instance (p : Pool ports Unit AccountExecutor (Except ExecutorError Unit)) (e : AccountExecutor) :
    Decidable (anyTicks.admits p e) := inferInstanceAs (Decidable True)

/-- A transaction that was bumped once, the first body of which is mined at block 8. -/
def bumpedHandle : TxHandle where
  id := 1
  account := Toy.account
  intent := Toy.intent
  intentHash := 2
  nonce := 4
  status := .sent
  envelope := .default
  signed := [1]
  broadcasts := [10, 11]
  lastBroadcastAt := 0
  cancelled := false
  submission := .default
  «meta» := none

def firstBodyMined : (o : Op) → Option o.Reply
  | .pendingHandles _ => some (.ok [bumpedHandle])
  | .submit _ _ _ => some (.error (.rpc (.call "nonce too low" false)))
  | .blockNumber => some (.ok 10)
  | .txCount _ => some (.ok 5)
  | .lastLatestLoad _ => some 9
  | .finalizedBlock => some (.ok none)
  | .lastLatestStore _ _ => some ()
  | .loadNonceState _ => some (.ok .absent)
  | .casNonceState _ _ _ _ _ => some (.ok true)
  | .receipt x => some (.ok (if x = 10 then some ⟨some 8, some 3, true, []⟩ else none))
  | .blockHash _ => some (.ok (some 3))
  | _ => none

def confirmingTick : Pool ports Unit AccountExecutor (Except ExecutorError Unit) :=
  System.played (S := anyTicks) ⟨(), []⟩
    [.spawn ⟨0, .new 1, 0, Toy.account, Toy.account, 3, 60, none, false⟩,
      .moves 0 20 () fun _ => firstBodyMined]

theorem persisted_status_justified_confirmed :
    confirmingTick.next? 0 = some (.putHandle { bumpedHandle with status := .confirmed 8 }
      (.advance bumpedHandle)) ∧
    ∃ th ∈ confirmingTick.threads, ∃ before scan latest mined tag, th.past = before ++ scan ∧
      CycleRead before th.call latest mined tag ∧
      Justifies th.call.requiredConfirmations latest mined tag bumpedHandle scan
        (.confirmed 8) := by
  have hnext : confirmingTick.next? 0 = some (.putHandle
      { bumpedHandle with status := .confirmed 8 } (.advance bumpedHandle)) := by decide +kernel
  obtain ⟨th, hth, k, hput⟩ := Pool.exists_thread_of_next? hnext
  obtain ⟨before, scan, latest, mined, tag, hpast, hcycle, -, -, -, hjust⟩ :=
    persisted_status_justified (System.reaches_played _ _) hth hput
  exact ⟨hnext, th, hth, before, scan, latest, mined, tag, hpast, hcycle, hjust⟩

end Run

end WalletKit
