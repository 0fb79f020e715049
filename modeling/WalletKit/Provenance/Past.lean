import WalletKit.Core.Executor
import WalletKit.Nonces.Rules

/-!
# What a call has done before it writes, swaps or broadcasts

Every `put_handle`, `submit` and `cas_nonce_state` of the wallet is made after a fixed
kind of history of the same program. `Owes` says which, one clause a place in the source,
in terms of the program's own events only; it is shown once for every function
(`Provenance.Manager`, `Provenance.Executor`) and holds in any interleaving.
-/
namespace WalletKit

open Machine Signing

/-- Whose code a program is: a manager's send or cancel, an executor's tick, or the part of
a managed-relay send that records its task. -/
inductive Role where
  | manager (m : TransactionManager)
  | executor (e : AccountExecutor)
  | relayed

/-- The manager whose sends run in this role. -/
def Role.sender : Role → Option TransactionManager
  | .manager m => some m
  | .executor e => e.refill
  | .relayed => none

section Events

/-- Where the send that a program is in the middle of stands. -/
inductive Phase where
  | idle
  | reserved (account : Address) (nonce : Nat)
  | logged (wal : TxHandle)
  | out (wal : TxHandle)

namespace Phase

/-- The nonce this send has and has not given back. -/
def held : Phase → Option (Address × Nat)
  | .idle => none
  | .reserved account nonce => some (account, nonce)
  | .logged wal | .out wal => some (wal.account, wal.nonce)

/-- Whether no record of this send is waiting for its outcome. -/
def resting : Phase → Bool
  | .idle | .reserved _ _ => true
  | .logged _ | .out _ => false

end Phase

/-- Whether a broadcast went out, or may have. -/
def maybeOut : Except SubmissionError TxHash → Bool
  | .ok _ => true
  | .error e => e.isTransient || e.isAlreadyAccepted

/-- A send reserves a nonce by a swap, logs its record, broadcasts it, and is over when the
record is written as sent or the nonce is given back. -/
def phaseStep (s : Phase) : PortEvent → Phase
  | ⟨.casNonceState scope _ _ _ note, r⟩ =>
    match note, (r : Except StateStoreError Bool) with
    | .allocate nonce _, .ok true => .reserved scope.account nonce
    | .release _, .ok true => .idle
    | _, _ => s
  | ⟨.putHandle h site, r⟩ =>
    match site, (r : Except StateStoreError Unit) with
    | .wal _, .ok _ => .logged h
    | .rejected wal, .ok _ => .reserved wal.account wal.nonce
    | .sent _, _ => .idle
    | _, _ => s
  | ⟨.submit _ _ site, r⟩ =>
    match site with
    | .send _ wal => if maybeOut r then .out wal else s
    | _ => s
  | _ => s

def phase (past : List PortEvent) : Phase := past.foldl phaseStep .idle

/-- The nonce of the send this program is in the middle of. -/
def holding (past : List PortEvent) : Option (Address × Nat) := (phase past).held

@[simp] theorem phase_nil : phase [] = .idle := rfl

theorem phase_append (h t : List PortEvent) : phase (h ++ t) = t.foldl phaseStep (phase h) := by
  simp [phase]

theorem phase_snoc {h : List PortEvent} {e : PortEvent} {x y : Phase}
    (hh : phase h = x) (he : phaseStep x e = y) : phase (h ++ [e]) = y := by
  rw [phase_append, hh]
  exact he

/-- A reserved nonce was found above the counter. -/
def Void (past : List PortEvent) : Prop :=
  ∃ before a n v, before ++ [ev (.loadNonceState ⟨a⟩) (.ok v)] <+: past ∧
    holding before = some (a, n) ∧ v.value.next ≤ n

/-- The reservation could not be ended: a store call failed, or the nonce was not live. -/
def Stranded (past : List PortEvent) : Prop :=
  (∃ e ∈ past, World.working e = false) ∨ Void past

/-- The record of a rejected broadcast could not be written. -/
def RejectLost (past : List PortEvent) : Prop :=
  ∃ h wal e, ev (.putHandle h (.rejected wal)) (.error e) ∈ past

/-- No record of a send is waiting for its outcome, unless a rejected one was left behind. -/
def Rested (past : List PortEvent) : Prop := (phase past).resting ∨ RejectLost past

/-- No send is in progress, or one was left without giving its nonce back. -/
def Done (past : List PortEvent) : Prop := (phase past = .idle ∨ Stranded past) ∧ Rested past

/-- An event that is no step of a send. -/
def Quiet (e : PortEvent) : Prop := ∀ s, phaseStep s e = s

variable {h : List PortEvent} {e : PortEvent}

theorem Stranded.append (hs : Stranded h) (t : List PortEvent) : Stranded (h ++ t) := by
  rcases hs with ⟨e, he, hw⟩ | ⟨before, a, n, v, hpre, hrest⟩
  · exact .inl ⟨e, List.mem_append_left t he, hw⟩
  · exact .inr ⟨before, a, n, v, hpre.trans (List.prefix_append h t), hrest⟩

theorem RejectLost.append (hr : RejectLost h) (t : List PortEvent) : RejectLost (h ++ t) := by
  obtain ⟨g, wal, e, he⟩ := hr
  exact ⟨g, wal, e, List.mem_append_left t he⟩

theorem Rested.snoc (hr : Rested h) (he : Quiet e) : Rested (h ++ [e]) := by
  refine hr.imp (fun hp => ?_) fun hl => hl.append _
  rwa [phase_snoc rfl (he _)]

theorem Done.snoc (hd : Done h) (he : Quiet e) : Done (h ++ [e]) :=
  ⟨hd.1.imp (fun hh => phase_snoc hh (he _)) fun hs => hs.append _, hd.2.snoc he⟩

/-- A swap that did not go through is no step of a send. -/
theorem quiet_cas {scope : NonceScope} {v : Nat} {s : NonceState} {f : FenceToken} {note : CasNote}
    {r : Except StateStoreError Bool} (hr : r ≠ .ok true) :
    Quiet (ev (.casNonceState scope v s f note) r) := by
  intro p
  rcases r with _ | _ | _
  · cases note <;> rfl
  · cases note <;> rfl
  · exact absurd rfl hr

theorem done_of_idle (hp : phase h = .idle) : Done h := ⟨.inl hp, .inl (by rw [hp]; rfl)⟩

/-- The policy engine allowed a request under this approval. -/
def Allowed (past : List PortEvent) (policy : PolicyId) (request : SigningRequest)
    (approval : PolicyApproval) : Prop :=
  ev (.evaluate policy request) (.ok (.allow approval)) ∈ past

/-- These bytes are a transaction the signer signed at a clock value that was read. -/
def SignedBy [Alloy] (past : List PortEvent) (signer : Address) (tx : TxEip1559) (intentHash : B256)
    (approval : PolicyApproval) (now : Nat) (rlp : Bytes) : Prop :=
  ev .nowUnix now ∈ past ∧
    ∃ signature, ev (.signTransaction signer tx intentHash approval now) (.ok signature) ∈ past ∧
      rlp = encoded2718 tx signature

/-- The handle is one of those the store reported as pending. -/
def SeenPending (past : List PortEvent) (account : Address) (h : TxHandle) : Prop :=
  ∃ hs, ev (.pendingHandles account) (.ok hs) ∈ past ∧ h ∈ hs

def Stored (past : List PortEvent) (h : TxHandle) (site : PutSite) : Prop :=
  ev (.putHandle h site) (.ok ()) ∈ past

/-- The records of a send, as opposed to those written over an existing one. -/
def PutSite.isSend : PutSite → Prop
  | .wal _ | .sent _ | .rejected _ => True
  | _ => False

/-- An event that writes no handle but those of sends and of the handles in `done`. -/
def Spares (done : List TxHandle) (x : PortEvent) : Prop :=
  ∀ g site, x.op = .putHandle g site → site.isSend ∨ ∃ d ∈ done, d.id = g.id

/-- The program works through this reply of `pending_handles` and is finished with `done`. -/
def Reading (past : List PortEvent) (account : Address) (hs done : List TxHandle) : Prop :=
  ∃ before after, past = before ++ ev (.pendingHandles account) (.ok hs) :: after ∧
    ∀ x ∈ after, Spares done x

/-- The handle is the one such a program has come to. -/
def Pending (past : List PortEvent) (account : Address) (g : TxHandle) : Prop :=
  ∃ hs done rest, hs = done ++ g :: rest ∧ Reading past account hs done

theorem Reading.append {account : Address} {hs done : List TxHandle}
    (hr : Reading h account hs done) {t : List PortEvent} (ht : ∀ x ∈ t, Spares done x) :
    Reading (h ++ t) account hs done := by
  obtain ⟨before, after, hpast, hafter⟩ := hr
  exact ⟨before, after ++ t, by simp [hpast], fun x hx =>
    (List.mem_append.mp hx).elim (hafter x) (ht x)⟩

theorem Reading.mono {account : Address} {hs done done' : List TxHandle}
    (hr : Reading h account hs done) (hsub : ∀ d ∈ done, d ∈ done') :
    Reading h account hs done' := by
  obtain ⟨before, after, hpast, hafter⟩ := hr
  refine ⟨before, after, hpast, fun x hx g site hop => ?_⟩
  exact (hafter x hx g site hop).imp_right fun ⟨d, hd, hid⟩ => ⟨d, hsub d hd, hid⟩

theorem Pending.seen {account : Address} {g : TxHandle} (hp : Pending h account g) :
    SeenPending h account g := by
  obtain ⟨hs, done, rest, rfl, before, after, rfl, -⟩ := hp
  exact ⟨done ++ g :: rest, by simp, by simp⟩

end Events

section Sends

variable [Alloy]

/-- A write-ahead record and all that went into it. -/
def Prepared (past : List PortEvent) (m : TransactionManager) (wal : TxHandle) : Prop :=
  ∃ intent nonce gasLimit fees approval now signed opts context,
    m.signer = intent.account ∧ Allowed past m.policy (.transaction intent) approval ∧
    SignedBy past m.signer (buildTx intent nonce gasLimit fees) intent.hash approval now
      signed.rlp ∧
    signed.hash = keccak256 signed.rlp ∧
    wal = walHandle intent nonce approval now signed opts context

/-- A cancel is under way: its target was read alive, the policy allowed the self-send, and
the target is stored as cancelled. -/
def Cancelling (past : List PortEvent) (m : TransactionManager) (marked : TxHandle)
    (approval : PolicyApproval) : Prop :=
  ∃ target, marked = { target with cancelled := true } ∧ target.status.isTerminal = false ∧
    (∃ id, ev (.handle id) (.ok (some target)) ∈ past) ∧
    Allowed past m.policy (.cancel (cancelIntent target.intent.chainId target.account)) approval ∧
    Stored past marked (.cancelMark target)

omit [Alloy] in
theorem Cancelling.append {past : List PortEvent} {m : TransactionManager} {marked : TxHandle}
    {approval : PolicyApproval} (h : Cancelling past m marked approval) (t : List PortEvent) :
    Cancelling (past ++ t) m marked approval := by
  obtain ⟨target, hmarked, hlive, ⟨id, hread⟩, hallow, hstored⟩ := h
  exact ⟨target, hmarked, hlive, ⟨id, List.mem_append_left t hread⟩,
    List.mem_append_left t hallow, List.mem_append_left t hstored⟩

/-- The cancel's own transaction. -/
def CancelSigned (past : List PortEvent) (m : TransactionManager) (marked : TxHandle)
    (approval : PolicyApproval) (now : Nat) (rlp : Bytes) : Prop :=
  let intent := cancelIntent marked.intent.chainId marked.account
  ∃ fees, SignedBy past m.signer
    (buildTx intent marked.nonce TransactionManager.cancelGasLimit fees) intent.hash approval
    now rlp

end Sends

section Ticks

variable [Alloy]

/-- Where the approval of a bump comes from: the cache, or a fresh evaluation. -/
def BumpApproved (past : List PortEvent) (e : AccountExecutor) (h : TxHandle)
    (approval : PolicyApproval) : Prop :=
  ev (.approvalsGet e.id h.id) (some approval) ∈ past ∨
    Allowed past e.policy (AccountExecutor.bumpRequest h.intent) approval

/-- The replacement transaction of a handle that was read as sent. -/
def BumpSigned (past : List PortEvent) (e : AccountExecutor) (h : TxHandle)
    (approval : PolicyApproval) (now : Nat) (rlp : Bytes) : Prop :=
  SeenPending past e.account h ∧ h.status = .sent ∧ BumpApproved past e h approval ∧
    ∃ gasLimit fees, h.envelope.admits fees.maxFeePerGas fees.maxPriorityFeePerGas ∧
      SignedBy past e.signer (buildTx h.intent h.nonce gasLimit fees) h.intentHash approval now rlp

/-- The reads `read_cycle` made for a cycle, in their order. -/
def cycleReads (e : AccountExecutor) (last : Nat) (tag : Option Nat) (cycle : Cycle) :
    List PortEvent :=
  [ev .blockNumber (.ok cycle.view.latest), ev (.txCount e.account) (.ok cycle.minedNonce),
    ev (.lastLatestLoad e.id) last, ev .finalizedBlock (.ok tag),
    ev (.lastLatestStore e.id cycle.view.latest) ()]

/-- The program is in this confirm cycle: its reads are the last ones of their kind. -/
def InCycle (past : List PortEvent) (e : AccountExecutor) (cycle : Cycle) : Prop :=
  ∃ before last tag after, past = before ++ cycleReads e last tag cycle ++ after ∧
    (∀ x ∈ after, x.op ≠ .blockNumber) ∧
    cycle.finality = ⟨if tag.isSome then .finalized else .depth, e.requiredConfirmations⟩ ∧
    cycle.view.finalized = tag.getD 0 ∧ last ≤ cycle.view.latest ∧
    cycle.view.finalized ≤ cycle.view.latest

omit [Alloy] in
theorem InCycle.append {past t : List PortEvent} {e : AccountExecutor} {cycle : Cycle}
    (hc : InCycle past e cycle) (ht : ∀ x ∈ t, x.op ≠ .blockNumber) :
    InCycle (past ++ t) e cycle := by
  obtain ⟨before, last, tag, after, hpast, hafter, hrest⟩ := hc
  refine ⟨before, last, tag, after ++ t, by simp [hpast], fun x hx => ?_, hrest⟩
  exact (List.mem_append.mp hx).elim (hafter x) (ht x)

/-- No receipt for any of these hashes. -/
def noReceipts (hashes : List TxHash) : List PortEvent :=
  hashes.map fun x => ev (.receipt x) (.ok none)

/-- What the scan of a handle's broadcasts read, and the event it distilled. -/
inductive Scanned (h : TxHandle) (mined : Nat) : List PortEvent → ChainEvent → Prop where
  | consumed : h.nonce < mined → Scanned h mined (noReceipts h.broadcasts.reverse) .replaced
  | open : mined ≤ h.nonce → Scanned h mined (noReceipts h.broadcasts.reverse) .pending
  | anchored {older newer : List TxHash} {x : TxHash} {rc : TransactionReceipt} {b : Nat}
      {bh : B256} : h.broadcasts = older ++ x :: newer → rc.blockNumber = some b →
      rc.blockHash = some bh →
      Scanned h mined (noReceipts newer.reverse ++
        [ev (.receipt x) (.ok (some rc)), ev (.blockHash b) (.ok (some bh))])
        (.mined b bh (outcomeOf rc h))

/-- A status that `confirm` persists follows from the reads of its cycle. -/
def Evidence (past : List PortEvent) (e : AccountExecutor) (h h' : TxHandle) : Prop :=
  ∃ before scan cycle event next, past = before ++ scan ∧ InCycle before e cycle ∧
    Pending before e.account h ∧ isAwaitingRelay h = false ∧
    Scanned h cycle.minedNonce scan event ∧
    transition h.status event cycle.view cycle.finality = some next ∧
    h' = { h with status := AccountExecutor.settleStatus h next }

theorem Evidence.seen {past : List PortEvent} {e : AccountExecutor} {h h' : TxHandle}
    (hev : Evidence past e h h') : SeenPending past e.account h := by
  obtain ⟨before, scan, cycle, event, next, rfl, -, hp, -⟩ := hev
  obtain ⟨hs, hread, hmem⟩ := hp.seen
  exact ⟨hs, List.mem_append_left _ hread, hmem⟩

/-- What a polled task does to its handle. -/
def Polled (past : List PortEvent) (e : AccountExecutor) (h h' : TxHandle) : Prop :=
  Pending past e.account h ∧ isAwaitingRelay h ∧
    ((∃ hash, h' = { h with broadcasts := h.broadcasts ++ [hash], status := .sent }) ∨
      ∃ reason, h' = { h with status := .failed reason })

end Ticks

section Owes

variable [Alloy]

/-- The clauses of the broadcasts. -/
def SubmitOwes (role : Role) (past : List PortEvent) (rlp : Bytes) (opts : SubmissionOpts) :
    SubmitSite → Prop
  | .send origin wal => ∃ m, role.sender = some m ∧ Prepared past m wal ∧ rlp = wal.signed ∧
      opts = wal.submission ∧
      past.getLast? = some (ev (.putHandle wal (.wal origin)) (.ok ()))
  | .recover h => ∃ e, role = .executor e ∧ rlp = h.signed ∧ opts = h.submission ∧
      (h.status = .pending ∨ h.status = .sent) ∧ h.signed ≠ [] ∧
      ∃ before hs after, past = before ++ ev (.pendingHandles e.account) (.ok hs) :: after ∧
        h ∈ hs ∧ ∀ x ∈ after, ∃ rlp opts site, x.op = .submit rlp opts site
  | .cancel marked => ∃ m approval now, role = .manager m ∧ opts = marked.submission ∧
      Cancelling past m marked approval ∧ CancelSigned past m marked approval now rlp
  | .bump h => ∃ e approval now, role = .executor e ∧
      opts = ⟨AccountExecutor.bumpRoute h⟩ ∧ BumpSigned past e h approval now rlp

/-- The clauses of the handle writes. -/
def PutOwes (role : Role) (past : List PortEvent) (h' : TxHandle) : PutSite → Prop
  | .wal _ => ∃ m, role.sender = some m ∧ Prepared past m h' ∧
      phase past = .reserved h'.account h'.nonce
  | .sent wal => h' = { wal with status := .sent } ∧ (∃ origin, Stored past wal (.wal origin)) ∧
      phase past = .out wal
  | .rejected wal => ∃ e : SubmissionError, h' = { wal with status := .failed e.toString } ∧
      e.isTransient = false ∧ e.isAlreadyAccepted = false ∧
      (∃ origin, Stored past wal (.wal origin)) ∧ phase past = .logged wal
  | .cancelMark target => ∃ id, h' = { target with cancelled := true } ∧
      target.status.isTerminal = false ∧ ev (.handle id) (.ok (some target)) ∈ past
  | .cancelUndo marked => ∃ m approval, role = .manager m ∧
      h' = { marked with cancelled := false } ∧ Cancelling past m marked approval
  | .cancelNew marked => ∃ m approval now signed, role = .manager m ∧
      h' = cancelHandle marked (cancelIntent marked.intent.chainId marked.account) approval now
        signed ∧ signed.hash = keccak256 signed.rlp ∧ Cancelling past m marked approval ∧
      CancelSigned past m marked approval now signed.rlp
  | .task => role = .relayed ∧ ∃ intent nonce now context,
      h' = taskHandle intent nonce now context
  | .advance h => ∃ e, role = .executor e ∧ Evidence past e h h'
  | .poll h => ∃ e, role = .executor e ∧ Polled past e h h'
  | .bump h => ∃ e approval now rlp, role = .executor e ∧
      h' = { h with
        submission := ⟨AccountExecutor.bumpRoute h⟩
        signed := rlp
        broadcasts := h.broadcasts ++ [keccak256 rlp]
        lastBroadcastAt := now } ∧ BumpSigned past e h approval now rlp ∧
      Pending past e.account h

/-- The clauses of the nonce swaps: a send takes one nonce at a time and gives back only
what it holds, once its record has settled. -/
def CasOwes (role : Role) (past : List PortEvent) (scope : NonceScope) (version : Nat)
    (value : NonceState) (note : CasNote) : Prop :=
  note.ComputedFrom past scope version value ∧
    match note with
    | .allocate _ _ => Done past
    | .release nonce => holding past = some (scope.account, nonce) ∧ Rested past
    | .reset c => Done past ∧
        ∃ e, role = .executor e ∧ scope = ⟨e.account⟩ ∧ ev (.txCount e.account) (.ok c) ∈ past

def Owes (role : Role) (past : List PortEvent) : Op → Prop
  | .submit rlp opts site => SubmitOwes role past rlp opts site
  | .putHandle h site => PutOwes role past h site
  | .casNonceState scope version value _ note => CasOwes role past scope version value note
  | .approvalsInsert x id approval => ∃ e h now rlp h', role = .executor e ∧ x = e.id ∧
      id = h.id ∧ BumpSigned past e h approval now rlp ∧ Stored past h' (.bump h)
  | .pendingHandles _ | .handle _ => Rested past
  | .lastLatestStore x latest => ∃ e, role = .executor e ∧ x = e.id ∧
      ev .blockNumber (.ok latest) ∈ past
  | _ => True

end Owes

end WalletKit
