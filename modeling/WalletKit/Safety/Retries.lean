import WalletKit.Runtime.Sends
import WalletKit.Runtime.Toy
import WalletKit.Runtime.Wallet
import WalletKit.Safety.Deliveries

/-!
# Sending again after an error

A host whose send has returned an error may send the intent again. A send that fails has either
stored nothing or has its record down as failed, and no broadcast of its own may be out; so
whatever ticks broadcast later belongs to the one send that did not fail. All the transactions of an
intent that may be out are on the nonce of that send, and the chain takes at most one of them.
-/
namespace WalletKit

open Machine

/-- The intent a call sends from the wallet's own account. -/
def WalletCall.sends : WalletCall → Option TxIntent
  | .send intent | .sendWith intent _ => some intent
  | _ => none

/-- A broadcast of the record that went out, or may have. -/
def MayBeOut (g : TxHandle) (e : PortEvent) : Prop :=
  ∃ rlp opts site r, e = ev (.submit rlp opts site) r ∧ site.record = some g ∧ maybeOut r

/-- The program has come to write down a rejection. -/
def Rejected (past : List PortEvent) : Prop :=
  ∃ h wal r, ev (.putHandle h (.rejected wal)) r ∈ past

section Programs

/-- An operation that neither broadcasts nor reads or writes handles. -/
def Silent : Op → Prop
  | .putHandle _ _ | .submit _ _ _ | .pendingHandles _ | .handle _ => False
  | _ => True

/-- A program that makes one send of an intent: one record, one broadcast, and a rejection only if
that broadcast cannot be out. -/
def SendsOnce (intent : TxIntent) (context : Option MetaContext) (past : List PortEvent) :
    Op → Prop
  | .putHandle h (.wal _) => h.intent = intent ∧ h.meta = context ∧ ∀ e ∈ past, Silent e.op
  | .putHandle _ (.sent _) => ¬Rejected past
  | .putHandle _ (.rejected _) => ∀ e ∈ past, ∀ g, ¬MayBeOut g e
  | .submit _ _ site => (∃ origin wal, site = .send origin wal) ∧ ¬Rejected past
  | .putHandle _ _ | .pendingHandles _ | .handle _ => False
  | _ => True

/-- A send that failed after its record was stored has come to write down a rejection. -/
def FailsRejected {ε : Type} (r : Except ε TxHandle) (past : List PortEvent) : Prop :=
  ∀ e, r = .error e → ∀ h origin, Stored past h (.wal origin) → Rejected past

variable {intent : TxIntent} {context : Option MetaContext} {past : List PortEvent}

theorem SendsOnce.of_silent {o : Op} (ho : Silent o) : SendsOnce intent context past o := by
  cases o <;> trivial

theorem wp_silent {α : Type} {x : Io α} {P : List PortEvent → Prop} (hx : x.Ops Silent)
    (hP : ∀ past e, Silent e.op → P past → P (past ++ [e])) (h : P past) :
    x.wp (.history (SendsOnce intent context)) (fun _ => P) past := by
  refine Prog.wp_of_ops hx (fun o v ho _ => .of_silent ho) (fun _ _ => trivial) ?_ h
  intro o v r v' ho hv hstep
  rw [hstep]
  exact hP v ⟨o, r⟩ ho hv

theorem not_stored_of_silent {h : TxHandle} {site : PutSite} (hpast : ∀ e ∈ past, Silent e.op) :
    ¬Stored past h site := fun hs => hpast _ hs

theorem not_rejected_of_silent (hpast : ∀ e ∈ past, Silent e.op) : ¬Rejected past := by
  rintro ⟨h, wal, r, he⟩
  exact hpast _ he

theorem not_mayBeOut_of_silent {g : TxHandle} {e : PortEvent} (he : Silent e.op) :
    ¬MayBeOut g e := by
  rintro ⟨rlp, opts, site, r, rfl, -⟩
  exact he

theorem silent_snoc {e : PortEvent} (he : Silent e.op) (hpast : ∀ e ∈ past, Silent e.op) :
    ∀ x ∈ past ++ [e], Silent x.op := by
  intro x hx
  rcases List.mem_append.mp hx with hx | hx
  · exact hpast x hx
  · rwa [List.mem_singleton.mp hx]

theorem Rejected.snoc (h : Rejected past) (e : PortEvent) : Rejected (past ++ [e]) := by
  obtain ⟨g, wal, r, he⟩ := h
  exact ⟨g, wal, r, List.mem_append_left _ he⟩

theorem rejected_snoc {e : PortEvent} : Rejected (past ++ [e]) ↔
    Rejected past ∨ ∃ h wal r, e = ev (.putHandle h (.rejected wal)) r := by
  simp only [Rejected, List.mem_append, List.mem_singleton, exists_or, eq_comm]

theorem LocalNonceManager.NonceOp.silent {o : Op} (ho : NonceOp o) : Silent o := by
  cases o <;> trivial

namespace TransactionManager

variable (m : TransactionManager)

theorem recycle_silent (a : Address) (nonce : Nat) : (m.recycle a nonce).Ops Silent :=
  (m.recycle_ops a nonce).mono fun _ ho => ho.silent

theorem submitWal_once {wal : TxHandle} {origin : Origin} {before : List PortEvent}
    (hbefore : ∀ e ∈ before, Silent e.op)
    (hpast : past = before ++ [ev (.putHandle wal (.wal origin)) (.ok ())]) :
    (m.submitWal wal origin).run.wp (.history (SendsOnce intent context)) FailsRejected past := by
  have hnot : ∀ r, ¬Rejected
      (past ++ [ev (.submit wal.signed wal.submission (.send origin wal)) r]) := by
    intro r
    rw [hpast, rejected_snoc, rejected_snoc]
    simp [not_rejected_of_silent hbefore, ev]
  have sent : ∀ r, (liftM (recordSent wal) : SendM TxHandle).run.wp
      (.history (SendsOnce intent context)) FailsRejected
      (past ++ [ev (.submit wal.signed wal.submission (.send origin wal)) r]) := by
    intro r
    simp only [Prog.wp_run_lift, recordSent, Prog.wp_bind, StateStore.wp_putHandle, asks_history]
    exact ⟨hnot r, fun r e he => by cases he⟩
  unfold submitWal
  simp only [Prog.wp_run_bind, Prog.wp_run_lift, Submission.wp_submit, asks_history,
    Prog.forall_except]
  refine ⟨⟨⟨origin, wal, rfl⟩, fun h => hnot (.ok 0) (h.snoc _)⟩, fun e => ?_, fun _ => sent _⟩
  split
  · exact sent _
  rename_i hreject
  unfold rejectSend
  simp only [Prog.wp_run_bind, Prog.wp_run_lift, StateStore.wp_putHandle, asks_history]
  refine ⟨?_, fun r => ?_⟩
  · intro x hx g hout
    simp only [hpast, List.mem_append, List.mem_singleton] at hx
    rcases hx with (hx | rfl) | rfl
    · exact not_mayBeOut_of_silent (hbefore x hx) hout
    · obtain ⟨_, _, _, _, he, -⟩ := hout
      cases he
    · obtain ⟨_, _, _, r, he, -, hr⟩ := hout
      cases he
      exact hreject hr
  · refine Prog.wp_mono (wp_silent (P := Rejected) (m.recycle_silent _ _)
      (fun _ e _ hr => hr.snoc e) ⟨_, wal, r, by simp⟩) ?_
    intro _ past hr e he h origin hs
    exact hr

variable [Alloy]

theorem buildSignSubmit_once (gasLimit : Nat) (fees : Eip1559Estimation) (nonce : Nat)
    (approval : PolicyApproval) (opts : SubmissionOpts) (origin : Origin)
    (hpast : ∀ e ∈ past, Silent e.op) :
    (m.buildSignSubmit intent gasLimit fees nonce approval opts context origin).run.wp
      (.history (SendsOnce intent context)) FailsRejected past := by
  have recycled : ∀ {past : List PortEvent} (e : TransactionManagerError),
      (∀ h origin, ¬Stored past h (.wal origin)) →
      (m.recycle intent.account nonce).wp (.history (SendsOnce intent context))
        (fun _ => FailsRejected (.error e)) past := by
    intro past e hnone
    refine Prog.wp_mono (wp_silent (P := fun past => ∀ h origin, ¬Stored past h (.wal origin))
      (m.recycle_silent _ _) ?_ hnone) ?_
    · intro past x hx hnone h origin hs
      rcases List.mem_append.mp hs with hs | hs
      · exact hnone h origin hs
      · rw [← List.mem_singleton.mp hs] at hx
        exact hx
    · intro _ past hnone _ _ h origin hs
      exact absurd hs (hnone h origin)
  have silent : ∀ {past : List PortEvent} {α : Type} {x : Io α}, x.Ops Silent →
      (∀ e ∈ past, Silent e.op) → x.wp (.history (SendsOnce intent context))
        (fun _ past => ∀ e ∈ past, Silent e.op) past := fun hx hpast =>
    wp_silent (P := fun past => ∀ e ∈ past, Silent e.op) hx (fun _ _ he => silent_snoc he) hpast
  unfold buildSignSubmit
  simp only [Prog.wp_run_bind, Prog.wp_run_lift, Clock.wp_nowUnix, asks_history,
    Prog.wp_run_outcome]
  refine ⟨trivial, fun now => Prog.wp_mono (silent (.tryBind
    (Prog.ops_orThrow ⟨trivial, fun _ => trivial⟩) fun _ => trivial)
    (silent_snoc trivial hpast)) fun signed past hpast => ?_⟩
  cases signed with
  | error e =>
    simp only [Prog.wp_run_bind, Prog.wp_run_lift]
    exact recycled _ fun h origin => not_stored_of_silent hpast
  | ok signed =>
    simp only [Prog.wp_run_bind, Prog.wp_run_lift, StateStore.wp_putHandle, asks_history,
      Prog.forall_except]
    refine ⟨⟨rfl, rfl, hpast⟩, fun e => recycled _ fun h origin hs => ?_,
      fun _ => m.submitWal_once hpast rfl⟩
    rcases List.mem_append.mp hs with hs | hs
    · exact not_stored_of_silent hpast hs
    · cases List.mem_singleton.mp hs

/-- A send stores one record, broadcasts it once, and has failed only if nothing of it is out. -/
theorem sendWithMeta_once (opts : SubmissionOpts) (origin : Origin)
    (hpast : ∀ e ∈ past, Silent e.op) :
    (m.sendWithMeta intent opts context origin).run.wp (.history (SendsOnce intent context))
      FailsRejected past := by
  have early : ∀ {past : List PortEvent} (e : TransactionManagerError),
      (∀ e ∈ past, Silent e.op) → FailsRejected (.error e) past :=
    fun e hpast _ _ h origin hs => absurd hs (not_stored_of_silent hpast)
  unfold sendWithMeta
  split
  · exact early _ hpast
  split
  · exact early _ hpast
  simp only [Prog.wp_run_bind, Prog.wp_run_lift, Rpc.wp_estimateGas, asks_history]
  refine ⟨trivial, fun estimated => ?_⟩
  have hpast₁ := silent_snoc (e := ev (.estimateGas ⟨some intent.account, some intent.to,
    some intent.value, intent.input⟩) estimated) trivial hpast
  split
  · exact early _ hpast₁
  · exact early _ hpast₁
  simp only [Prog.wp_run_bind, Prog.wp_run_orThrow, GasOracle.wp_estimate, asks_history,
    Prog.forall_except, Except.mapError, PolicyEngine.wp_evaluate]
  refine ⟨trivial, fun e => early _ (silent_snoc trivial hpast₁), fun fees => ⟨trivial,
    fun e => early _ (silent_snoc trivial (silent_snoc trivial hpast₁)), fun decision => ?_⟩⟩
  have hpast₂ := silent_snoc (e := ev (.evaluate m.policy (.transaction intent)) (.ok decision))
    trivial (silent_snoc (e := ev .gasEstimate (.ok fees)) trivial hpast₁)
  cases decision with
  | deny rejection => exact early _ hpast₂
  | allow approval =>
    simp only [Prog.wp_run_bind, Prog.wp_run_orThrow]
    refine Prog.wp_mono (wp_silent (P := fun past => ∀ e ∈ past, Silent e.op)
      ((m.nonceManager.allocate_ops _).mono fun _ ho => ho.silent)
      (fun _ _ he => silent_snoc he) hpast₂) fun nonce past hpast => ?_
    cases nonce with
    | error e => exact early _ hpast
    | ok nonce => exact m.buildSignSubmit_once _ _ _ _ _ _ hpast

end TransactionManager

/-- A write that logs no send of the wallet's own account. -/
def LogsNone : Op → Prop
  | .putHandle h (.wal _) => h.meta ≠ none
  | _ => True

/-- What the calls of a wallet that re-sends nothing do on the wallet's own account. -/
def WalletCall.Logs (c : WalletCall) (past : List PortEvent) (o : Op) : Prop :=
  match c.sends with
  | some intent => SendsOnce intent none past o
  | none => LogsNone o

def WalletCall.Failed (c : WalletCall) (r : WalletResult) (past : List PortEvent) : Prop :=
  c.sends.isSome → ∀ e, r = .sent (.error e) → ∀ h origin, Stored past h (.wal origin) →
    Rejected past

variable [Alloy]

/-- No executor of the wallet re-sends what was displaced. -/
def Wallet.RefillOff (w : Wallet) : Prop :=
  w.executor.refill = none ∧
    ∀ runtime, w.gasless = some (.selfRelay runtime) → runtime.executor.refill = none

theorem Wallet.sendGasless_logsNone (w : Wallet) (intent : TxIntent) (opts : GaslessOpts) :
    (w.sendGasless intent opts).run.Ops LogsNone := by
  have preliminary : ∀ {α : Type} {x : Io α}, x.Ops Preliminary → x.Ops LogsNone := fun hx =>
    hx.mono fun o ho => by cases o <;> trivial
  unfold Wallet.sendGasless
  split
  · refine .tryBind (preliminary (w.manager.buildAndSignForwardRequest_ops intent _ _))
      fun signed => Prog.ops_orThrow ?_
    have hnil : ∀ e ∈ ([] : List PortEvent), Silent e.op := by simp
    refine Prog.ops_of_history (TransactionManager.sendWithMeta_once _ _ _ hnil) ?_
    intro past o ho
    cases o with
    | putHandle h site =>
      cases site with
      | wal origin =>
        obtain ⟨-, hmeta, -⟩ := ho
        simp [LogsNone, hmeta]
      | _ => trivial
    | _ => trivial
  · exact .tryBind (.bind ⟨trivial, fun _ => trivial⟩ fun _ => trivial) fun _ =>
      .tryBind (Prog.ops_orThrow (preliminary (GelatoRelay.buildCall_ops ..))) fun _ =>
      .tryBind (Prog.ops_orThrow (preliminary (w.manager.signTypedData_ops _))) fun _ =>
      .tryBind (Prog.ops_orThrow ⟨trivial, fun _ => trivial⟩) fun _ =>
      Prog.ops_orThrow (.tryBind (.bind ⟨trivial, fun _ => trivial⟩ fun _ => trivial) fun _ =>
        .tryBind (Prog.ops_orThrow ⟨trivial, fun _ => trivial⟩) fun _ => trivial)
  · trivial

theorem Wallet.tick_logsNone {w : Wallet} (hrefill : w.RefillOff) : w.tick.run.Ops LogsNone := by
  refine Prog.ops_of_history (WalletCall.tick_history (w := w) (h := []) (done_of_idle rfl)) ?_
  rintro past o ⟨role, hrole, howes⟩
  have hsender : role.sender = none := by
    obtain rfl | ⟨runtime, hgasless, rfl⟩ := hrole
    · exact hrefill.1
    · exact hrefill.2 runtime hgasless
  cases o with
  | putHandle h site =>
    cases site with
    | wal origin =>
      obtain ⟨m, hm, -⟩ := howes
      cases hsender.symm.trans hm
    | _ => trivial
  | _ => trivial

theorem WalletCall.body_logs {w : Wallet} (hrefill : w.RefillOff) (c : WalletCall) :
    (c.body w).wp (.history c.Logs) c.Failed [] := by
  have other : ∀ {x : Io WalletResult}, c.sends = none → x.Ops LogsNone →
      x.wp (.history c.Logs) c.Failed [] := by
    intro x hc hx
    refine Prog.wp_mono (Prog.wp_of_ops (P := fun _ => True) hx (fun o past ho _ => ?_)
      (fun _ _ => trivial) (fun _ _ _ _ _ _ _ => trivial) trivial) fun r past _ h => ?_
    · simpa only [Spec.history, Logs, hc] using ho
    · simp [hc] at h
  cases c with
  | send intent | sendWith intent opts =>
    refine Prog.wp_map.mpr (Prog.wp_run_orThrow.mpr (Prog.wp_mono
      (w.manager.sendWithMeta_once _ _ (by simp)) fun r past hr _ e he => ?_))
    cases r with
    | ok h => cases he
    | error e' => exact hr e' rfl
  | sendGasless intent opts =>
    exact other rfl (.bind (w.sendGasless_logsNone intent opts) fun _ => trivial)
  | cancel id =>
    refine other rfl (.bind (Prog.ops_orThrow ((w.manager.cancel_notSending id).mono ?_))
      fun _ => trivial)
    intro o ho
    cases o with
    | putHandle h site =>
      cases site with
      | wal => cases ho
      | _ => trivial
    | _ => trivial
  | tick => exact other rfl (.bind (w.tick_logsNone hrefill) fun _ => trivial)
  | handle id =>
    exact other rfl (.bind (Prog.ops_orThrow ⟨trivial, fun _ => trivial⟩) fun _ => trivial)
  | status id =>
    exact other rfl (.bind (.tryBind (Prog.ops_orThrow ⟨trivial, fun _ => trivial⟩)
      fun _ => trivial) fun _ => trivial)

end Programs

section Runs

variable [Alloy]

/-- Whether a send has returned an error. -/
def sendFailed (th : WalletThread) : Bool :=
  match th.prog with
  | .ret (.sent (.error _)) => true
  | _ => false

omit [Alloy] in
theorem sendFailed_iff {th : WalletThread} :
    sendFailed th ↔ ∃ e, th.prog = .ret (.sent (.error e)) := by
  unfold sendFailed
  split
  · rename_i e hprog
    exact ⟨fun _ => ⟨e, hprog⟩, fun _ => rfl⟩
  · rename_i hprog
    exact ⟨fun h => (by cases h), fun ⟨e, he⟩ => absurd he (hprog e)⟩

/-- A host that makes one call at a time, each of which may be cut off anywhere, and sends an intent
again only if every send of it so far has returned an error. The store writes the record of a
rejection, and may fail otherwise. -/
def Wallet.retrying (w : Wallet) : System ports World WalletCall WalletResult :=
  { w.client.sequential fun _ e => rejectWritten e with
    admits := fun p c => ∀ th ∈ p.threads,
      c.sends.isSome → th.call.sends = c.sends → sendFailed th }

theorem Wallet.retrying_runs (w : Wallet) : w.client.Runs w.retrying id where
  can ha := ha.1
  next _ := rfl
  body := rfl

/-- A record of a send from the wallet's own account that is not the self-send of a cancel. -/
def TxHandle.Plain (g : TxHandle) : Prop :=
  g.meta = none ∧ g.intent ≠ cancelIntent g.intent.chainId g.intent.account

/-- This call sent the record's intent on its nonce, and has met no rejection. -/
structure Owns (th : WalletThread) (g : TxHandle) : Prop where
  sends : th.call.sends = some g.intent
  stored : ∃ h origin, Stored th.past h (.wal origin) ∧ h.nonce = g.nonce
  kept : ¬Rejected th.past

def OwnedBy (p : WalletPool) (j : Nat) (g : TxHandle) : Prop :=
  ∃ th, p.threads[j]? = some th ∧ Owns th g

/-- A call has seen the record alive, or has broadcast it. -/
def Bears (g : TxHandle) (e : PortEvent) : Prop :=
  MayBeOut g e ∨ Reads g e ∧ g.status.isTerminal = false

/-- Every live record, and every record that a call has seen alive or may have broadcast, belongs to
a send that was made before. -/
structure Owned (p : WalletPool) : Prop where
  stored : ∀ g, p.world.store.handle g.id = some g → g.Plain → g.status.isTerminal = false →
    ∃ j, OwnedBy p j g
  borne : ∀ i th, p.threads[i]? = some th → ∀ e ∈ th.past, ∀ g, Bears g e → g.Plain →
    ∃ j ≤ i, OwnedBy p j g

omit [Alloy] in
/-- Of two events of a list one came first. -/
theorem first_of_two {β : Type} {l : List β} {x y : β} (hx : x ∈ l) (hy : y ∈ l) :
    x = y ∨ (∃ a b, l = a ++ y :: b ∧ x ∈ a) ∨ ∃ a b, l = a ++ x :: b ∧ y ∈ a := by
  obtain ⟨a, b, rfl⟩ := List.append_of_mem hx
  rcases List.mem_append.mp hy with hy | hy
  · exact .inr (.inr ⟨a, b, rfl, hy⟩)
  rcases List.mem_cons.mp hy with rfl | hy
  · exact .inl rfl
  · obtain ⟨c, d, rfl⟩ := List.append_of_mem hy
    exact .inr (.inl ⟨a ++ x :: c, d, by simp, by simp⟩)

variable {w : Wallet} {p : WalletPool} {th : WalletThread} {g g' : TxHandle}

/-- What a call owed when it did what it has done. -/
theorem logs_owed (hrefill : w.RefillOff) (h : w.retrying.Reaches Client.start p)
    (hth : th ∈ p.threads) {before after : List PortEvent} {e : PortEvent}
    (hpast : th.past = before ++ e :: after) : th.call.Logs before e.op :=
  h.owed (WalletCall.body_logs hrefill) rfl th hth before e after hpast

/-- What a call owes now. -/
theorem logs_owes (hrefill : w.RefillOff) (h : w.retrying.Reaches Client.start p)
    (hth : th ∈ p.threads) {o : Op} {k : o.Reply → Io WalletResult} (hprog : th.prog = .call o k) :
    th.call.Logs th.past o := by
  have hnow := h.history (WalletCall.body_logs hrefill) rfl th hth
  rw [hprog] at hnow
  exact (Prog.wp_history_call.mp hnow).1

theorem sendsOnce_owed (hrefill : w.RefillOff) (h : w.retrying.Reaches Client.start p)
    (hth : th ∈ p.threads) {intent : TxIntent} (hsends : th.call.sends = some intent)
    {before after : List PortEvent} {e : PortEvent} (hpast : th.past = before ++ e :: after) :
    SendsOnce intent none before e.op := by
  have howed := logs_owed hrefill h hth hpast
  rwa [WalletCall.Logs, hsends] at howed

/-- A call that has logged a record for the wallet's own account is a send of its intent. -/
theorem sends_of_logged (hrefill : w.RefillOff) (h : w.retrying.Reaches Client.start p)
    (hth : th ∈ p.threads) {origin : Origin} (hs : Stored th.past g (.wal origin))
    (hmeta : g.meta = none) : th.call.sends = some g.intent := by
  obtain ⟨before, after, hpast⟩ := List.append_of_mem hs
  have howed := logs_owed hrefill h hth hpast
  cases hsends : th.call.sends with
  | none =>
    rw [WalletCall.Logs, hsends] at howed
    exact absurd hmeta howed
  | some intent =>
    rw [WalletCall.Logs, hsends] at howed
    rw [howed.1]

/-- A send logs one record. -/
theorem logged_once (hrefill : w.RefillOff) (h : w.retrying.Reaches Client.start p)
    (hth : th ∈ p.threads) {intent : TxIntent} (hsends : th.call.sends = some intent)
    {origin origin' : Origin} (hs : Stored th.past g (.wal origin))
    (hs' : Stored th.past g' (.wal origin')) : g = g' := by
  rcases first_of_two hs hs' with he | ⟨a, b, hpast, hbefore⟩ | ⟨a, b, hpast, hbefore⟩
  · cases he
    rfl
  · exact absurd hbefore (not_stored_of_silent (sendsOnce_owed hrefill h hth hsends hpast).2.2)
  · exact absurd hbefore (not_stored_of_silent (sendsOnce_owed hrefill h hth hsends hpast).2.2)

/-- A send that failed owns nothing. -/
theorem Owns.not_failed (hrefill : w.RefillOff) (h : w.retrying.Reaches Client.start p)
    (hth : th ∈ p.threads) (hown : Owns th g) : ¬sendFailed th := by
  intro hfailed
  obtain ⟨e, hret⟩ := sendFailed_iff.mp hfailed
  obtain ⟨g', origin, hs, -⟩ := hown.stored
  have hends := h.history (WalletCall.body_logs hrefill) rfl th hth
  rw [hret] at hends
  have hfailed : th.call.Failed (.sent (.error e)) th.past := hends
  exact hown.kept (hfailed (by simp [hown.sends]) e rfl g' origin hs)

/-- Of two sends of one intent the earlier one has failed. -/
theorem earlier_send_failed (h : w.retrying.Reaches Client.start p) {i j : Nat} (hij : i < j)
    {th th' : WalletThread} (hi : p.threads[i]? = some th) (hj : p.threads[j]? = some th')
    {intent : TxIntent} (hsends : th.call.sends = some intent)
    (hsends' : th'.call.sends = some intent) : sendFailed th := by
  induction h generalizing th th' with
  | refl => simp [Client.start] at hi
  | @tail p q hreach hs ih =>
    cases hs with
    | spawn c hc =>
      have hlt : j < p.threads.length + 1 := by
        have := (List.getElem?_eq_some_iff.mp hj).1
        simpa [Pool.spawn] using this
      rcases Pool.get_spawn hi with hi | ⟨rfl, -⟩
      · rcases Pool.get_spawn hj with hj | ⟨rfl, rfl⟩
        · exact ih hi hj hsends hsends'
        · exact hc th (List.mem_of_getElem? hi) (by simp [hsends']) (hsends.trans hsends'.symm)
      · omega
    | @move k mover o cont x r hk hprog ha =>
      rw [Pool.get_answer hk] at hi hj
      split at hi
      · -- a send that failed does not move
        rename_i hik
        subst hik
        rw [if_neg (by omega)] at hj
        cases hi
        obtain ⟨e, hret⟩ := sendFailed_iff.mp (ih hk hj hsends hsends')
        cases hret.symm.trans hprog
      · split at hj
        · rename_i hjk
          subst hjk
          cases hj
          exact ih hi hk hsends hsends'
        · exact ih hi hj hsends hsends'

omit [Alloy] in
theorem OwnedBy.owns {i : Nat} (hown : OwnedBy p i g) (hi : p.threads[i]? = some th) :
    Owns th g := by
  obtain ⟨th', hi', hown⟩ := hown
  rwa [Option.some.inj (hi.symm.trans hi')]

omit [Alloy] in
theorem OwnedBy.lt_length {j : Nat} (hown : OwnedBy p j g) : j < p.threads.length := by
  obtain ⟨th, hj, -⟩ := hown
  exact (List.getElem?_eq_some_iff.mp hj).1

omit [Alloy] in
theorem OwnedBy.spawn {j : Nat} (hown : OwnedBy p j g) (c : WalletCall) (b : Io WalletResult) :
    OwnedBy (p.spawn c b) j g := by
  have hlt := hown.lt_length
  obtain ⟨th, hj, hown⟩ := hown
  exact ⟨th, by rwa [Pool.spawn, List.getElem?_append_left hlt], hown⟩

omit [Alloy] in
/-- Only a rejection that the owner itself writes down takes a record from it. -/
theorem OwnedBy.answer {i j : Nat} {o : Op} {r : o.Reply} {k : Io WalletResult} {v : World}
    (hown : OwnedBy p j g) (hi : p.threads[i]? = some th)
    (hkept : j = i → ∀ h wal, o ≠ .putHandle h (.rejected wal)) :
    OwnedBy (p.answer i th o r k v) j g := by
  by_cases hij : j = i
  · subst hij
    have howns := hown.owns hi
    obtain ⟨h, origin, hs, hnonce⟩ := howns.stored
    refine ⟨⟨th.call, th.past ++ [⟨o, r⟩], k⟩, by rw [Pool.get_answer hi, if_pos rfl],
      howns.sends, ⟨h, origin, List.mem_append_left _ hs, hnonce⟩, ?_⟩
    rw [rejected_snoc]
    rintro (hr | ⟨h, wal, r', he⟩)
    · exact howns.kept hr
    · exact hkept rfl h wal (congrArg Event.op he)
  · obtain ⟨th', hj, hown⟩ := hown
    exact ⟨th', by rw [Pool.get_answer hi, if_neg hij, hj], hown⟩

/-- What is written over a record, but by a send, was computed from one that the call has read. -/
theorem PutOwes.read_basis {role : Role} {past : List PortEvent} {h' b : TxHandle} {site : PutSite}
    (hput : PutOwes role past h' site) (hb : site.basis = some b) (hsite : ¬site.isSend) :
    ∃ g, (∃ e ∈ past, Reads g e) ∧ g.status = b.status ∧ h'.intent = g.intent ∧
      h'.nonce = g.nonce ∧ h'.meta = g.meta := by
  have seen : ∀ {a g}, SeenPending past a g → ∃ e ∈ past, Reads g e := by
    rintro a g ⟨hs, hmem, hg⟩
    exact ⟨_, hmem, hs, rfl, hg⟩
  cases site with
  | wal | cancelNew | task => cases hb
  | sent | rejected => exact absurd trivial hsite
  | cancelMark target =>
    cases hb
    obtain ⟨id, rfl, -, hread⟩ := hput
    exact ⟨b, ⟨_, hread, rfl⟩, rfl, rfl, rfl, rfl⟩
  | cancelUndo marked =>
    cases hb
    obtain ⟨m, approval, -, rfl, target, rfl, -, ⟨id, hread⟩, -⟩ := hput
    exact ⟨target, ⟨_, hread, rfl⟩, rfl, rfl, rfl, rfl⟩
  | advance g =>
    cases hb
    obtain ⟨e, -, hev⟩ := hput
    obtain ⟨before, scan, cycle, event, next, -, -, -, -, -, -, rfl⟩ := id hev
    exact ⟨b, seen hev.seen, rfl, rfl, rfl, rfl⟩
  | poll g =>
    cases hb
    obtain ⟨e, -, hp, -, ⟨x, rfl⟩ | ⟨reason, rfl⟩⟩ := hput <;>
      exact ⟨b, seen hp.seen, rfl, rfl, rfl, rfl⟩
  | bump g =>
    cases hb
    obtain ⟨e, approval, now, rlp, -, rfl, hsigned, -⟩ := hput
    exact ⟨b, seen hsigned.1, rfl, rfl, rfl, rfl⟩

omit [Alloy] in
theorem not_bears_put (g : TxHandle) {h' : TxHandle} {site : PutSite}
    {r : Except StateStoreError Unit} : ¬Bears g (ev (.putHandle h' site) r) := by
  rintro (⟨_, _, _, _, he, -⟩ | ⟨hr, -⟩)
  · cases he
  · cases hr

omit [Alloy] in
theorem Reads.not_sendsOnce {e : PortEvent} {intent : TxIntent} {context : Option MetaContext}
    {past : List PortEvent} (hr : Reads g e) : ¬SendsOnce intent context past e.op := by
  obtain ⟨o, r⟩ := e
  cases o with
  | pendingHandles | handle => exact fun h => h
  | _ => cases hr

/-- The step in which a rejection is written down. -/
theorem Owned.reject (hrefill : w.RefillOff) (h : w.retrying.Reaches Client.start p)
    (hown : Owned p) {i : Nat} (hi : p.threads[i]? = some th) (hlast : i + 1 = p.threads.length)
    {h' wal : TxHandle} {k : Except StateStoreError Unit → Io WalletResult}
    (hprog : th.prog = .call (.putHandle h' (.rejected wal)) k) :
    Owned (p.answer i th (.putHandle h' (.rejected wal)) (.ok ()) (k (.ok ()))
      (p.world.apply (ev (.putHandle h' (.rejected wal)) (.ok ())))) := by
  have hS := w.retrying_runs
  have hth := List.mem_of_getElem? hi
  obtain ⟨role, -, e, rfl, -, -, ⟨origin, hs⟩, -⟩ := hS.owes Client.fresh_start h hth hprog
  have hlogs := logs_owes hrefill h hth hprog
  refine ⟨fun g hg hplain hlive => ?_, fun i' th' hi' x hx g hbears hplain => ?_⟩
  · rcases World.stored_put hg with rfl | ⟨hid, hstored⟩
    · cases hlive
    obtain ⟨j, hj⟩ := hown.stored g hstored hplain hlive
    refine ⟨j, hj.answer hi fun hji => ?_⟩
    -- the owner's only record is the one that was written
    subst hji
    have howns := hj.owns hi
    obtain ⟨g', origin', hs', hnonce⟩ := howns.stored
    obtain rfl := logged_once hrefill h hth howns.sends hs hs'
    obtain ⟨before, after, hpast⟩ := List.append_of_mem hs
    have hintent : wal.intent = g.intent := (sendsOnce_owed hrefill h hth howns.sends hpast).1
    obtain ⟨hcoherent, hknown⟩ := hS.coherent Client.fresh_start h
    have hwal : Coherent wal := hknown th hth wal hs.known
    refine absurd ?_ hid
    rw [(hcoherent g hstored).id, hwal.id, hintent, hnonce]
  · rcases Pool.seen_answer hi hi' hx with ⟨th₀, hi₀, hx⟩ | ⟨-, rfl⟩
    · obtain ⟨j, hj, howned⟩ := hown.borne i' th₀ hi₀ x hx g hbears hplain
      refine ⟨j, hj, howned.answer hi fun hji => ?_⟩
      -- a send neither reads handles nor writes down a rejection of what may be out
      have hlt : i' < p.threads.length := (List.getElem?_eq_some_iff.mp hi₀).1
      obtain rfl : i' = i := by omega
      obtain rfl : th = th₀ := Option.some.inj (hi.symm.trans hi₀)
      have howns := (hji ▸ howned).owns hi
      rw [WalletCall.Logs, howns.sends] at hlogs
      rcases hbears with hout | ⟨hread, -⟩
      · exact absurd hout (hlogs x hx g)
      · obtain ⟨before, after, hpast⟩ := List.append_of_mem hx
        exact absurd (sendsOnce_owed hrefill h hth howns.sends hpast) hread.not_sendsOnce
    · exact absurd hbears (not_bears_put g)

/-- What a send has logged for the wallet's own account is its own, unless it was rejected. -/
theorem ownedBy_of_logged (hrefill : w.RefillOff) (h : w.retrying.Reaches Client.start p) {i : Nat}
    (hi : p.threads[i]? = some th) {o : Op} {k : o.Reply → Io WalletResult}
    (hprog : th.prog = .call o k)
    (hkept : ∀ intent, SendsOnce intent none th.past o → ¬Rejected th.past) {origin : Origin}
    (hs : Stored th.past g (.wal origin)) (hmeta : g.meta = none) : OwnedBy p i g := by
  have hth := List.mem_of_getElem? hi
  have hlogs := logs_owes hrefill h hth hprog
  have hsends := sends_of_logged hrefill h hth hs hmeta
  rw [WalletCall.Logs, hsends] at hlogs
  exact ⟨th, hi, hsends, ⟨g, origin, hs, rfl⟩, hkept _ hlogs⟩

/-- What is broadcast has an owner. -/
theorem Owned.broadcast (hrefill : w.RefillOff) (h : w.retrying.Reaches Client.start p)
    (hown : Owned p) {i : Nat} (hi : p.threads[i]? = some th) {rlp : Bytes} {opts : SubmissionOpts}
    {site : SubmitSite} {k : Except SubmissionError TxHash → Io WalletResult}
    (hprog : th.prog = .call (.submit rlp opts site) k) (hrecord : site.record = some g)
    (hplain : g.Plain) : ∃ j ≤ i, OwnedBy p j g := by
  obtain ⟨role, -, howes⟩ :=
    w.retrying_runs.owes Client.fresh_start h (List.mem_of_getElem? hi) hprog
  have seen : g.status.isTerminal = false → (∃ y ∈ th.past, Reads g y) →
      ∃ j ≤ i, OwnedBy p j g := by
    rintro hlive ⟨y, hy, hread⟩
    exact hown.borne i th hi y hy g (.inr ⟨hread, hlive⟩) hplain
  cases site with
  | cancel => cases hrecord
  | send origin wal =>
    cases hrecord
    obtain ⟨m, -, -, -, -, hlogged⟩ := howes
    exact ⟨i, le_refl _, ownedBy_of_logged hrefill h hi hprog (fun _ ho => ho.2)
      (List.mem_of_getLast? hlogged) hplain.1⟩
  | recover =>
    cases hrecord
    obtain ⟨e, -, -, -, hstatus, -, before, hs, after, hpast, hmem, -⟩ := howes
    refine seen ?_ ⟨ev (.pendingHandles e.account) (.ok hs), by simp [hpast], hs, rfl, hmem⟩
    rcases hstatus with hstatus | hstatus <;> rw [hstatus] <;> rfl
  | bump =>
    cases hrecord
    obtain ⟨e, approval, now, -, -, ⟨hs, hread, hmem⟩, hstatus, -⟩ := howes
    exact seen (by rw [hstatus]; rfl) ⟨_, hread, hs, rfl, hmem⟩

/-- What is written over a record has the record's owner, but for a rejection. -/
theorem Owned.overwrite (hrefill : w.RefillOff) (h : w.retrying.Reaches Client.start p)
    (hown : Owned p) {i : Nat} (hi : p.threads[i]? = some th) {site : PutSite}
    {k : Except StateStoreError Unit → Io WalletResult}
    (hprog : th.prog = .call (.putHandle g site) k) {b : TxHandle} (hb : site.basis = some b)
    (hkept : ∀ wal, site ≠ .rejected wal) (hplain : g.Plain) : ∃ j, OwnedBy p j g := by
  have hS := w.retrying_runs
  have hth := List.mem_of_getElem? hi
  obtain ⟨role, -, howes⟩ := hS.owes Client.fresh_start h hth hprog
  by_cases hsite : site.isSend
  · cases site with
    | sent wal =>
      obtain ⟨rfl, ⟨origin, hs⟩, -⟩ := howes
      obtain ⟨th', hi', hown⟩ := ownedBy_of_logged hrefill h hi hprog (fun _ ho => ho) hs hplain.1
      exact ⟨i, th', hi', hown.sends, hown.stored, hown.kept⟩
    | rejected wal => exact absurd rfl (hkept wal)
    | wal => cases hb
    | _ => cases hsite
  · obtain ⟨g', ⟨y, hy, hread⟩, hstatus, hintent, hnonce, hmeta⟩ := howes.read_basis hb hsite
    have hlive := hS.basis_live Client.fresh_start h hth howes hb
    obtain ⟨j, -, th', hj, hown⟩ := hown.borne i th hi y hy g' (.inr ⟨hread, hstatus ▸ hlive⟩)
      (by rwa [TxHandle.Plain, ← hmeta, ← hintent])
    exact ⟨j, th', hj, hintent ▸ hown.sends, hnonce ▸ hown.stored, hown.kept⟩

/-- A new record of the wallet's own account belongs to the send that writes it. -/
theorem ownedBy_of_logging (hrefill : w.RefillOff) (h : w.retrying.Reaches Client.start p) {i : Nat}
    (hi : p.threads[i]? = some th) {site : PutSite}
    {k : Except StateStoreError Unit → Io WalletResult}
    (hprog : th.prog = .call (.putHandle g site) k) (hb : site.basis = none) (hplain : g.Plain)
    (v : World) : OwnedBy (p.answer i th (.putHandle g site) (.ok ()) (k (.ok ())) v) i g := by
  have hth := List.mem_of_getElem? hi
  obtain ⟨role, -, howes⟩ := w.retrying_runs.owes Client.fresh_start h hth hprog
  cases site with
  | wal origin =>
    have hlogs := logs_owes hrefill h hth hprog
    cases hsends : th.call.sends with
    | none =>
      rw [WalletCall.Logs, hsends] at hlogs
      exact absurd hplain.1 hlogs
    | some intent =>
      rw [WalletCall.Logs, hsends] at hlogs
      obtain ⟨rfl, -, hsilent⟩ := hlogs
      refine ⟨_, (Pool.get_answer hi i).trans (if_pos rfl), hsends,
        ⟨g, origin, by simp [Stored, ev], rfl⟩, ?_⟩
      rw [rejected_snoc]
      simp [not_rejected_of_silent hsilent, ev]
  | cancelNew marked =>
    obtain ⟨m, approval, now, signed, -, rfl, -⟩ := howes
    exact absurd rfl hplain.2
  | task =>
    obtain ⟨-, intent, nonce, now, context, rfl⟩ := howes
    cases hplain.1
  | _ => cases hb

/-- Any other step takes no record from its owner, and what it broadcasts, reads or writes has
one. -/
theorem Owned.move (hrefill : w.RefillOff) (h : w.retrying.Reaches Client.start p)
    (hown : Owned p) {i : Nat} (hi : p.threads[i]? = some th) (hlast : i + 1 = p.threads.length)
    {o : Op} {k : o.Reply → Io WalletResult} (hprog : th.prog = .call o k) {r : o.Reply}
    (hcan : p.world.can ⟨o, r⟩) (hkept : ∀ h' wal, o ≠ .putHandle h' (.rejected wal)) :
    Owned (p.answer i th o r (k r) (p.world.apply ⟨o, r⟩)) := by
  have keep : ∀ {j g}, OwnedBy p j g →
      OwnedBy (p.answer i th o r (k r) (p.world.apply ⟨o, r⟩)) j g :=
    fun hj => hj.answer hi fun _ => hkept
  refine ⟨fun g hg hplain hlive => ?_, fun i' th' hi' x hx g hbears hplain => ?_⟩
  · rw [Pool.world_answer] at hg
    cases hw : wrote ⟨o, r⟩ with
    | none =>
      rw [World.handle_apply, hw] at hg
      obtain ⟨j, hj⟩ := hown.stored g hg hplain hlive
      exact ⟨j, keep hj⟩
    | some h' =>
      obtain ⟨site, he⟩ := wrote_eq_some hw
      cases he
      rcases World.stored_put hg with rfl | ⟨-, hstored⟩
      · cases hb : site.basis with
        | some b =>
          obtain ⟨j, hj⟩ := hown.overwrite hrefill h hi hprog hb
            (fun wal hs => hkept g wal (by rw [hs])) hplain
          exact ⟨j, keep hj⟩
        | none => exact ⟨i, ownedBy_of_logging hrefill h hi hprog hb hplain _⟩
      · obtain ⟨j, hj⟩ := hown.stored g hstored hplain hlive
        exact ⟨j, keep hj⟩
  · rcases Pool.seen_answer hi hi' hx with ⟨th₀, hi', hx⟩ | ⟨rfl, rfl⟩
    · obtain ⟨j, hj, howned⟩ := hown.borne i' th₀ hi' x hx g hbears hplain
      exact ⟨j, hj, keep howned⟩
    rcases hbears with ⟨rlp, opts, site, r', he, hrecord, -⟩ | ⟨hread, hlive⟩
    · cases he
      obtain ⟨j, hj, howned⟩ := hown.broadcast hrefill h hi hprog hrecord hplain
      exact ⟨j, hj, keep howned⟩
    · obtain ⟨j, hj⟩ := hown.stored g (stored_of_reads hread hcan) hplain hlive
      have hlt := hj.lt_length
      exact ⟨j, by omega, keep hj⟩

/-- In every run each live record has an owner, and so has all that may be out. -/
theorem owned (hrefill : w.RefillOff) (h : w.retrying.Reaches Client.start p) : Owned p := by
  induction h with
  | refl =>
    refine ⟨fun g hg => ?_, fun i th hi => ?_⟩
    · simp [Client.start, World.initial, Store.empty, Store.handle] at hg
    · simp [Client.start] at hi
  | @tail p q hreach hs ih =>
    cases hs with
    | spawn c _ =>
      refine ⟨fun g hg hplain hlive => ?_, fun i th hi x hx g hbears hplain => ?_⟩
      · obtain ⟨j, hj⟩ := ih.stored g hg hplain hlive
        exact ⟨j, hj.spawn _ _⟩
      · rcases Pool.get_spawn hi with hi | ⟨-, rfl⟩
        · obtain ⟨j, hle, hj⟩ := ih.borne i th hi x hx g hbears hplain
          exact ⟨j, hle, hj.spawn _ _⟩
        · cases hx
    | @move i th o k x r hi hprog ha =>
      obtain ⟨hcan, hlast, hwritten⟩ := ha
      by_cases hreject : ∃ h' wal, o = .putHandle h' (.rejected wal)
      · obtain ⟨h', wal, rfl⟩ := hreject
        cases r with
        | error e => cases hwritten
        | ok => exact ih.reject hrefill hreach hi hlast hprog
      · exact ih.move hrefill hreach hi hlast hprog hcan fun h' wal ho => hreject ⟨h', wal, ho⟩

/-- Two broadcasts for one intent that may be out are on one nonce. -/
theorem nonce_of_mayBeOut (hrefill : w.RefillOff) (h : w.retrying.Reaches Client.start p)
    {i i' : Nat} {e e' : PortEvent} (he : e ∈ p.pastOf i) (he' : e' ∈ p.pastOf i')
    (hout : MayBeOut g e) (hout' : MayBeOut g' e') (hplain : g.Plain) (hplain' : g'.Plain)
    (hintent : g'.intent = g.intent) : g'.nonce = g.nonce := by
  have owner : ∀ {i e g}, e ∈ p.pastOf i → MayBeOut g e → g.Plain → ∃ j, OwnedBy p j g := by
    intro i e g he hout hplain
    obtain ⟨th, hi, hmem⟩ := Pool.mem_pastOf.mp he
    obtain ⟨j, -, hj⟩ := (owned hrefill h).borne i th hi e hmem g (.inl hout) hplain
    exact ⟨j, hj⟩
  obtain ⟨j, th, hj, howns⟩ := owner he hout hplain
  obtain ⟨j', th', hj', howns'⟩ := owner he' hout' hplain'
  have hth := List.mem_of_getElem? hj
  have hth' := List.mem_of_getElem? hj'
  have hsends' : th'.call.sends = some g.intent := hintent ▸ howns'.sends
  -- the owners are sends of one intent, and neither has failed
  rcases Nat.lt_trichotomy j j' with hlt | rfl | hlt
  · exact absurd (earlier_send_failed h hlt hj hj' howns.sends hsends')
      (howns.not_failed hrefill h hth)
  · obtain rfl : th = th' := Option.some.inj (hj.symm.trans hj')
    obtain ⟨wal, origin, hs, hnonce⟩ := howns.stored
    obtain ⟨wal', origin', hs', hnonce'⟩ := howns'.stored
    obtain rfl := logged_once hrefill h hth howns.sends hs hs'
    exact hnonce'.symm.trans hnonce
  · exact absurd (earlier_send_failed h hlt hj' hj hsends' howns.sends)
      (howns'.not_failed hrefill h hth')

/-- What goes out for a record is a transaction of its intent and nonce. -/
theorem encodes_of_past (h : w.retrying.Reaches Client.start p) {i : Nat} {rlp : Bytes}
    {opts : SubmissionOpts} {site : SubmitSite} {r : Except SubmissionError TxHash}
    (he : ev (.submit rlp opts site) r ∈ p.pastOf i) (hrecord : site.record = some g) :
    Encodes g rlp := by
  have hS := w.retrying_runs
  obtain ⟨th, hi, hmem⟩ := Pool.mem_pastOf.mp he
  have hth := List.mem_of_getElem? hi
  obtain ⟨before, after, hpast⟩ := List.append_of_mem hmem
  obtain ⟨role, -, howes⟩ := hS.owed Client.fresh_start h hth hpast
  refine (SubmitOwes.known_encodes howes hrecord fun g' hknown => ?_).2
  obtain ⟨x, hx, hg'⟩ := hknown
  exact (hS.encodes Client.fresh_start h).2 th hth g' ⟨x, by simp [hpast, hx], hg'⟩

end Runs

section Deliveries

variable [Alloy]

/-- The host over a network whose broadcasts are not taken for rejections that are none. -/
abbrev Wallet.retryingOver (w : Wallet) (hasPrivate : Bool) :
    System ports Wired WalletCall WalletResult :=
  overNetwork w.retrying hasPrivate Network.readsBroadcasts

/-- The bytes for an intent sent from the wallet's own account that left and were not refused. -/
def outFor (hasPrivate : Bool) (intent : TxIntent) : PortEvent × Network → Option Bytes
  | (⟨.submit rlp opts site, _⟩, net) =>
    match site.record with
    | some g =>
      if g.meta = none ∧ g.intent = intent ∧ net.leavesOpen hasPrivate (.submit rlp opts site)
      then some rlp else none
    | none => none
  | _ => none

variable {hasPrivate : Bool} {w : Wallet} {p : Pool ports Wired WalletCall WalletResult}

/-- What is out for an intent was broadcast for a record of it, and may be out as far as the call
was told. -/
theorem mayBeOut_of_outFor (h : (w.retryingOver hasPrivate).Reaches Client.start.unnoted p)
    {i : Nat} {n : PortEvent × Network} (hn : n ∈ p.world.notes i) {intent : TxIntent}
    {rlp : Bytes} (hout : outFor hasPrivate intent n = some rlp) :
    ∃ g, MayBeOut g n.1 ∧ g.meta = none ∧ g.intent = intent ∧ ∃ opts site r,
      site.record = some g ∧ n.1 = ev (.submit rlp opts site) r := by
  obtain ⟨hreports, hread⟩ := (h.notes_of rfl i).2 n hn
  obtain ⟨⟨o, r⟩, net⟩ := n
  cases o with
  | submit rlp' opts site =>
    simp only [outFor] at hout
    split at hout
    · rename_i g hrecord
      split at hout
      · rename_i hg
        cases hout
        have hread : net.delivery.misread hasPrivate opts = false := by
          simpa [Network.readsBroadcasts] using hread
        exact ⟨g, ⟨rlp, opts, site, r, rfl, hrecord,
          Network.maybeOut_of_leavesOpen hreports hread hg.2.2⟩, hg.1, hg.2.1, opts, site, r,
          hrecord, rfl⟩
      · cases hout
    · cases hout
  | _ => cases hout

/-- **Sending again after an error executes an intent at most once.** However often a host sends an
intent again after its sends have returned errors, all that has left for it, by a send, a
rebroadcast or a fee bump, and was not refused, are transactions on one nonce. The intent is not the
one of a cancel, and no broadcast is taken for a rejection that is none. -/
theorem retried_send_one_nonce (w : Wallet) (hrefill : w.RefillOff) {hasPrivate : Bool}
    {p : Pool ports Wired WalletCall WalletResult}
    (h : (w.retryingOver hasPrivate).Reaches Client.start.unnoted p) (intent : TxIntent)
    (hintent : intent ≠ cancelIntent intent.chainId intent.account) :
    ∃ nonce, ∀ i, ∀ n ∈ p.world.notes i, ∀ rlp, outFor hasPrivate intent n = some rlp →
      ∃ gasLimit fees signature,
        rlp = encoded2718 (Signing.buildTx intent nonce gasLimit fees) signature := by
  have hplain : w.retrying.Reaches Client.start p.plain := h.plain
  have past : ∀ {i n}, n ∈ p.world.notes i → n.1 ∈ p.plain.pastOf i := by
    intro i n hn
    have hevents : (p.world.notes i).map Prod.fst = p.plain.pastOf i := (h.notes_of rfl i).1
    exact hevents ▸ List.mem_map_of_mem hn
  by_cases hsome : ∃ i, ∃ n ∈ p.world.notes i, ∃ rlp, outFor hasPrivate intent n = some rlp
  · obtain ⟨i, n, hn, rlp, hout⟩ := hsome
    obtain ⟨g, hg, hmeta, rfl, -⟩ := mayBeOut_of_outFor h hn hout
    refine ⟨g.nonce, fun i' n' hn' rlp' hout' => ?_⟩
    obtain ⟨g', hg', hmeta', hsame, opts, site, r, hrecord, he⟩ := mayBeOut_of_outFor h hn' hout'
    obtain ⟨gasLimit, fees, signature, henc⟩ := encodes_of_past hplain (he ▸ past hn') hrecord
    have hnonce : g'.nonce = g.nonce := nonce_of_mayBeOut hrefill hplain (past hn) (past hn') hg hg'
      ⟨hmeta, hintent⟩ ⟨hmeta', by rw [hsame]; exact hintent⟩ hsame
    exact ⟨gasLimit, fees, signature, by rw [henc, hsame, hnonce]⟩
  · exact ⟨0, fun i n hn rlp hout => absurd ⟨i, n, hn, rlp, hout⟩ hsome⟩

end Deliveries

section RetryRun

attribute [local instance] Toy.alloy

/-- A wallet that re-sends nothing. -/
def Toy.plainWallet : Wallet := { Toy.builder with refillOnReplaced := false }.build

instance (w : Wallet) (p : WalletPool) (i : Nat) (x : w.retrying.Choice) (o : ports.Op)
    (r : ports.Reply o) : Decidable (w.retrying.allow p i x o r) :=
  inferInstanceAs (Decidable (_ = true ∧ _ ∧ _ = true))

instance (w : Wallet) (p : WalletPool) (c : WalletCall) : Decidable (w.retrying.admits p c) :=
  inferInstanceAs (Decidable (∀ th ∈ p.threads,
    c.sends.isSome = true → th.call.sends = c.sends → sendFailed th = true))

/-- The node refuses what is broadcast. -/
def refusing : Network :=
  { (default : Network) with
    delivery := { (default : Network).delivery with mempool := .error (.errorResp "declined") } }

/-- What is answered over this network. -/
def Toy.over (net : Network) : Wired → (o : Op) → Option o.Reply :=
  fun w => World.serve (net.answering true Toy.calm) w.world

/-- A send is refused, the host sends again, and a tick broadcasts the transaction once more and
bumps it. -/
def retriedSend : Pool ports Wired WalletCall WalletResult :=
  System.played (S := Toy.plainWallet.retryingOver true) Client.start.unnoted
    [.spawn (.send Toy.intent), .moves 0 40 ⟨(), 0, refusing⟩ (Toy.over refusing),
      .spawn (.send Toy.intent), .moves 1 40 ⟨(), 1, default⟩ (Toy.over default),
      .spawn .tick, .moves 2 60 ⟨(), 2, default⟩ (Toy.over default)]

theorem retried_send_one_nonce_bumped :
    (retriedSend.threads.map sendFailed = [true, false, false] ∧
      [0, 1, 2].map (fun i => ((retriedSend.world.notes i).filterMap
        (outFor true Toy.intent)).length) = [0, 1, 2]) ∧
    ∃ nonce, ∀ i, ∀ n ∈ retriedSend.world.notes i, ∀ rlp, outFor true Toy.intent n = some rlp →
      ∃ gasLimit fees signature,
        rlp = encoded2718 (Signing.buildTx Toy.intent nonce gasLimit fees) signature := by
  have hrefill : Toy.plainWallet.RefillOff := ⟨rfl, fun runtime h => by cases h⟩
  have hreach : (Toy.plainWallet.retryingOver true).Reaches Client.start.unnoted retriedSend :=
    System.reaches_played _ _
  exact ⟨by decide +kernel,
    retried_send_one_nonce Toy.plainWallet hrefill hreach Toy.intent (by decide +kernel)⟩

end RetryRun

end WalletKit
