import WalletKit.Provenance.Executor
import WalletKit.Runtime.Runs

/-!
# The history of cancels, refills, bumps and polled tasks

A refill re-sends the intent of a handle that this same tick has just stored as replaced,
once, on the default route and without a context. The hash recorded for a polled task is
one the relay has reported, and only a handle with a transaction of its own is bumped. A
cancel writes over the handle it was called for, and nothing between its first write and its
last. Everything else owes nothing here.
-/
namespace WalletKit

open Machine Signing

/-- No write-ahead record. -/
def NotWal (o : Op) : Prop := ∀ h origin, o ≠ .putHandle h (.wal origin)

/-- The last handle this program has stored as replaced is `d`, and nothing was re-sent
since. -/
def JustReplaced (past : List PortEvent) (d : TxHandle) : Prop :=
  ∃ h before after, past = before ++ ev (.putHandle d (.advance h)) (.ok ()) :: after ∧
    ∀ x ∈ after, NotWal x.op

/-- The record of a refill, and where it comes from. -/
structure Refills (past : List PortEvent) (d wal : TxHandle) : Prop where
  settled : d.status = .replaced
  intent : wal.intent = d.intent
  submission : wal.submission = .default
  context : wal.meta = none
  once : JustReplaced past d

/-- What became of a polled task is what the relay said. -/
def PollReported (past : List PortEvent) (h h' : TxHandle) : Prop :=
  ∃ task, h.meta.bind (·.task) = some task ∧
    ((∃ hash, ev (.poll task) (.ok (.included hash)) ∈ past ∧
        h' = { h with broadcasts := h.broadcasts ++ [hash], status := .sent }) ∨
      ∃ reason, ev (.poll task) (.ok (.failed reason)) ∈ past ∧
        h' = { h with status := .failed reason })

/-- What a call was made for: the handle it cancels, and the contexts its sends carry. -/
structure Errand where
  cancels : Option HandleId
  carries : Option MetaContext → Prop

/-- The handle this call cancels was read as `target`. -/
def Targets (errand : Errand) (past : List PortEvent) (target : TxHandle) : Prop :=
  ∃ id, errand.cancels = some id ∧ ev (.handle id) (.ok (some target)) ∈ past

def SettleOwes [Alloy] (errand : Errand) (past : List PortEvent) : Op → Prop
  | .putHandle wal (.wal .direct) => errand.carries wal.meta
  | .putHandle wal (.wal (.refill d)) => Refills past d wal
  | .putHandle _ (.cancelMark target) => Targets errand past target
  | .putHandle _ (.cancelUndo marked) | .putHandle _ (.cancelNew marked) =>
      ∃ target, marked = { target with cancelled := true } ∧ Targets errand past target
  | .putHandle h' (.poll h) => PollReported past h h'
  | .putHandle _ (.bump h) => (decodeFees h.signed).isSome
  | _ => True

/-- An operation that writes nothing and is no step of a send. -/
def Aside : Op → Prop
  | .putHandle _ _ | .casNonceState _ _ _ _ _ | .submit _ _ (.send _ _) => False
  | _ => True

/-- The mark of its target is all that this cancel has written. -/
def OnlyMarked (past : List PortEvent) (marked : TxHandle) : Prop :=
  ∃ before target after,
    past = before ++ ev (.putHandle marked (.cancelMark target)) (.ok ()) :: after ∧
    (∀ e ∈ before, Aside e.op) ∧ ∀ e ∈ after, Aside e.op

/-- What the writes of cancels and of relayed sends owe to each other. Only a target with a
transaction of its own gets as far as a cancel. -/
def SoleOwes [Alloy] (past : List PortEvent) : Op → Prop
  | .putHandle _ (.cancelMark _) => ∀ e ∈ past, Aside e.op
  | .putHandle _ (.cancelUndo marked) => OnlyMarked past marked
  | .putHandle _ (.cancelNew marked) => OnlyMarked past marked ∧ (decodeFees marked.signed).isSome
  | .putHandle h .task => h.task?.isSome ∧ ∀ e ∈ past, Aside e.op
  | _ => True

/-- An operation that owes nothing to what was done before. -/
def Unowed [Alloy] (errand : Errand) (o : Op) : Prop := ∀ past, SettleOwes errand past o

/-- An operation that owes nothing at all. -/
def Plain : Op → Prop
  | .putHandle _ (.wal _) | .putHandle _ (.cancelMark _) | .putHandle _ (.cancelUndo _)
  | .putHandle _ (.cancelNew _) | .putHandle _ (.poll _) | .putHandle _ (.bump _) => False
  | _ => True

theorem Plain.unowed [Alloy] {errand : Errand} {o : Op} (h : Plain o) : Unowed errand o := by
  intro past
  cases o with
  | putHandle g site => cases site <;> trivial
  | _ => trivial

theorem Aside.plain {o : Op} (h : Aside o) : Plain o := by
  cases o with
  | putHandle => cases h
  | _ => trivial

theorem Aside.soleOwes [Alloy] {o : Op} (h : Aside o) (past : List PortEvent) :
    SoleOwes past o := by
  cases o with
  | putHandle => cases h
  | _ => trivial

theorem Aside.quiet {e : PortEvent} (h : Aside e.op) : Quiet e := by
  intro s
  obtain ⟨o, r⟩ := e
  cases o with
  | putHandle | casNonceState => cases h
  | submit rlp opts site =>
    cases site with
    | send => cases h
    | _ => rfl
  | _ => rfl

theorem phase_of_aside {past : List PortEvent} (h : ∀ e ∈ past, Aside e.op) :
    phase past = .idle := by
  induction past using List.reverseRecOn with
  | nil => rfl
  | append_singleton past e ih =>
    exact phase_snoc (ih fun x hx => h x (by simp [hx])) ((h e (by simp)).quiet _)

theorem OnlyMarked.snoc {past : List PortEvent} {marked : TxHandle} {x : PortEvent}
    (h : OnlyMarked past marked) (hx : Aside x.op) : OnlyMarked (past ++ [x]) marked := by
  obtain ⟨before, target, after, rfl, hbefore, hafter⟩ := h
  refine ⟨before, target, after ++ [x], by simp, hbefore, fun y hy => ?_⟩
  rcases List.mem_append.mp hy with hy | hy
  · exact hafter y hy
  · rwa [List.mem_singleton.mp hy]

/-- All that was written is the mark. -/
theorem OnlyMarked.writes {past : List PortEvent} {marked h : TxHandle} {site : PutSite}
    {r : Except StateStoreError Unit} (hm : OnlyMarked past marked)
    (he : ev (.putHandle h site) r ∈ past) : ∃ target, site = .cancelMark target := by
  obtain ⟨before, target, after, rfl, hbefore, hafter⟩ := hm
  rcases List.mem_append.mp he with he | he
  · exact absurd (hbefore _ he) fun ha => ha
  rcases List.mem_cons.mp he with he | he
  · cases he
    exact ⟨target, rfl⟩
  · exact absurd (hafter _ he) fun ha => ha

theorem Plain.notWal {o : Op} (h : Plain o) : NotWal o := by
  rintro g origin rfl
  exact h

theorem JustReplaced.snoc {past : List PortEvent} {d : TxHandle} {x : PortEvent}
    (h : JustReplaced past d) (hx : NotWal x.op) : JustReplaced (past ++ [x]) d := by
  obtain ⟨g, before, after, rfl, hafter⟩ := h
  refine ⟨g, before, after ++ [x], by simp, fun y hy => ?_⟩
  rcases List.mem_append.mp hy with hy | hy
  · exact hafter y hy
  · rwa [List.mem_singleton.mp hy]

theorem Plain.of_nonceOp {o : Op} (ho : LocalNonceManager.NonceOp o) : Plain o := by
  cases o with
  | pendingNonce | loadNonceState | casNonceState => trivial
  | _ => cases ho

variable [Alloy] {α : Type} {errand : Errand} {h : List PortEvent} {P : List PortEvent → Prop}

/-- Programs of plain operations owe nothing, and keep what every plain operation keeps. -/
theorem plain_keeps {x : Io α} (hx : x.Ops Plain)
    (hP : ∀ past e, Plain e.op → P past → P (past ++ [e])) (hh : P h) :
    x.wp (.history (SettleOwes errand)) (fun _ => P) h :=
  Prog.wp_of_ops (P := P) hx (fun _ past ho _ => ho.unowed past) (fun _ _ => trivial)
    (fun o past r _ ho hv hstep => hstep ▸ hP past ⟨o, r⟩ ho hv) hh

theorem unowed_history {x : Io α} (hx : x.Ops (Unowed errand)) :
    x.wp (.history (SettleOwes errand)) (fun _ _ => True) h :=
  Prog.wp_of_ops (P := fun _ => True) hx (fun _ past ho _ => ho past) (fun _ _ => trivial)
    (fun _ _ _ _ _ _ _ => trivial) trivial

theorem plain_history {x : Io α} (hx : x.Ops Plain) :
    x.wp (.history (SettleOwes errand)) (fun _ _ => True) h :=
  unowed_history (hx.mono fun _ => Plain.unowed)

namespace TransactionManager

variable {m : TransactionManager}

omit [Alloy] in
theorem submitWal_plain (wal : TxHandle) (origin : Origin) :
    (m.submitWal wal origin).run.Ops Plain := by
  have sent : (liftM (recordSent wal) : SendM TxHandle).run.Ops Plain :=
    .bind (.bind ⟨trivial, fun _ => trivial⟩ fun _ => trivial) fun _ => trivial
  refine .tryBind (.bind ⟨trivial, fun _ => trivial⟩ fun _ => trivial) fun submitted => ?_
  split
  · exact sent
  split
  · exact sent
  · exact .tryBind (.bind ⟨trivial, fun _ => trivial⟩ fun _ => trivial) fun _ =>
      .tryBind (.bind ((recycle_ops _ _).mono fun _ => Plain.of_nonceOp) fun _ => trivial)
        fun _ => trivial

variable {intent : TxIntent} {opts : SubmissionOpts} {context : Option MetaContext}
  {origin : Origin}

/-- A send owes nothing but what its write-ahead record owes. -/
theorem sendWithMeta_settles (hP : ∀ past e, Plain e.op → P past → P (past ++ [e]))
    (hwal : ∀ past nonce approval now signed, P past → SettleOwes errand past (.putHandle
      (walHandle intent nonce approval now signed opts context) (.wal origin))) (hh : P h) :
    (m.sendWithMeta intent opts context origin).run.wp (.history (SettleOwes errand))
      (fun _ _ => True) h := by
  have recycled : ∀ {past n}, (m.recycle intent.account n).wp (.history (SettleOwes errand))
      (fun _ _ => True) past := fun {past n} =>
    plain_history ((recycle_ops _ _).mono fun _ => Plain.of_nonceOp)
  have build : ∀ {past gasLimit fees nonce approval}, P past →
      (m.buildSignSubmit intent gasLimit fees nonce approval opts context origin).run.wp
        (.history (SettleOwes errand)) (fun _ _ => True) past := by
    intro past gasLimit fees nonce approval hpast
    unfold buildSignSubmit signEncode
    simp only [Prog.wp_run_bind, Prog.wp_run_lift, Prog.wp_run_outcome, Prog.wp_run_orThrow,
      Prog.wp_run_pure, Clock.wp_nowUnix, Signer.wp_signTransaction, StateStore.wp_putHandle,
      asks_history, Prog.forall_except, Except.mapError]
    refine ⟨trivial, fun now => ⟨trivial, fun e => recycled, fun sig => ⟨hwal _ _ _ _ _ ?_,
      fun e => recycled, fun _ => plain_history (submitWal_plain _ _)⟩⟩⟩
    exact hP _ _ trivial (hP _ _ trivial hpast)
  unfold sendWithMeta
  split
  · trivial
  split
  · trivial
  simp only [Prog.wp_run_bind, Prog.wp_run_lift, Prog.wp_run_orThrow, Rpc.wp_estimateGas,
    GasOracle.wp_estimate, PolicyEngine.wp_evaluate, asks_history, Prog.forall_except,
    Except.mapError]
  refine ⟨trivial, fun e => ?_, fun gas => ⟨trivial, fun e => trivial,
    fun fees => ⟨trivial, fun e => trivial, fun decision => ?_⟩⟩⟩
  · obtain ⟨message, _ | _⟩ := e
    · trivial
    · trivial
  cases decision with
  | deny rejection => trivial
  | allow approval =>
    simp only [Prog.wp_run_bind, Prog.wp_run_orThrow]
    refine Prog.wp_mono (plain_keeps (P := P) ((m.nonceManager.allocate_ops _).mono fun _ =>
      Plain.of_nonceOp) hP (hP _ _ trivial (hP _ _ trivial (hP _ _ trivial hh)))) ?_
    rintro (e | n) past hpast
    · trivial
    · exact build hpast

/-- A send that a caller makes owes only its context. -/
theorem sendDirect_settles (hcontext : errand.carries context) :
    (m.sendWithMeta intent opts context .direct).run.wp (.history (SettleOwes errand))
      (fun _ _ => True) h :=
  sendWithMeta_settles (P := fun _ => True) (fun _ _ _ _ => trivial)
    (fun _ _ _ _ _ _ => hcontext) trivial

theorem broadcastCancelWithRepricing_aside (target : TxHandle) (intent : TxIntent)
    (basis : Eip1559Estimation) (approval : PolicyApproval) (now : Nat) :
    (m.broadcastCancelWithRepricing target intent basis approval now).run.Ops Aside := by
  refine (broadcastCancelWithRepricing_ops ..).mono ?_
  rintro o ⟨ho, -⟩
  cases o with
  | putHandle | casNonceState => cases ho
  | submit rlp opts site =>
    cases site with
    | send => cases ho
    | _ => trivial
  | _ => trivial

/-- A cancel writes over what it read under the id it was called for. -/
theorem cancelApproved_settles {target : TxHandle} (ht : Targets errand h target)
    (approval : PolicyApproval) :
    (m.cancelApproved target intent approval).run.wp (.history (SettleOwes errand))
      (fun _ _ => True) h := by
  have keeps : ∀ past (x : PortEvent), Targets errand past target →
      Targets errand (past ++ [x]) target := fun past x ⟨id, hid, hread⟩ =>
    ⟨id, hid, List.mem_append_left _ hread⟩
  unfold cancelApproved
  simp only [Prog.wp_run_bind, Prog.wp_run_lift, Prog.wp_run_orThrow, StateStore.wp_putHandle,
    Clock.wp_nowUnix, asks_history, Prog.forall_except, Except.mapError]
  refine ⟨ht, fun _ => trivial, fun _ => ⟨trivial, fun now => ?_⟩⟩
  refine Prog.wp_mono (plain_keeps (P := (Targets errand · target))
    (feeBasis_ops _ _)
    (fun past x _ => keeps past x) (keeps _ _ (keeps _ _ ht))) ?_
  rintro (e | basis) past hpast
  · trivial
  dsimp only
  rw [Prog.wp_run_outcome]
  refine Prog.wp_mono (plain_keeps (P := (Targets errand · target))
    ((broadcastCancelWithRepricing_aside ..).mono fun _ => Aside.plain)
    (fun past x _ => keeps past x) hpast) ?_
  rintro (e | signed) past hpast
  · simp only [recordCancel, Prog.wp_run_bind, Prog.wp_run_lift, StateStore.wp_putHandle,
      asks_history]
    exact ⟨⟨target, rfl, hpast⟩, fun _ => trivial⟩
  · simp only [recordCancel, Prog.wp_run_bind, Prog.wp_run_orThrow, StateStore.wp_putHandle,
      asks_history, Prog.forall_except, Except.mapError]
    exact ⟨⟨target, rfl, hpast⟩, fun _ => trivial, fun _ => trivial⟩

theorem cancel_settles {id : HandleId} (hid : errand.cancels = some id) :
    (m.cancel id).run.wp (.history (SettleOwes errand)) (fun _ _ => True) h := by
  unfold cancel authorize
  simp only [Prog.wp_run_bind, Prog.wp_run_orThrow, StateStore.wp_handle, asks_history,
    Prog.forall_except, Except.mapError]
  refine ⟨trivial, fun e => trivial, fun found => ?_⟩
  cases found with
  | none => trivial
  | some target =>
    dsimp only
    split
    · trivial
    simp only [Prog.wp_run_bind, Prog.wp_run_orThrow, PolicyEngine.wp_evaluate, asks_history,
      Prog.forall_except, Except.mapError]
    refine ⟨trivial, fun e => trivial, fun decision => ?_⟩
    cases decision with
    | deny rejection => trivial
    | allow approval => exact cancelApproved_settles ⟨id, hid, by simp⟩ approval

/-- Programs of such operations owe nothing, and keep what each of them keeps. -/
theorem aside_keeps {x : Io α} (hx : x.Ops Aside)
    (hP : ∀ past (e : PortEvent), Aside e.op → P past → P (past ++ [e])) (hh : P h) :
    x.wp (.history SoleOwes) (fun _ => P) h :=
  Prog.wp_of_ops (P := P) hx (fun _ past ho _ => ho.soleOwes past) (fun _ _ => trivial)
    (fun o past r _ ho hv hstep => hstep ▸ hP past ⟨o, r⟩ ho hv) hh

/-- A cancel that succeeds ends with the write of its own record. -/
def CancelRecorded (r : Except TransactionManagerError TxHandle) (past : List PortEvent) : Prop :=
  ∀ c, r = .ok c → ∃ marked, past.getLast? = some (ev (.putHandle c (.cancelNew marked)) (.ok ()))

omit [Alloy] in
theorem CancelRecorded.failed {e : TransactionManagerError} : CancelRecorded (.error e) h := by
  rintro c ⟨⟩

theorem cancelApproved_writes {target : TxHandle} (hh : ∀ e ∈ h, Aside e.op)
    (approval : PolicyApproval) : (m.cancelApproved target intent approval).run.wp
      (.history SoleOwes) CancelRecorded h := by
  have keeps : ∀ past (x : PortEvent), Aside x.op →
      OnlyMarked past { target with cancelled := true } →
      OnlyMarked (past ++ [x]) { target with cancelled := true } := fun past x hx hp => hp.snoc hx
  unfold cancelApproved
  simp only [Prog.wp_run_bind, Prog.wp_run_lift, Prog.wp_run_orThrow, StateStore.wp_putHandle,
    Clock.wp_nowUnix, asks_history, Prog.forall_except, Except.mapError]
  refine ⟨hh, fun _ => .failed, fun _ => ⟨trivial, fun now => ?_⟩⟩
  have hmarked : OnlyMarked (h ++ [ev (.putHandle { target with cancelled := true }
      (.cancelMark target)) (.ok ())] ++ [ev .nowUnix now]) { target with cancelled := true } :=
    keeps _ _ trivial ⟨h, target, [], rfl, hh, by simp⟩
  unfold feeBasis
  split
  · rename_i fees hfees
    simp only [Prog.wp_run_pure, Prog.wp_run_outcome]
    refine Prog.wp_mono (aside_keeps (broadcastCancelWithRepricing_aside ..) keeps hmarked) ?_
    rintro (e | signed) past hpast
    · simp only [recordCancel, Prog.wp_run_bind, Prog.wp_run_lift, StateStore.wp_putHandle,
        asks_history]
      exact ⟨hpast, fun _ => .failed⟩
    · simp only [recordCancel, Prog.wp_run_bind, Prog.wp_run_orThrow, StateStore.wp_putHandle,
        asks_history, Prog.forall_except, Except.mapError]
      refine ⟨⟨hpast, by simp [hfees]⟩, fun _ => .failed, fun _ => ?_⟩
      rintro c ⟨rfl⟩
      exact ⟨_, List.getLast?_concat⟩
  · exact CancelRecorded.failed

theorem cancel_writes (id : HandleId) :
    (m.cancel id).run.wp (.history SoleOwes) CancelRecorded [] := by
  unfold cancel authorize
  simp only [Prog.wp_run_bind, Prog.wp_run_orThrow, StateStore.wp_handle, asks_history,
    Prog.forall_except, Except.mapError]
  refine ⟨trivial, fun e => .failed, fun found => ?_⟩
  cases found with
  | none => exact CancelRecorded.failed
  | some target =>
    dsimp only
    split
    · exact CancelRecorded.failed
    simp only [Prog.wp_run_bind, Prog.wp_run_orThrow, PolicyEngine.wp_evaluate, asks_history,
      Prog.forall_except, Except.mapError]
    refine ⟨trivial, fun e => .failed, fun decision => ?_⟩
    cases decision with
    | deny rejection => exact CancelRecorded.failed
    | allow approval => exact cancelApproved_writes (by simp [ev, Aside]) approval

end TransactionManager

namespace AccountExecutor

variable {e : AccountExecutor}

omit [Alloy] in
theorem recover_plain : e.recover.run.Ops Plain :=
  recover_ops.mono fun o ho => by
    cases o with
    | putHandle => cases ho
    | _ => trivial

omit [Alloy] in
theorem readCycle_plain : e.readCycle.run.Ops Plain :=
  readCycle_ops.mono fun o ho => by
    cases o with
    | putHandle => cases ho
    | _ => trivial

theorem scan_plain (handle : TxHandle) (mined : Nat) (hashes : List TxHash) :
    (scan handle mined hashes).Ops Plain :=
  (scan_ops handle mined hashes).mono fun o ho => by
    cases o with
    | receipt | blockHash => trivial
    | _ => cases ho

theorem BumpOp.unowed {handle : TxHandle} {o : Op} (ho : BumpOp handle o) : Unowed errand o := by
  cases o with
  | putHandle g site =>
    cases site with
    | bump h =>
      obtain ⟨rfl, hfees⟩ := ho
      exact fun _ => hfees
    | _ => cases ho
  | _ => exact fun _ => trivial

theorem escalate_unowed : e.escalate.run.Ops (Unowed errand) := by
  have free : ∀ {o : Op}, Plain o → Unowed errand o := Plain.unowed
  exact .tryBind (.bind ⟨free trivial, fun _ => trivial⟩ fun _ => trivial) fun now =>
    .tryBind (Prog.ops_orThrow ⟨free trivial, fun _ => trivial⟩) fun handles =>
    .bind (escalateLoop_ops now handles fun _ _ _ _ => BumpOp.unowed) fun _ => trivial

/-- Only a handle that was just stored as replaced is re-sent. -/
theorem onSettled_settles {d : TxHandle} (hd : d.status = .replaced → JustReplaced h d) :
    (e.onSettled d).wp (.history (SettleOwes errand)) (fun _ _ => True) h := by
  unfold onSettled
  simp only [Prog.wp_bind, ExecutorMemory.wp_removeApproval, asks_history]
  refine ⟨trivial, fun _ => ?_⟩
  cases e.refill with
  | none => trivial
  | some manager =>
    dsimp only
    split
    · rename_i hstatus
      refine Prog.wp_bind.mpr (TransactionManager.sendWithMeta_settles (P := (JustReplaced · d))
        (fun past x hx hp => hp.snoc hx.notWal) (fun past nonce approval now signed hp => ?_)
        ((hd hstatus).snoc (by simp [NotWal, ev])))
      exact ⟨hstatus, rfl, rfl, rfl, hp⟩
    · trivial

theorem advanceHandle_settles (cycle : Cycle) (handle : TxHandle) :
    (e.advanceHandle cycle handle).wp (.history (SettleOwes errand)) (fun _ _ => True) h := by
  unfold advanceHandle
  split
  · unfold pollTask
    split
    · rename_i task _ htask
      simp only [Prog.wp_bind, Relay.wp_poll, asks_history, Prog.forall_except]
      refine ⟨trivial, fun _ => trivial, fun status => ?_⟩
      cases status with
      | pending => trivial
      | included hash =>
        simp only [Prog.wp_bind, Prog.wp_pure, StateStore.wp_putHandle, asks_history]
        exact ⟨⟨task, htask, .inl ⟨hash, by simp, rfl⟩⟩, fun _ => trivial⟩
      | failed reason =>
        simp only [Prog.wp_bind, StateStore.wp_putHandle, asks_history, Prog.forall_except]
        exact ⟨⟨task, htask, .inr ⟨reason, by simp, rfl⟩⟩, fun _ => trivial,
          fun _ => onSettled_settles (by simp)⟩
    · trivial
  · unfold advanceOnChain
    refine Prog.wp_bind.mpr (Prog.wp_mono (plain_history (scan_plain _ _ _)) fun event past _ => ?_)
    split
    · trivial
    · simp only [Prog.wp_bind, StateStore.wp_putHandle, asks_history, Prog.forall_except]
      refine ⟨trivial, fun _ => trivial, fun _ => ?_⟩
      split
      · exact onSettled_settles fun _ => ⟨handle, past, [], rfl, by simp⟩
      · trivial

theorem confirm_settles : e.confirm.run.wp (.history (SettleOwes errand)) (fun _ _ => True) h := by
  unfold confirm
  refine Prog.wp_run_bind.mpr (Prog.wp_mono (plain_history readCycle_plain) ?_)
  rintro (err | _ | cycle) past -
  · trivial
  · trivial
  simp only [Prog.wp_run_bind, Prog.wp_run_lift, Prog.wp_run_orThrow]
  refine Prog.wp_mono (plain_history ((e.nonceManager.reset_ops _ _).mono fun _ ho =>
    Plain.of_nonceOp ho.nonceOp)) ?_
  rintro (err | _) past -
  · trivial
  simp only [Except.mapError, StateStore.wp_pendingHandles, asks_history, Prog.forall_except]
  refine ⟨trivial, fun _ => trivial, fun hs => ?_⟩
  exact Prog.wp_forM (fun _ _ => True) trivial (fun _ _ => trivial) fun handle _ _ _ _ =>
    advanceHandle_settles cycle handle

theorem tick_settles : e.tick.run.wp (.history (SettleOwes errand)) (fun _ _ => True) h := by
  unfold tick
  simp only [Prog.wp_run_bind]
  refine Prog.wp_mono (plain_history recover_plain) ?_
  rintro (err | _) past -
  · trivial
  refine Prog.wp_mono confirm_settles ?_
  rintro (err | _) past -
  · trivial
  · exact unowed_history escalate_unowed

end AccountExecutor

end WalletKit
