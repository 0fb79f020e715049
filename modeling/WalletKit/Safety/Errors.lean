import WalletKit.Core.Errors
import WalletKit.Runtime.Toy
import WalletKit.Runtime.Wallet
import WalletKit.Safety.Deliveries

/-!
# What an error says about the wire

A host that gets an error has to know whether the call may have left something on its way. For each
entry point it can: a failed send has had everything refused, a failed cancel or a failed send
through the managed relay may be on its way only with one of two errors, and the error of a tick is
never about a broadcast. What is told apart by the shape of the error is not told by its kind: no
call returns an error of the kind that is meant for it.
-/
namespace WalletKit

open Machine

/-- An operation that hands nothing over. -/
def OffWire : Op → Prop
  | .submit _ _ _ | .gelatoSubmit _ _ => False
  | _ => True

/-- All that is followed of a program is whether it has left something open, over a network whose
refusals are read as such. -/
def wire (hasPrivate : Bool) : Spec ports Bool where
  step out o r out' := ∃ net : Network, net.Reports hasPrivate ⟨o, r⟩ ∧
    net.readsRefusals hasPrivate o ∧ out' = (out || net.leavesOpen hasPrivate o)
  owes _ _ := True
  stuck _ := True

section Rules

variable {hasPrivate out : Bool}

theorem OffWire.leavesOpen {o : Op} (ho : OffWire o) (net : Network) :
    net.leavesOpen hasPrivate o = false := by
  cases o with
  | submit | gelatoSubmit => cases ho
  | _ => rfl

theorem asks_wire {o : Op} {Q : o.Reply → Bool → Prop}
    (hsubmit : ∀ rlp opts site, o ≠ .submit rlp opts site)
    (hpost : ∀ call signature, o ≠ .gelatoSubmit call signature) :
    Spec.Asks (wire hasPrivate) o Q out ↔ ∀ r, Q r out := by
  have hoff : OffWire o := by
    cases o with
    | submit => exact absurd rfl (hsubmit _ _ _)
    | gelatoSubmit => exact absurd rfl (hpost _ _)
    | _ => trivial
  have reported : ∀ r, ∃ net : Network, net.Reports hasPrivate ⟨o, r⟩ ∧
      net.readsRefusals hasPrivate o := by
    intro r
    refine ⟨default, ?_⟩
    cases o with
    | submit | gelatoSubmit => cases hoff
    | _ => exact ⟨⟨by simp [submitted?], by simp [posted?]⟩, rfl⟩
  refine ⟨fun h r => ?_, fun h => ⟨trivial, ?_⟩⟩
  · obtain ⟨net, hreports, hread⟩ := reported r
    exact h.2 r out ⟨net, hreports, hread, by rw [hoff.leavesOpen, Bool.or_false]⟩
  · rintro r _ ⟨net, -, -, rfl⟩
    rw [hoff.leavesOpen, Bool.or_false]
    exact h r

/-- A broadcast is left open with an error only if that is a transient one and not about its price,
or says that it was accepted already. -/
theorem asks_wire_submit {rlp : Bytes} {opts : SubmissionOpts} {site : SubmitSite}
    {Q : Except SubmissionError TxHash → Bool → Prop}
    (herror : ∀ e left, (left = true → e.isAlreadyAccepted = true ∨
      e.isTransient = true ∧ e.isUnderpriced = false) → Q (.error e) (out || left))
    (hok : ∀ hash left, Q (.ok hash) left) :
    Spec.Asks (wire hasPrivate) (.submit rlp opts site) Q out := by
  refine ⟨trivial, ?_⟩
  rintro (e | hash) _ ⟨net, hreports, hread, rfl⟩
  · exact herror e _ fun hopen => Network.error_of_leavesOpen hreports hread hopen
  · exact hok hash _

/-- The relay refuses, takes the call, or leaves open whether it has. -/
theorem asks_wire_gelatoSubmit {call : GelatoCall} {signature : SignatureEnvelope}
    {Q : Except RelayError TaskId → Bool → Prop}
    (hrefused : ∀ message, Q (.error (.rejected message)) out)
    (hopen : ∀ message left, Q (.error (.rpc (.call message true))) left)
    (hok : ∀ task left, Q (.ok task) left) :
    Spec.Asks (wire hasPrivate) (.gelatoSubmit call signature) Q out := by
  refine ⟨trivial, ?_⟩
  rintro (e | task) _ ⟨net, hreports, hread, rfl⟩
  · obtain ⟨message, rfl⟩ | ⟨message, rfl⟩ :=
      GelatoRelay.submitted_eq_error (hreports.2 _ rfl).symm
    · rw [Network.rejected_not_open hreports hread, Bool.or_false]
      exact hrefused message
    · exact hopen message _
  · exact hok task _

/-- What hands nothing over leaves nothing open. -/
theorem wp_offWire {α : Type} {x : Io α} (hx : x.Ops OffWire) :
    x.wp (wire hasPrivate) (fun _ out' => out' = out) out := by
  refine Prog.wp_of_ops (P := fun out' => out' = out) hx (fun _ _ _ _ => trivial)
    (fun _ _ => trivial) ?_ rfl
  rintro o v r _ ho rfl ⟨net, -, -, rfl⟩
  rw [ho.leavesOpen, Bool.or_false]

theorem wp_wire_of_forall {α : Type} {x : Io α} {Q : α → Bool → Prop} (hQ : ∀ a out, Q a out) :
    x.wp (wire hasPrivate) Q out :=
  Prog.wp_of_trivial x out (fun _ _ => trivial) (fun _ => trivial) hQ

theorem LocalNonceManager.NonceOp.offWire {o : Op} (ho : NonceOp o) : OffWire o := by
  cases o <;> trivial

end Rules

/-- An error after which nothing is left open. -/
def Refused (e : WalletKitError) (out : Bool) : Prop := e.kind ≠ .needsReconcile ∧ out = false

/-- An error that leaves something open only if it is one of these. -/
def OpenOnly (P : WalletKitError → Prop) (e : WalletKitError) (out : Bool) : Prop :=
  e.kind ≠ .needsReconcile ∧ (out → P e)

/-- What holds of the error of a result. -/
def OnError {ε α : Type} (wrap : ε → WalletKitError) (P : WalletKitError → Bool → Prop)
    (r : Except ε α) (out : Bool) : Prop :=
  ∀ e, r = .error e → P (wrap e) out

section Sends

variable {ε α : Type} {wrap : ε → WalletKitError} {P : WalletKitError → Bool → Prop} {out : Bool}

@[simp] theorem onError_ok {a : α} : OnError wrap P (.ok a : Except ε α) out := by
  intro e he
  cases he

@[simp] theorem onError_error {e : ε} :
    OnError wrap P (.error e : Except ε α) out ↔ P (wrap e) out :=
  ⟨fun h => h e rfl, fun h e' he => by cases he; exact h⟩

theorem Refused.openOnly {P : WalletKitError → Prop} {e : WalletKitError} (h : Refused e out) :
    OpenOnly P e out := by
  refine ⟨h.1, fun hout => ?_⟩
  cases hout.symm.trans h.2

/-- An error that is not about a broadcast. -/
theorem kind_ofManager_ne {e : TransactionManagerError} (he : ∀ s, e ≠ .submission s) :
    (WalletKitError.ofManager e).kind ≠ .needsReconcile := by
  rw [Ne, WalletKitError.kind_eq_needsReconcile]
  rintro ⟨s, hs, -⟩
  cases e with
  | submission s => exact he s rfl
  | _ => rcases hs with hs | hs <;> cases hs

theorem refused_early {e : TransactionManagerError} (he : ∀ s, e ≠ .submission s) :
    OnError .ofManager Refused (.error e : Except _ α) false :=
  onError_error.mpr ⟨kind_ofManager_ne he, rfl⟩

theorem openOnly_early {P : WalletKitError → Prop} {e : TransactionManagerError}
    (he : ∀ s, e ≠ .submission s) :
    OnError .ofManager (OpenOnly P) (.error e : Except _ α) false :=
  onError_error.mpr (Refused.openOnly ⟨kind_ofManager_ne he, rfl⟩)

theorem kind_submission_ne {s : SubmissionError} (hs : s.isAlreadyAccepted = false) :
    (WalletKitError.submission s).kind ≠ .needsReconcile := by
  simp [WalletKitError.kind, submissionKind_eq_needsReconcile, hs]

end Sends

namespace TransactionManager

variable (m : TransactionManager) {hasPrivate : Bool}

theorem recycle_offWire (a : Address) (nonce : Nat) : (m.recycle a nonce).Ops OffWire :=
  (m.recycle_ops a nonce).mono fun _ ho => ho.offWire

/-- From its record on a send fails only if its broadcast was refused. -/
theorem submitWal_wire (wal : TxHandle) (origin : Origin) :
    (m.submitWal wal origin).run.wp (wire hasPrivate) (OnError .ofManager Refused) false := by
  have sent : ∀ out, (liftM (recordSent wal) : SendM TxHandle).run.wp (wire hasPrivate)
      (OnError .ofManager Refused) out := by
    intro out
    simp only [Prog.wp_run_lift]
    exact wp_wire_of_forall fun _ _ => onError_ok
  unfold submitWal
  simp only [Prog.wp_run_bind, Prog.wp_run_lift, Submission.wp_submit]
  refine asks_wire_submit (fun e left hleft => ?_) fun _ _ => sent _
  dsimp only
  split
  · exact sent _
  rename_i hreject
  simp only [Bool.or_eq_true, not_or, Bool.not_eq_true] at hreject
  obtain ⟨htransient, haccepted⟩ := hreject
  have hrefused : left = false := by simpa [htransient, haccepted] using hleft
  unfold rejectSend
  simp only [Prog.wp_run_bind, Prog.wp_run_lift, StateStore.wp_putHandle, asks_wire, ne_eq,
    reduceCtorEq, not_false_eq_true, implies_true, hrefused, Bool.or_false]
  refine fun r => Prog.wp_mono (wp_offWire (m.recycle_offWire _ _)) ?_
  rintro _ _ rfl
  exact onError_error.mpr ⟨kind_submission_ne haccepted, rfl⟩

variable [Alloy]

theorem signEncode_offWire (signer : Address) (tx : TxEip1559) (intentHash : B256)
    (approval : PolicyApproval) (now : Nat) :
    (Signing.signEncode signer tx intentHash approval now).run.Ops OffWire :=
  .tryBind (Prog.ops_orThrow ⟨trivial, fun _ => trivial⟩) fun _ => trivial

theorem buildSignSubmit_wire (intent : TxIntent) (gasLimit : Nat) (fees : Eip1559Estimation)
    (nonce : Nat) (approval : PolicyApproval) (opts : SubmissionOpts)
    (context : Option MetaContext) (origin : Origin) :
    (m.buildSignSubmit intent gasLimit fees nonce approval opts context origin).run.wp
      (wire hasPrivate) (OnError .ofManager Refused) false := by
  have recycled : ∀ e : TransactionManagerError, (∀ s, e ≠ .submission s) →
      (m.recycle intent.account nonce).wp (wire hasPrivate)
        (fun _ => OnError .ofManager Refused (.error e : Except _ TxHandle)) false := by
    intro e he
    refine Prog.wp_mono (wp_offWire (m.recycle_offWire _ _)) ?_
    rintro _ _ rfl
    exact refused_early he
  unfold buildSignSubmit
  simp only [Prog.wp_run_bind, Prog.wp_run_lift, Clock.wp_nowUnix, asks_wire, ne_eq, reduceCtorEq,
    not_false_eq_true, implies_true, Prog.wp_run_outcome]
  refine fun now => Prog.wp_mono (wp_offWire (signEncode_offWire ..)) ?_
  rintro (e | signed) _ rfl
  · simp only [Prog.wp_run_bind, Prog.wp_run_lift]
    exact recycled _ (by simp)
  · simp only [Prog.wp_run_bind, Prog.wp_run_lift, StateStore.wp_putHandle, asks_wire, ne_eq,
      reduceCtorEq, not_false_eq_true, implies_true, Prog.forall_except]
    exact ⟨fun e => recycled _ (by simp), fun _ => m.submitWal_wire _ _⟩

/-- A send fails only if nothing was broadcast, or the broadcast was refused. -/
theorem sendWithMeta_wire (intent : TxIntent) (opts : SubmissionOpts)
    (context : Option MetaContext) (origin : Origin) :
    (m.sendWithMeta intent opts context origin).run.wp (wire hasPrivate)
      (OnError .ofManager Refused) false := by
  unfold sendWithMeta
  split
  · exact refused_early (by simp)
  split
  · exact refused_early (by simp)
  simp only [Prog.wp_run_bind, Prog.wp_run_lift, Rpc.wp_estimateGas, asks_wire, ne_eq, reduceCtorEq,
    not_false_eq_true, implies_true]
  intro estimated
  split
  · exact refused_early (by simp)
  · exact refused_early (by simp)
  simp only [Prog.wp_run_bind, Prog.wp_run_orThrow, GasOracle.wp_estimate, asks_wire, ne_eq,
    reduceCtorEq, not_false_eq_true, implies_true, Prog.forall_except, Except.mapError,
    PolicyEngine.wp_evaluate]
  refine ⟨fun e => refused_early (by simp),
    fun fees => ⟨fun e => refused_early (by simp), fun decision => ?_⟩⟩
  cases decision with
  | deny rejection => exact refused_early (by simp)
  | allow approval =>
    simp only [Prog.wp_run_bind, Prog.wp_run_orThrow]
    refine Prog.wp_mono (wp_offWire ((m.nonceManager.allocate_ops _).mono fun _ ho =>
      ho.offWire)) ?_
    rintro (e | nonce) _ rfl
    · exact refused_early (by simp)
    · exact m.buildSignSubmit_wire ..

/-- What a failed cancel says where its broadcast is left open. -/
def CancelOpen (e : WalletKitError) : Prop :=
  (∃ s, e = .submission s ∧ s.isTransient) ∨ ∃ s, e = .store s

/-- One attempt leaves something open only with a transient error. -/
theorem cancelRound_wire {target : TxHandle} {intent : TxIntent} {approval : PolicyApproval}
    {now : Nat} {underpriced : SubmissionError → SendM Signing.SignedTx}
    {basis : Eip1559Estimation}
    (hunder : ∀ e, e.isAlreadyAccepted = false →
      (underpriced e).run.wp (wire hasPrivate) (OnError .ofManager (OpenOnly CancelOpen)) false) :
    (m.cancelRound target intent approval now underpriced basis).run.wp (wire hasPrivate)
      (OnError .ofManager (OpenOnly CancelOpen)) false := by
  unfold cancelRound
  simp only [Prog.wp_run_bind, Prog.wp_run_orThrow, GasOracle.wp_bump, asks_wire, ne_eq,
    reduceCtorEq, not_false_eq_true, implies_true, Prog.forall_except, Except.mapError]
  refine ⟨fun e => openOnly_early (by simp), fun fees => ?_⟩
  refine Prog.wp_mono (wp_offWire (signEncode_offWire ..)) ?_
  rintro (e | signed) _ rfl
  · exact openOnly_early (by simp)
  simp only [Prog.wp_run_lift, Submission.wp_submit]
  refine asks_wire_submit (fun e left hleft => ?_) fun _ _ => onError_ok
  dsimp only
  cases haccepted : e.isAlreadyAccepted with
  | true => exact onError_ok
  | false =>
    simp only [haccepted, Bool.false_eq_true, false_or] at hleft
    simp only [Bool.false_eq_true, if_false, Bool.false_or]
    cases hpriced : e.isUnderpriced with
    | true =>
      have hrefused : left = false := by simpa [hpriced] using hleft
      simpa [hrefused] using hunder e haccepted
    | false =>
      exact onError_error.mpr ⟨kind_submission_ne haccepted,
        fun hout => .inl ⟨e, rfl, (hleft hout).1⟩⟩

theorem broadcastCancelWithRepricing_wire (target : TxHandle) (intent : TxIntent)
    (basis : Eip1559Estimation) (approval : PolicyApproval) (now : Nat) :
    (m.broadcastCancelWithRepricing target intent basis approval now).run.wp (wire hasPrivate)
      (OnError .ofManager (OpenOnly CancelOpen)) false := by
  -- the first attempt was refused, so the second one starts with nothing left open
  refine m.cancelRound_wire fun _ _ => ?_
  unfold broadcastCancelWithRepricing.again feeBasis
  simp only [Prog.wp_run_bind, Prog.wp_run_orThrow, StateStore.wp_handle, asks_wire, ne_eq,
    reduceCtorEq, not_false_eq_true, implies_true, Prog.forall_except, Except.mapError]
  refine ⟨fun e => openOnly_early (by simp), fun found => ?_⟩
  cases found with
  | none => exact openOnly_early (by simp)
  | some fresh =>
    simp only [Prog.wp_run_bind]
    split
    · refine m.cancelRound_wire fun e haccepted => ?_
      exact onError_error.mpr (Refused.openOnly ⟨kind_submission_ne haccepted, rfl⟩)
    · exact openOnly_early (by simp)

/-- From its approval on a cancel fails with what the broadcast failed with, or because its record
could not be stored. -/
theorem cancelApproved_wire (target : TxHandle) (intent : TxIntent) (approval : PolicyApproval) :
    (m.cancelApproved target intent approval).run.wp (wire hasPrivate)
      (OnError .ofManager (OpenOnly CancelOpen)) false := by
  unfold cancelApproved feeBasis
  simp only [Prog.wp_run_bind, Prog.wp_run_orThrow, Prog.wp_run_lift, StateStore.wp_putHandle,
    Clock.wp_nowUnix, asks_wire, ne_eq, reduceCtorEq, not_false_eq_true, implies_true,
    Prog.forall_except, Except.mapError]
  refine ⟨fun e => openOnly_early (by simp), fun _ now => ?_⟩
  split
  · simp only [Prog.wp_run_pure, Prog.wp_run_outcome]
    refine Prog.wp_mono (m.broadcastCancelWithRepricing_wire ..) ?_
    rintro (e | signed) out hround
    · -- the target is unmarked whatever has been broadcast
      simp only [recordCancel, Prog.wp_run_bind, Prog.wp_run_lift, StateStore.wp_putHandle,
        asks_wire, ne_eq, reduceCtorEq, not_false_eq_true, implies_true]
      exact fun _ => onError_error.mpr (onError_error.mp hround)
    · simp only [recordCancel, Prog.wp_run_bind, Prog.wp_run_orThrow, StateStore.wp_putHandle,
        asks_wire, ne_eq, reduceCtorEq, not_false_eq_true, implies_true, Prog.forall_except,
        Except.mapError]
      refine ⟨fun e => onError_error.mpr ⟨kind_ofManager_ne (by simp), fun _ => .inr ⟨e, rfl⟩⟩,
        fun _ => onError_ok⟩
  · exact openOnly_early (by simp)

theorem cancel_wire (id : HandleId) :
    (m.cancel id).run.wp (wire hasPrivate) (OnError .ofManager (OpenOnly CancelOpen)) false := by
  unfold cancel authorize
  simp only [Prog.wp_run_bind, Prog.wp_run_orThrow, StateStore.wp_handle, asks_wire, ne_eq,
    reduceCtorEq, not_false_eq_true, implies_true, Prog.forall_except, Except.mapError]
  refine ⟨fun e => openOnly_early (by simp), fun found => ?_⟩
  cases found with
  | none => exact openOnly_early (by simp)
  | some target =>
    dsimp only
    split
    · exact openOnly_early (by simp)
    simp only [Prog.wp_run_bind, Prog.wp_run_orThrow, PolicyEngine.wp_evaluate, asks_wire, ne_eq,
      reduceCtorEq, not_false_eq_true, implies_true, Prog.forall_except, Except.mapError]
    refine ⟨fun e => openOnly_early (by simp), fun decision => ?_⟩
    cases decision with
    | deny rejection => exact openOnly_early (by simp)
    | allow approval => exact m.cancelApproved_wire ..

end TransactionManager

section Preliminaries

variable {ε α : Type} {wrap : ε → WalletKitError} {hasPrivate : Bool}

/-- Nothing is left open, and an error is about something else. -/
def Before (wrap : ε → WalletKitError) (r : Except ε α) (out : Bool) : Prop :=
  out = false ∧ OnError wrap Refused r out

theorem before_ok {a : α} : Before wrap (.ok a : Except ε α) false := ⟨rfl, onError_ok⟩

theorem before_error {e : ε} (he : (wrap e).kind ≠ .needsReconcile) :
    Before wrap (.error e : Except ε α) false := ⟨rfl, onError_error.mpr ⟨he, rfl⟩⟩

theorem onError_mapError {P : WalletKitError → Bool → Prop} {r : Except ε α} {out : Bool} :
    OnError id P (r.mapError wrap) out ↔ OnError wrap P r out := by
  cases r with
  | ok a => exact ⟨fun _ => onError_ok, fun _ => onError_ok⟩
  | error e =>
    refine ⟨fun h => onError_error.mpr (h _ rfl), fun h e' he => ?_⟩
    cases he
    exact h e rfl

theorem kind_relay_ne {e : RelayError} (he : ∀ s, e ≠ .submission s) :
    (WalletKitError.relay e).kind ≠ .needsReconcile := by
  rw [Ne, WalletKitError.kind, relayKind_eq_needsReconcile]
  rintro ⟨s, hs, -⟩
  exact he s hs

variable [Alloy]

namespace TransactionManager

variable (m : TransactionManager)

omit [Alloy] in
theorem signTypedData_wire (td : TypedData) :
    (m.signTypedData td).run.wp (wire hasPrivate) (Before .ofManager) false := by
  unfold signTypedData authorize
  simp only [Prog.wp_run_bind, Prog.wp_run_orThrow, Prog.wp_run_lift, PolicyEngine.wp_evaluate,
    Clock.wp_nowUnix, Signer.wp_signTypedData, asks_wire, ne_eq, reduceCtorEq, not_false_eq_true,
    implies_true, Prog.forall_except, Except.mapError]
  refine ⟨fun e => before_error (kind_ofManager_ne (by simp)), fun decision => ?_⟩
  cases decision with
  | deny rejection => exact before_error (kind_ofManager_ne (by simp))
  | allow approval =>
    simp only [Prog.wp_run_pure]
    exact fun now => ⟨fun e => before_error (kind_ofManager_ne (by simp)), fun _ => before_ok⟩

theorem forwarderNonce_wire (forwarder owner : Address) :
    (forwarderNonce forwarder owner).run.wp (wire hasPrivate) (Before .relay) false := by
  unfold forwarderNonce
  simp only [Prog.wp_run_bind, Prog.wp_run_orThrow, Rpc.wp_call, asks_wire, ne_eq, reduceCtorEq,
    not_false_eq_true, implies_true, Prog.forall_except, Except.mapError]
  refine ⟨fun e => before_error (kind_relay_ne (by simp)), fun returned => ?_⟩
  cases returned with
  | returned bytes =>
    dsimp only
    split
    · exact before_ok
    · exact before_error (kind_relay_ne (by simp))
  | reverted bytes => exact before_error (kind_relay_ne (by simp))

theorem buildAndSignForwardRequest_wire (intent : TxIntent) (forwarder : Address)
    (deadline : Nat) : (m.buildAndSignForwardRequest intent forwarder deadline).run.wp
      (wire hasPrivate) (Before id) false := by
  unfold buildAndSignForwardRequest
  split
  · exact before_error (kind_relay_ne (by simp))
  simp only [Prog.wp_run_bind, Prog.wp_run_orThrow]
  refine Prog.wp_mono (forwarderNonce_wire ..) ?_
  rintro (e | nonce) out ⟨rfl, hnonce⟩
  · exact before_error (onError_error.mp hnonce).1
  simp only [Except.mapError, Prog.wp_run_lift, Rpc.wp_estimateGas, asks_wire, ne_eq, reduceCtorEq,
    not_false_eq_true, implies_true]
  intro estimated
  split
  · exact before_error (by simp [WalletKitError.kind])
  · exact before_error (kind_relay_ne (by simp))
  simp only [Prog.wp_run_bind, Prog.wp_run_lift, Clock.wp_nowUnix, asks_wire, ne_eq, reduceCtorEq,
    not_false_eq_true, implies_true, Prog.wp_run_orThrow]
  refine fun now => Prog.wp_mono (m.signTypedData_wire _) ?_
  rintro (e | signature) out ⟨rfl, hsigned⟩
  · exact before_error (onError_error.mp hsigned).1
  · exact before_ok

end TransactionManager

namespace GelatoRelay

variable (relay : GelatoRelay)

theorem userNonce_wire (user : Address) :
    (relay.userNonce user).run.wp (wire hasPrivate) (Before .relay) false := by
  unfold userNonce
  simp only [Prog.wp_run_bind, Prog.wp_run_orThrow, Rpc.wp_call, asks_wire, ne_eq, reduceCtorEq,
    not_false_eq_true, implies_true, Prog.forall_except, Except.mapError]
  refine ⟨fun e => before_error (kind_relay_ne (by simp)), fun returned => ?_⟩
  cases returned with
  | returned bytes =>
    dsimp only
    split
    · exact before_ok
    · exact before_error (kind_relay_ne (by simp))
  | reverted bytes => exact before_error (kind_relay_ne (by simp))

theorem buildCall_wire (intent : TxIntent) (deadline : Nat) :
    (relay.buildCall intent deadline).run.wp (wire hasPrivate) (Before .relay) false := by
  unfold buildCall
  split
  · exact before_error (kind_relay_ne (by simp))
  split
  · exact before_error (kind_relay_ne (by simp))
  dsimp only
  split
  · simp only [Prog.wp_run_bind, Prog.wp_run_map]
    refine Prog.wp_mono (relay.userNonce_wire _) ?_
    rintro (e | nonce) out ⟨rfl, he⟩
    · exact before_error (onError_error.mp he).1
    · exact before_ok
  · exact before_ok

end GelatoRelay

end Preliminaries

/-- What a failed send through the managed relay says where the call may have arrived. -/
def GelatoOpen (e : WalletKitError) : Prop :=
  (∃ message, e = .relay (.rpc (.call message true))) ∨ ∃ s, e = .store s

/-- The error of a tick comes from a read of the chain, the nonce state or the store. -/
def TickError (e : WalletKitError) : Prop :=
  (∃ s, e = .rpc s) ∨ (∃ s, e = .nonce s) ∨ ∃ s, e = .store s

theorem TickError.kind_ne {e : WalletKitError} (h : TickError e) : e.kind ≠ .needsReconcile := by
  rw [Ne, WalletKitError.kind_eq_needsReconcile]
  rintro ⟨s, hs, -⟩
  rcases h with ⟨_, rfl⟩ | ⟨_, rfl⟩ | ⟨_, rfl⟩ <;> rcases hs with hs | hs <;> cases hs

section Ticks

variable [Alloy] (e : AccountExecutor) {hasPrivate out : Bool}

omit [Alloy] in
/-- A pass over the open handles fails only if they cannot be read: whatever the loop meets, the
tick goes on. -/
theorem pass_wire (a : Address) (f : TxHandle → Io PUnit) :
    (do let handles ← (StateStore.pendingHandles a).orThrow .store
        liftM (handles.forM f) : TickM Unit).run.wp (wire hasPrivate)
      (OnError .ofExecutor fun e _ => TickError e) out := by
  simp only [Prog.wp_run_bind, Prog.wp_run_orThrow, StateStore.wp_pendingHandles, asks_wire, ne_eq,
    reduceCtorEq, not_false_eq_true, implies_true, Prog.forall_except, Except.mapError,
    Prog.wp_run_lift]
  exact ⟨fun e => onError_error.mpr (.inr (.inr ⟨e, rfl⟩)),
    fun handles => wp_wire_of_forall fun _ _ => onError_ok⟩

omit [Alloy] in
theorem AccountExecutor.readCycle_wire :
    e.readCycle.run.wp (wire hasPrivate) (OnError .ofExecutor fun e _ => TickError e) out := by
  have rpc : ∀ {out : Bool} (s : RpcError), OnError .ofExecutor (fun e _ => TickError e)
      (.error (.rpc s) : Except ExecutorError (Option Cycle)) out := fun s =>
    onError_error.mpr (.inl ⟨s, rfl⟩)
  unfold readCycle
  simp only [Prog.wp_run_bind, Prog.wp_run_orThrow, Prog.wp_run_lift, Rpc.wp_blockNumber,
    Rpc.wp_txCount, ExecutorMemory.wp_lastLatest, asks_wire, ne_eq, reduceCtorEq, not_false_eq_true,
    implies_true, Prog.forall_except, Except.mapError]
  refine ⟨rpc, fun latest => ⟨rpc, fun mined lastLatest => ?_⟩⟩
  split
  · exact onError_ok
  simp only [Prog.wp_run_bind, Prog.wp_run_orThrow, Rpc.wp_finalizedBlock, asks_wire, ne_eq,
    reduceCtorEq, not_false_eq_true, implies_true, Prog.forall_except, Except.mapError]
  refine ⟨rpc, fun tag => ?_⟩
  split
  · exact onError_ok
  simp only [Prog.wp_run_bind, Prog.wp_run_lift, ExecutorMemory.wp_storeLatest, asks_wire, ne_eq,
    reduceCtorEq, not_false_eq_true, implies_true]
  exact fun _ => onError_ok

theorem AccountExecutor.confirm_wire :
    e.confirm.run.wp (wire hasPrivate) (OnError .ofExecutor fun e _ => TickError e) out := by
  unfold confirm
  refine Prog.wp_run_bind.mpr (Prog.wp_mono e.readCycle_wire ?_)
  rintro (err | _ | cycle) out herr
  · exact onError_error.mpr (onError_error.mp herr)
  · exact onError_ok
  refine Prog.wp_run_bind.mpr (Prog.wp_run_orThrow.mpr (wp_wire_of_forall fun r out => ?_))
  cases r with
  | error err => exact onError_error.mpr (.inr (.inl ⟨err, rfl⟩))
  | ok _ => exact pass_wire _ _

theorem AccountExecutor.escalate_wire :
    e.escalate.run.wp (wire hasPrivate) (OnError .ofExecutor fun e _ => TickError e) out := by
  unfold escalate
  refine Prog.wp_run_bind.mpr (Prog.wp_run_lift.mpr (wp_wire_of_forall fun now out => ?_))
  exact pass_wire _ _

theorem AccountExecutor.tick_wire :
    e.tick.run.wp (wire hasPrivate) (OnError .ofExecutor fun e _ => TickError e) out := by
  unfold tick
  refine Prog.wp_run_bind.mpr (Prog.wp_mono (pass_wire e.account recoverHandle) ?_)
  rintro (err | _) out herr
  · exact herr
  refine Prog.wp_run_bind.mpr (Prog.wp_mono e.confirm_wire ?_)
  rintro (err | _) out herr
  · exact herr
  · exact e.escalate_wire

end Ticks

namespace Wallet

variable [Alloy] (w : Wallet) {hasPrivate : Bool}

theorem sendSelfRelay_wire (runtime : GaslessRuntime) (intent : TxIntent) (opts : SubmissionOpts)
    (deadline : Nat) : (w.sendSelfRelay runtime intent opts deadline).run.wp (wire hasPrivate)
      (OnError id Refused) false := by
  refine Prog.wp_run_bind.mpr (Prog.wp_mono
    (w.manager.buildAndSignForwardRequest_wire ..) ?_)
  rintro (e | signed) out ⟨rfl, he⟩
  · exact onError_error.mpr (onError_error.mp he)
  · refine Prog.wp_run_orThrow.mpr (Prog.wp_mono (runtime.manager.sendWithMeta_wire ..) ?_)
    exact fun r out hr => onError_mapError.mpr hr

theorem sendGelato_wire (relay : GelatoRelay) (intent : TxIntent) (deadline : Nat) :
    (w.sendGelato relay intent deadline).run.wp (wire hasPrivate)
      (OnError id (OpenOnly GelatoOpen)) false := by
  unfold sendGelato
  simp only [Prog.wp_run_bind, Prog.wp_run_lift, Prog.wp_run_orThrow, Clock.wp_nowUnix, asks_wire,
    ne_eq, reduceCtorEq, not_false_eq_true, implies_true]
  refine fun now => Prog.wp_mono (relay.buildCall_wire ..) ?_
  rintro (e | call) out ⟨rfl, he⟩
  · exact onError_error.mpr (onError_error.mp he).openOnly
  refine Prog.wp_mono (w.manager.signTypedData_wire _) ?_
  rintro (e | signature) out ⟨rfl, he⟩
  · exact onError_error.mpr (onError_error.mp he).openOnly
  simp only [Except.mapError, Relay.wp_gelatoSubmit]
  refine asks_wire_gelatoSubmit (fun message => ?_) (fun message _ => ?_) fun task _ => ?_
  · exact onError_error.mpr (Refused.openOnly ⟨kind_relay_ne (by simp), rfl⟩)
  · exact onError_error.mpr ⟨kind_relay_ne (by simp), fun _ => .inl ⟨message, rfl⟩⟩
  · -- the relay has the call; its record may still fail to be stored
    unfold TransactionManager.persistTaskHandle
    simp only [Prog.wp_run_bind, Prog.wp_run_lift, Prog.wp_run_orThrow, Clock.wp_nowUnix,
      StateStore.wp_putHandle, asks_wire, ne_eq, reduceCtorEq, not_false_eq_true, implies_true,
      Prog.forall_except, Except.mapError]
    exact fun now => ⟨fun s => onError_error.mpr ⟨kind_ofManager_ne (e := .store s) (by simp),
      fun _ => .inr ⟨s, rfl⟩⟩, fun _ => onError_ok⟩

theorem tick_wire {out : Bool} :
    w.tick.run.wp (wire hasPrivate) (OnError id fun e _ => TickError e) out := by
  unfold tick
  simp only [Prog.wp_run_bind, Prog.wp_run_orThrow]
  refine Prog.wp_mono w.executor.tick_wire ?_
  rintro (e | _) out he
  · exact onError_error.mpr (onError_error.mp he)
  dsimp only [Except.mapError]
  split
  · rename_i runtime _
    exact Prog.wp_run_orThrow.mpr (Prog.wp_mono runtime.executor.tick_wire
      fun r out hr => onError_mapError.mpr hr)
  · exact onError_ok

end Wallet

/-- The error that a result holds. -/
def WalletResult.error? : WalletResult → Option WalletKitError
  | .sent (.error e) | .ticked (.error e) | .handle (.error e) | .status (.error e) => some e
  | _ => none

/-- What the error of a call says, where `out` is whether something was left open: a send leaves
nothing, a cancel and a send through the managed relay only with the errors listed for them. -/
def WalletCall.Fails : WalletCall → WalletKitError → Bool → Prop
  | .tick, e, _ => TickError e
  | .cancel _, e, out => out → TransactionManager.CancelOpen e
  | .sendGasless _ ⟨.gelato, _⟩, e, out => out → GelatoOpen e
  | _, _, out => out = false

section Calls

variable [Alloy] (w : Wallet) {hasPrivate : Bool}

theorem Wallet.sendGasless_wire (intent : TxIntent) (opts : GaslessOpts) :
    (w.sendGasless intent opts).run.wp (wire hasPrivate) (OnError id fun e out =>
      e.kind ≠ .needsReconcile ∧ (WalletCall.sendGasless intent opts).Fails e out) false := by
  obtain ⟨route, deadline⟩ := opts
  unfold Wallet.sendGasless
  cases route with
  | selfRelay submission =>
    split
    · exact w.sendSelfRelay_wire ..
    · rename_i hroute _
      cases hroute
    · exact onError_error.mpr ⟨kind_relay_ne (by simp), rfl⟩
  | gelato =>
    split
    · rename_i hroute _
      cases hroute
    · exact w.sendGelato_wire ..
    · exact onError_error.mpr (Refused.openOnly ⟨kind_relay_ne (by simp), rfl⟩)

theorem WalletCall.body_wire (c : WalletCall) : (c.body w).wp (wire hasPrivate)
    (fun r out => ∀ e, r.error? = some e → e.kind ≠ .needsReconcile ∧ c.Fails e out) false := by
  have sent : ∀ {r : Except WalletKitError TxHandle} {P : WalletKitError → Bool → Prop}
      {out : Bool}, OnError id P r out → ∀ e, (WalletResult.sent r).error? = some e → P e out := by
    intro r P out hr e he
    cases r with
    | ok h => cases he
    | error e' => cases he; exact onError_error.mp hr
  have own : ∀ intent opts, (w.manager.sendWithMeta intent opts none .direct).run.wp
      (wire hasPrivate) (fun r out => ∀ e,
        (WalletResult.sent (r.mapError .ofManager)).error? = some e → Refused e out) false :=
    fun intent opts =>
    Prog.wp_mono (w.manager.sendWithMeta_wire ..) fun r out hr => sent (onError_mapError.mpr hr)
  cases c with
  | send intent => exact Prog.wp_map.mpr (Prog.wp_run_orThrow.mpr (own ..))
  | sendWith intent opts => exact Prog.wp_map.mpr (Prog.wp_run_orThrow.mpr (own ..))
  | sendGasless intent opts =>
    exact Prog.wp_map.mpr (Prog.wp_mono (w.sendGasless_wire intent opts) fun r out hr => sent hr)
  | cancel id =>
    exact Prog.wp_map.mpr (Prog.wp_run_orThrow.mpr (Prog.wp_mono (w.manager.cancel_wire id)
      fun r out hr => sent (onError_mapError.mpr hr)))
  | tick =>
    refine Prog.wp_map.mpr (Prog.wp_mono w.tick_wire fun r out hr e he => ?_)
    cases r with
    | ok _ => cases he
    | error e' =>
      cases he
      exact ⟨(onError_error.mp hr).kind_ne, onError_error.mp hr⟩
  | handle id | status id =>
    simp only [body, Wallet.status, Wallet.handle, Prog.wp_map, Prog.wp_run_bind,
      Prog.wp_run_orThrow, StateStore.wp_handle, asks_wire, ne_eq, reduceCtorEq, not_false_eq_true,
      implies_true, Prog.forall_except, Except.mapError, Prog.wp_run_pure]
    refine ⟨fun s e he => ?_, fun found e he => ?_⟩
    · cases he
      exact ⟨kind_ofManager_ne (e := .store s) (by simp), rfl⟩
    · cases he

/-- The same over the notes on a call. -/
def wireNotes (hasPrivate : Bool) : Spec ports (List (PortEvent × Network)) where
  step notes o r notes' := ∃ net : Network, (net.Reports hasPrivate ⟨o, r⟩ ∧
    net.readsRefusals hasPrivate o) ∧ notes' = notes ++ [(⟨o, r⟩, net)]
  owes _ _ := True
  stuck _ := True

theorem WalletCall.body_wireNotes (c : WalletCall) : (c.body w).wp (wireNotes hasPrivate)
    (fun r notes => ∀ e, r.error? = some e →
      e.kind ≠ .needsReconcile ∧ c.Fails e (notes.any (leftOpen hasPrivate))) [] := by
  refine Prog.wp_comap (σ := wire hasPrivate) (τ := wireNotes hasPrivate) (v := [])
    (·.any (leftOpen hasPrivate)) (c.body_wire w) ?_ (fun _ _ _ => trivial) fun _ _ => trivial
  rintro notes o r _ ⟨net, ⟨hreports, hread⟩, rfl⟩
  exact ⟨net, hreports, hread, by simp [leftOpen]⟩

/-- The calls of a wallet in any interleaving, over a network whose refusals are read as such. -/
abbrev Wallet.wired (w : Wallet) (hasPrivate : Bool) : System ports Wired WalletCall WalletResult :=
  overNetwork (w.client.system fun _ _ _ => True) hasPrivate Network.readsRefusals

/-- The error with which a call has ended. -/
def failed? (th : WalletThread) : Option WalletKitError :=
  match th.prog with
  | .ret r => r.error?
  | _ => none

/-- **An error says what may be on its way**: in every run of a wallet's calls, however they
interleave and whatever the network does, as long as the adapters take nothing for a refusal that is
none, no call ends with an error of the kind that asks to reconcile; a send that fails, for the
account itself or through its own relayer, has had everything it handed over kept back or refused;
a cancel has left something open only if its error is a transient one of the broadcast or one
of the store, a send through the managed relay only if it is a transient one of the relay or one
of the store; and a tick fails only on a read of the chain, the nonce state or the store. -/
theorem failed_call_leaves_open {p : Pool ports Wired WalletCall WalletResult}
    (h : (w.wired hasPrivate).Reaches Client.start.unnoted p) {i : Nat} {th : WalletThread}
    (hi : p.threads[i]? = some th) {e : WalletKitError} (he : failed? th = some e) :
    e.kind ≠ .needsReconcile ∧
      th.call.Fails e ((p.world.notes i).any (leftOpen hasPrivate)) := by
  have hwire := h.annotated (σ := wireNotes hasPrivate)
    (fun {_ _ _ net} hfits => ⟨net, hfits, rfl⟩) (WalletCall.body_wireNotes w) rfl hi
  unfold failed? at he
  split at he
  · rename_i r hprog
    rw [hprog] at hwire
    exact hwire e he
  · cases he

end Calls

section LostPost

attribute [local instance] Toy.alloy

/-- A gasless send whose post is lost. -/
def lostPost : Pool ports Wired WalletCall WalletResult :=
  System.played (S := Toy.relayWallet.wired true) Client.start.unnoted
    [.spawn (.sendGasless { Toy.intent with value := 0 } ⟨.gelato, 60⟩),
      .moves 0 20 ⟨(), 0, default⟩ fun w => World.serve (Network.answering true default
        (Toy.relaying .pending Toy.calm)) w.world]

theorem failed_call_leaves_open_lost : ∃ th e, lostPost.threads[0]? = some th ∧
    failed? th = some e ∧ (lostPost.world.notes 0).any (leftOpen true) ∧
      e.kind ≠ .needsReconcile ∧
      th.call.Fails e ((lostPost.world.notes 0).any (leftOpen true)) := by
  have hreach : (Toy.relayWallet.wired true).Reaches Client.start.unnoted lostPost :=
    System.reaches_played _ _
  have hrun : lostPost.threads[0]?.any fun th =>
      (failed? th).isSome && (lostPost.world.notes 0).any (leftOpen true) := by
    decide +kernel
  obtain ⟨th, hhead, hth⟩ := (Option.any_eq_true _ _).mp hrun
  obtain ⟨hfailed, hopen⟩ := Bool.and_eq_true_iff.mp hth
  obtain ⟨e, he⟩ := Option.isSome_iff_exists.mp hfailed
  obtain ⟨hkind, hfails⟩ := failed_call_leaves_open Toy.relayWallet hreach hhead he
  exact ⟨th, e, hhead, he, hopen, hkind, hfails⟩

end LostPost

end WalletKit
