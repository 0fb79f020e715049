import WalletKit.Safety.Keys

/-!
# What is relayed is what its user signed

A gasless send has two signers. The user's signs a request, and a relayer's transaction or a
managed relay carries it. Here every record with a context is traced back to the request: the
user's own engine allowed it, the user's signer signed it under that approval, and it says what
the intent says. Nothing that happens to the record later changes what it carries, and neither
does any transaction that is broadcast for it.
-/
namespace WalletKit

open Machine Signing

section Requests

/-- An engine allowed these typed data, and the signer signed them under its approval. -/
def Endorsed (past : List PortEvent) (m : TransactionManager) (td : TypedData)
    (signature : SignatureEnvelope) : Prop :=
  ∃ approval now, Allowed past m.policy (.typedData td) approval ∧ ev .nowUnix now ∈ past ∧
    ev (.signTypedData m.signer td approval now) (.ok signature) ∈ past

/-- A contract returned this word. -/
def Returned (past : List PortEvent) (request : TransactionRequest) (n : Nat) : Prop :=
  ∃ bytes, ev (.call request) (.ok (.returned bytes)) ∈ past ∧ 32 ≤ bytes.length ∧
    n = beNat (bytes.take 32)

/-- What the user signs of a request: it is bound to one forwarder on one chain. -/
def SignedRequest.typedData (signed : SignedRequest) : TypedData :=
  ⟨"ERC2771Forwarder", "1", some signed.chainId, some signed.forwarder,
    .forwardRequest signed.request⟩

variable [Alloy]

/-- A request for an intent, endorsed by the user. -/
structure SignedRequest.Carries (signed : SignedRequest) (past : List PortEvent)
    (m : TransactionManager) (intent : TxIntent) (deadline : Nat) : Prop where
  chainId : signed.chainId = intent.chainId
  «from» : signed.request.from = intent.account
  «to» : intent.to = .call signed.request.to
  value : signed.request.value = intent.value
  data : signed.request.data = intent.input
  gas : ev (.estimateGas ⟨some intent.account, some intent.to, some intent.value, intent.input⟩)
    (.ok signed.request.gas) ∈ past
  nonce : Returned past ⟨none, some (.call signed.forwarder), none, Alloy.noncesCall intent.account⟩
    signed.request.nonce
  deadline : ∃ now, ev .nowUnix now ∈ past ∧
    signed.request.deadline = min (saturatingAdd now deadline) u48Max
  endorsed : Endorsed past m signed.typedData signed.signature

/-- A call for an intent. The relay pays, so it moves no value. -/
structure GelatoRelay.Shapes (relay : GelatoRelay) (call : GelatoCall) (past : List PortEvent)
    (intent : TxIntent) : Prop where
  chainId : call.chainId = intent.chainId
  user : call.user = intent.account
  target : intent.to = .call call.target
  value : intent.value = 0
  data : call.data = intent.input
  replay : match relay.nonce with
    | .sequential => ∃ n, call.replay = .nonce n ∧
        Returned past ⟨none, some (.call relay.verifyingContract), none,
          Alloy.userNonceCall intent.account⟩ n
    | .concurrent => call.replay =
        .salt (GelatoRelay.concurrentSalt intent.account intent.input call.deadline)

/-- A call for an intent, endorsed by the user. -/
structure GelatoRelay.Carries (relay : GelatoRelay) (call : GelatoCall)
    (signature : SignatureEnvelope) (past : List PortEvent) (m : TransactionManager)
    (intent : TxIntent) (deadline : Nat) : Prop extends relay.Shapes call past intent where
  deadline : ∃ now, ev .nowUnix now ∈ past ∧ call.deadline = saturatingAdd now deadline
  endorsed : Endorsed past m (relay.typedData call) signature

variable {past log : List PortEvent} {m : TransactionManager} {intent : TxIntent}
  {deadline : Nat}

omit [Alloy] in
theorem Endorsed.mono {td : TypedData} {signature : SignatureEnvelope}
    (h : Endorsed past m td signature) (hsub : past ⊆ log) : Endorsed log m td signature := by
  obtain ⟨approval, now, hallow, hnow, hsign⟩ := h
  exact ⟨approval, now, hsub hallow, hsub hnow, hsub hsign⟩

omit [Alloy] in
theorem Returned.mono {request : TransactionRequest} {n : Nat} (h : Returned past request n)
    (hsub : past ⊆ log) : Returned log request n := by
  obtain ⟨bytes, hcall, hn⟩ := h
  exact ⟨bytes, hsub hcall, hn⟩

theorem SignedRequest.Carries.mono {signed : SignedRequest}
    (h : signed.Carries past m intent deadline) (hsub : past ⊆ log) :
    signed.Carries log m intent deadline := by
  obtain ⟨now, hnow, hdeadline⟩ := h.deadline
  exact { h with
    gas := hsub h.gas
    nonce := h.nonce.mono hsub
    deadline := ⟨now, hsub hnow, hdeadline⟩
    endorsed := h.endorsed.mono hsub }

theorem GelatoRelay.Shapes.mono {relay : GelatoRelay} {call : GelatoCall}
    (h : relay.Shapes call past intent) (hsub : past ⊆ log) : relay.Shapes call log intent := by
  refine { h with replay := ?_ }
  have hreplay := h.replay
  split at hreplay
  · obtain ⟨n, hn, hret⟩ := hreplay
    exact ⟨n, hn, hret.mono hsub⟩
  · exact hreplay

theorem GelatoRelay.Carries.mono {relay : GelatoRelay} {call : GelatoCall}
    {signature : SignatureEnvelope} (h : relay.Carries call signature past m intent deadline)
    (hsub : past ⊆ log) : relay.Carries call signature log m intent deadline := by
  obtain ⟨now, hnow, hdeadline⟩ := h.deadline
  exact ⟨h.toShapes.mono hsub, ⟨now, hsub hnow, hdeadline⟩, h.endorsed.mono hsub⟩

end Requests

section Records

variable [Alloy]

/-- A record of the relayer's transaction around a request. -/
def SelfRelayed (w : Wallet) (past : List PortEvent) (intent : TxIntent) (deadline : Nat)
    (g : TxHandle) : Prop :=
  ∃ runtime signed, w.gasless = some (.selfRelay runtime) ∧
    signed.Carries past w.manager intent deadline ∧ signed.forwarder = runtime.forwarder ∧
    g.intent = Wallet.outerIntent runtime intent signed ∧ g.meta = some (.forRequest signed)

/-- A record of a task that the relay has taken on. -/
def TaskRelayed (w : Wallet) (past : List PortEvent) (intent : TxIntent) (deadline : Nat)
    (g : TxHandle) : Prop :=
  ∃ relay call signature task, w.gasless = some (.gelato relay) ∧
    relay.Carries call signature past w.manager intent deadline ∧
    ev (.gelatoSubmit call signature) (.ok task) ∈ past ∧ g.intent = intent ∧
    g.meta = some (.forGelatoTask relay.verifyingContract call.user call.nonce task)

/-- What a gasless send hands out: its record, its transaction, or the call of a relay. -/
def RelayOwes (w : Wallet) (intent : TxIntent) (deadline : Nat) (past : List PortEvent) : Op → Prop
  | .putHandle g (.wal _) => SelfRelayed w past intent deadline g
  | .submit rlp _ (.send _ wal) => SelfRelayed w past intent deadline wal ∧ rlp = wal.signed
  | .gelatoSubmit call signature => ∃ relay, w.gasless = some (.gelato relay) ∧
      relay.Carries call signature past w.manager intent deadline
  | .putHandle g .task => TaskRelayed w past intent deadline g
  | _ => True

variable {w : Wallet} {past log : List PortEvent} {intent : TxIntent} {deadline : Nat}
  {g h : TxHandle}

theorem SelfRelayed.mono (hg : SelfRelayed w past intent deadline g) (hsub : past ⊆ log) :
    SelfRelayed w log intent deadline g := by
  obtain ⟨runtime, signed, hw, hcarries, hrest⟩ := hg
  exact ⟨runtime, signed, hw, hcarries.mono hsub, hrest⟩

theorem TaskRelayed.mono (hg : TaskRelayed w past intent deadline g) (hsub : past ⊆ log) :
    TaskRelayed w log intent deadline g := by
  obtain ⟨relay, call, signature, task, hw, hcarries, htask, hrest⟩ := hg
  exact ⟨relay, call, signature, task, hw, hcarries.mono hsub, hsub htask, hrest⟩

end Records

section Calls

variable [Alloy] {w : Wallet} {h : List PortEvent} {intent : TxIntent} {deadline : Nat}

/-- A send hands out nothing but its own record. -/
def SendsFor (intent : TxIntent) (context : Option MetaContext) : Op → Prop
  | .putHandle g (.wal _) => g.intent = intent ∧ g.meta = context
  | .submit rlp _ (.send _ wal) => (wal.intent = intent ∧ wal.meta = context) ∧ rlp = wal.signed
  | .gelatoSubmit _ _ | .putHandle _ .task => False
  | _ => True

omit [Alloy] in
theorem SendsFor.of_nonceOp {context : Option MetaContext} {o : Op}
    (ho : LocalNonceManager.NonceOp o) : SendsFor intent context o := by
  cases o with
  | pendingNonce | loadNonceState | casNonceState => trivial
  | _ => cases ho

namespace TransactionManager

variable {m : TransactionManager} {context : Option MetaContext}

omit [Alloy] in
theorem submitWal_sendsFor {wal : TxHandle} (hwal : wal.intent = intent ∧ wal.meta = context)
    (origin : Origin) : (m.submitWal wal origin).run.Ops (SendsFor intent context) := by
  have sent : (liftM (recordSent wal) : SendM TxHandle).run.Ops (SendsFor intent context) :=
    .bind (.bind ⟨trivial, fun _ => trivial⟩ fun _ => trivial) fun _ => trivial
  refine .tryBind (.bind ⟨⟨hwal, rfl⟩, fun _ => trivial⟩ fun _ => trivial) fun submitted => ?_
  split
  · exact sent
  split
  · exact sent
  · exact .tryBind (.bind ⟨trivial, fun _ => trivial⟩ fun _ => trivial) fun _ =>
      .tryBind (.bind ((recycle_ops _ _).mono fun _ => SendsFor.of_nonceOp) fun _ => trivial)
        fun _ => trivial

theorem sendWithMeta_sendsFor (opts : SubmissionOpts) (origin : Origin) :
    (m.sendWithMeta intent opts context origin).run.Ops (SendsFor intent context) := by
  have recycled : ∀ n (e : TransactionManagerError), (do m.recycle intent.account n; throw e :
      SendM TxHandle).run.Ops (SendsFor intent context) := fun n e =>
    .tryBind (.bind ((recycle_ops _ n).mono fun _ => SendsFor.of_nonceOp) fun _ => trivial)
      fun _ => trivial
  unfold sendWithMeta
  split
  · trivial
  split
  · trivial
  refine .tryBind (.bind ⟨trivial, fun _ => trivial⟩ fun _ => trivial) fun gas => ?_
  split
  · trivial
  · trivial
  refine .tryBind (Prog.ops_orThrow ⟨trivial, fun _ => trivial⟩) fun fees =>
    .tryBind (Prog.ops_orThrow ⟨trivial, fun _ => trivial⟩) fun decision => ?_
  split
  · trivial
  refine .tryBind (Prog.ops_orThrow ((m.nonceManager.allocate_ops _).mono fun _ =>
    SendsFor.of_nonceOp)) fun nonce => ?_
  refine .tryBind (.bind ⟨trivial, fun _ => trivial⟩ fun _ => trivial) fun now =>
    .tryBind (Prog.ops_outcome (.tryBind (Prog.ops_orThrow ⟨trivial, fun _ => trivial⟩)
      fun _ => trivial)) fun signed => ?_
  split
  · exact recycled _ _
  refine .tryBind (.bind ⟨⟨rfl, rfl⟩, fun _ => trivial⟩ fun _ => trivial) fun stored => ?_
  split
  · exact recycled _ _
  · exact submitWal_sendsFor ⟨rfl, rfl⟩ origin

end TransactionManager

/-- The signature of a manager over typed data is endorsed. -/
theorem TransactionManager.signTypedData_endorsed (m : TransactionManager) (td : TypedData) :
    (m.signTypedData td).run.wp (.history (RelayOwes w intent deadline))
      (fun r past => h ⊆ past ∧
        ∀ signature, r = .ok signature → Endorsed past m td signature) h := by
  unfold signTypedData authorize
  simp only [Prog.wp_run_bind, Prog.wp_run_lift, Prog.wp_run_orThrow, PolicyEngine.wp_evaluate,
    Clock.wp_nowUnix, Signer.wp_signTypedData, asks_history, Prog.forall_except, Except.mapError]
  refine ⟨trivial, fun e => ⟨List.subset_append_left _ _, by simp⟩, fun decision => ?_⟩
  cases decision with
  | deny rejection => exact ⟨List.subset_append_left _ _, by simp⟩
  | allow approval =>
    refine ⟨trivial, fun now => ⟨trivial, fun e => ⟨?_, by simp⟩, fun signature => ⟨?_, ?_⟩⟩⟩
    · simp
    · simp
    · rintro _ ⟨⟩
      exact ⟨approval, now, by simp [Allowed], by simp, by simp⟩

/-- A read of one word returns what the contract returned. -/
theorem word_returned (request : TransactionRequest) (short reverted : RelayError) :
    (do match ← (Rpc.call request).orThrow RelayError.rpc with
      | .returned bytes => if 32 ≤ bytes.length then return beNat (bytes.take 32) else throw short
      | .reverted _ => throw reverted : ExceptT RelayError Io Nat).run.wp
      (.history (RelayOwes w intent deadline))
      (fun r past => h ⊆ past ∧ ∀ n, r = .ok n → Returned past request n) h := by
  simp only [Prog.wp_run_bind, Prog.wp_run_orThrow, Rpc.wp_call, asks_history, Prog.forall_except,
    Except.mapError]
  refine ⟨trivial, fun e => ⟨List.subset_append_left _ _, by simp⟩, fun simulated => ?_⟩
  cases simulated with
  | reverted => exact ⟨List.subset_append_left _ _, by simp⟩
  | returned bytes =>
    dsimp only
    split
    · refine ⟨List.subset_append_left _ _, ?_⟩
      rintro _ ⟨⟩
      exact ⟨bytes, by simp, ‹_›, rfl⟩
    · exact ⟨List.subset_append_left _ _, by simp⟩

theorem TransactionManager.forwarderNonce_returned (forwarder owner : Address) :
    (forwarderNonce forwarder owner).run.wp (.history (RelayOwes w intent deadline))
      (fun r past => h ⊆ past ∧ ∀ n, r = .ok n →
        Returned past ⟨none, some (.call forwarder), none, Alloy.noncesCall owner⟩ n) h :=
  word_returned _ _ _

theorem GelatoRelay.userNonce_returned (relay : GelatoRelay) (user : Address) :
    (relay.userNonce user).run.wp (.history (RelayOwes w intent deadline))
      (fun r past => h ⊆ past ∧ ∀ n, r = .ok n → Returned past
        ⟨none, some (.call relay.verifyingContract), none, Alloy.userNonceCall user⟩ n) h :=
  word_returned _ _ _

/-- What the user signs for the relayer carries the intent. -/
theorem TransactionManager.buildAndSignForwardRequest_carries (m : TransactionManager)
    (intent' : TxIntent) (forwarder : Address) (seconds : Nat) :
    (m.buildAndSignForwardRequest intent' forwarder seconds).run.wp
      (.history (RelayOwes w intent deadline))
      (fun r past => ∀ signed, r = .ok signed →
        signed.Carries past m intent' seconds ∧ signed.forwarder = forwarder) h := by
  unfold buildAndSignForwardRequest
  split
  · simp
  rename_i target htarget
  simp only [Prog.wp_run_bind, Prog.wp_run_lift, Prog.wp_run_orThrow, Rpc.wp_estimateGas,
    Clock.wp_nowUnix, asks_history, Prog.forall_except, Except.mapError]
  refine Prog.wp_mono (forwarderNonce_returned forwarder intent'.account) ?_
  rintro (e | nonce) past ⟨-, hnonce⟩
  · simp
  refine ⟨trivial, fun e => ?_, fun gas => ⟨trivial, fun now => ?_⟩⟩
  · obtain ⟨message, _ | _⟩ := e <;> simp
  refine Prog.wp_mono (m.signTypedData_endorsed _) ?_
  rintro (e | signature) past' ⟨hsub, hendorsed⟩
  · simp
  rintro _ ⟨⟩
  refine ⟨?_, rfl⟩
  exact {
    chainId := rfl
    «from» := rfl
    «to» := htarget
    value := rfl
    data := rfl
    gas := hsub (by simp)
    nonce := (hnonce nonce rfl).mono fun x hx => hsub (by simp [hx])
    deadline := ⟨now, hsub (by simp), rfl⟩
    endorsed := hendorsed signature rfl }

theorem GelatoRelay.buildCall_shapes (relay : GelatoRelay) (intent' : TxIntent) (until' : Nat) :
    (relay.buildCall intent' until').run.wp (.history (RelayOwes w intent deadline))
      (fun r past => h ⊆ past ∧ ∀ call, r = .ok call →
        relay.Shapes call past intent' ∧ call.deadline = until') h := by
  unfold buildCall
  split
  · exact ⟨List.Subset.refl _, by simp⟩
  rename_i hvalue
  split
  · exact ⟨List.Subset.refl _, by simp⟩
  rename_i target htarget
  cases hscheme : relay.nonce with
  | concurrent =>
    refine ⟨List.Subset.refl _, ?_⟩
    rintro _ ⟨⟩
    exact ⟨⟨rfl, rfl, htarget, not_not.mp hvalue, rfl, by rw [hscheme]⟩, rfl⟩
  | sequential =>
    simp only [Prog.wp_run_bind, Prog.wp_run_map]
    refine Prog.wp_mono (relay.userNonce_returned intent'.account) ?_
    rintro (e | n) past ⟨hsub, hnonce⟩
    · exact ⟨hsub, by simp⟩
    refine ⟨hsub, ?_⟩
    rintro _ ⟨⟩
    refine ⟨⟨rfl, rfl, htarget, not_not.mp hvalue, rfl, ?_⟩, rfl⟩
    rw [hscheme]
    exact ⟨n, rfl, hnonce n rfl⟩

/-- A gasless send hands out only what its user has endorsed. -/
theorem Wallet.sendGasless_relays (w : Wallet) (intent : TxIntent) (opts : GaslessOpts) :
    (w.sendGasless intent opts).run.wp (.history (RelayOwes w intent opts.deadline))
      (fun _ _ => True) [] := by
  unfold sendGasless
  split
  · rename_i submission runtime hroute hgasless
    refine Prog.wp_run_bind.mpr (Prog.wp_mono
      (w.manager.buildAndSignForwardRequest_carries intent runtime.forwarder opts.deadline) ?_)
    rintro (e | signed) past hsigned
    · trivial
    obtain ⟨hcarries, hforwarder⟩ := hsigned signed rfl
    -- whatever the relayer's send does next, the request stays endorsed
    refine Prog.wp_run_orThrow.mpr (Prog.wp_mono (Prog.wp_of_ops
      (P := fun past => signed.Carries past w.manager intent opts.deadline)
      (TransactionManager.sendWithMeta_sendsFor submission .direct) ?_ (fun _ _ => trivial) ?_
      hcarries) fun _ _ _ => trivial)
    · intro o past ho hpast
      have relayed : ∀ g : TxHandle, g.intent = outerIntent runtime intent signed ∧
          g.meta = some (.forRequest signed) → SelfRelayed w past intent opts.deadline g :=
        fun g hg => ⟨runtime, signed, hgasless, hpast, hforwarder, hg⟩
      cases o with
      | putHandle g site =>
        cases site with
        | wal origin => exact relayed g ho
        | task => cases ho
        | _ => trivial
      | submit rlp opts site =>
        cases site with
        | send origin wal => exact ⟨relayed wal ho.1, ho.2⟩
        | _ => trivial
      | gelatoSubmit => cases ho
      | _ => trivial
    · rintro o past r _ - hpast rfl
      exact hpast.mono (List.subset_append_left _ _)
  · rename_i relay hroute hgasless
    unfold sendGelato
    simp only [Prog.wp_run_bind, Prog.wp_run_lift, Prog.wp_run_orThrow, Clock.wp_nowUnix,
      asks_history]
    refine ⟨trivial, fun now => Prog.wp_mono (relay.buildCall_shapes intent _) ?_⟩
    rintro (e | call) past ⟨hsub, hcall⟩
    · trivial
    obtain ⟨hshapes, hdeadline⟩ := hcall call rfl
    refine Prog.wp_mono (w.manager.signTypedData_endorsed _) ?_
    rintro (e | signature) past' ⟨hsub', hsignature⟩
    · trivial
    have hcarries : relay.Carries call signature past' w.manager intent opts.deadline :=
      ⟨hshapes.mono hsub', ⟨now, hsub' (hsub (by simp)), hdeadline⟩, hsignature signature rfl⟩
    simp only [Except.mapError, Relay.wp_gelatoSubmit, asks_history, Prog.forall_except]
    refine ⟨⟨relay, hgasless, hcarries⟩, fun e => trivial, fun task => ?_⟩
    unfold TransactionManager.persistTaskHandle
    simp only [Prog.wp_run_bind, Prog.wp_run_lift, Prog.wp_run_orThrow, Clock.wp_nowUnix,
      StateStore.wp_putHandle, asks_history]
    refine ⟨trivial, fun now' => ⟨⟨relay, call, signature, task, hgasless, hcarries.mono ?_, ?_,
      rfl, rfl⟩, fun r => ?_⟩⟩
    · intro x hx
      simp [hx]
    · simp
    · cases r <;> trivial
  · trivial

/-- The sends of any other call carry no context. -/
theorem WalletCall.contextless {c : WalletCall} (hc : ∀ intent opts, c ≠ .sendGasless intent opts) :
    (c.body w).wp (.history (SettleOwes ⟨c.errand.cancels, (· = none)⟩)) (fun _ _ => True) [] := by
  cases c with
  | send intent | sendWith intent opts =>
    exact Prog.wp_map.mpr (Prog.wp_run_orThrow.mpr (TransactionManager.sendDirect_settles rfl))
  | sendGasless intent opts => exact absurd rfl (hc intent opts)
  | cancel id =>
    exact Prog.wp_map.mpr (Prog.wp_run_orThrow.mpr (TransactionManager.cancel_settles rfl))
  | tick =>
    refine Prog.wp_map.mpr (Prog.wp_run_bind.mpr (Prog.wp_run_orThrow.mpr (Prog.wp_mono
      AccountExecutor.tick_settles ?_)))
    rintro (e | _) past -
    · trivial
    dsimp only [Except.mapError]
    split
    · exact Prog.wp_run_orThrow.mpr AccountExecutor.tick_settles
    · trivial
  | handle id =>
    exact plain_history (.bind (Prog.ops_orThrow ⟨trivial, fun _ => trivial⟩) fun _ => trivial)
  | status id =>
    exact plain_history (.bind (.tryBind (Prog.ops_orThrow ⟨trivial, fun _ => trivial⟩)
      fun _ => trivial) fun _ => trivial)

/-- What the calls of a wallet owe here. -/
def WalletCall.RelayOwes (w : Wallet) : WalletCall → List PortEvent → Op → Prop
  | .sendGasless intent opts => WalletKit.RelayOwes w intent opts.deadline
  | c => SettleOwes ⟨c.errand.cancels, (· = none)⟩

theorem WalletCall.body_relays (c : WalletCall) :
    (c.body w).wp (.history (c.RelayOwes w)) (fun _ _ => True) [] := by
  cases c with
  | sendGasless intent opts => exact Prog.wp_map.mpr (w.sendGasless_relays intent opts)
  | _ => exact contextless (by simp)

end Calls

section Law

variable [Alloy] {w : Wallet} {p : WalletPool} {th : WalletThread}

/-- A record with a context is one of a request or of a task that a user endorsed. -/
def Carried (w : Wallet) (log : List PortEvent) (g : TxHandle) : Prop :=
  ∃ intent deadline, SelfRelayed w log intent deadline g ∨ TaskRelayed w log intent deadline g

theorem Carried.mono {past log : List PortEvent} {g : TxHandle} (hg : Carried w past g)
    (hsub : past ⊆ log) : Carried w log g := by
  obtain ⟨intent, deadline, hg⟩ := hg
  exact ⟨intent, deadline, hg.imp (·.mono hsub) (·.mono hsub)⟩

/-- What a record carries is a matter of its intent and its context. -/
theorem Carried.congr {log : List PortEvent} {g h : TxHandle} (hg : Carried w log g)
    (hintent : h.intent = g.intent) (hmeta : h.meta = g.meta) : Carried w log h := by
  obtain ⟨intent, deadline, ⟨runtime, signed, hw, hcarries, hf, hi, hm⟩ |
    ⟨relay, call, signature, task, hw, hcarries, htask, hi, hm⟩⟩ := hg
  · exact ⟨intent, deadline, .inl ⟨runtime, signed, hw, hcarries, hf, hintent.trans hi,
      hmeta.trans hm⟩⟩
  · exact ⟨intent, deadline, .inr ⟨relay, call, signature, task, hw, hcarries, htask,
      hintent.trans hi, hmeta.trans hm⟩⟩

omit [Alloy] in
/-- Only a gasless send records a task. -/
theorem WalletCall.gasless_of_task {c : WalletCall} (hc : c.Plays w .relayed) :
    ∃ intent opts, c = .sendGasless intent opts := by
  cases c with
  | sendGasless intent opts => exact ⟨intent, opts, rfl⟩
  | tick => obtain hc | ⟨runtime, -, hc⟩ := hc <;> cases hc
  | _ => cases hc

/-- What a call writes with a context is endorsed. -/
theorem WalletCall.carried_of_put {c : WalletCall} {role : Role} {past : List PortEvent}
    {h' : TxHandle} {site : PutSite} (hrole : c.Plays w role) (hput : PutOwes role past h' site)
    (howes : c.RelayOwes w past (.putHandle h' site)) (hb : site.basis = none)
    (hmeta : h'.meta ≠ none) : Carried w past h' := by
  cases site with
  | wal origin =>
    cases c with
    | sendGasless intent opts => exact ⟨intent, opts.deadline, .inl howes⟩
    | _ =>
      cases origin with
      | direct => exact absurd howes hmeta
      | refill d => exact absurd (Refills.context howes) hmeta
  | cancelNew marked =>
    obtain ⟨m, approval, now, signed, -, rfl, -⟩ := hput
    exact absurd rfl hmeta
  | task =>
    obtain ⟨rfl, -⟩ := hput
    obtain ⟨intent, opts, rfl⟩ := gasless_of_task hrole
    exact ⟨intent, opts.deadline, .inr howes⟩
  | _ => cases hb

theorem carried_of_reaches (h : w.calls.Reaches Client.start p) :
    (∀ g, p.world.store.handle g.id = some g → g.meta ≠ none → Carried w p.world.log g) ∧
      ∀ th ∈ p.threads, ∀ g, Known th.past g → g.meta ≠ none → Carried w p.world.log g := by
  have hS := w.client.system_runs fun _ _ _ => True
  refine hS.handles (P := fun log g => g.meta ≠ none → Carried w log g) Client.fresh_start
    (fun l e g hg hmeta => (hg hmeta).mono (List.subset_append_left _ _))
    (fun {p th h' site k role} hreach hth hprog hrole hput hknown hmeta => ?_) h
  suffices hcarried : Carried w p.world.log h' from hcarried.mono (List.subset_append_left _ _)
  cases hb : site.basis with
  | some g =>
    rw [hput.context hb] at hmeta
    exact (hknown g (hput.known hb) hmeta).congr (hput.sameRecord hb).intent (hput.context hb)
  | none =>
    have hhistory := hreach.history WalletCall.body_relays rfl th hth
    rw [hprog] at hhistory
    exact (WalletCall.carried_of_put hrole hput (Prog.wp_history_call.mp hhistory).1 hb hmeta).mono
      fun e => hS.mem_log Client.fresh_start hreach hth

/-- A broadcast for a record with a context, in the log it was made in. -/
def RelayedSubmit (w : Wallet) (log : List PortEvent) : Op → Prop
  | .submit rlp _ site =>
    ∀ g, site.record = some g → g.meta ≠ none → Carried w log g ∧ Encodes g rlp
  | _ => True

theorem relayedSubmit_of_reaches (h : w.calls.Reaches Client.start p) :
    ∀ l e l', p.world.log = l ++ e :: l' → RelayedSubmit w l e.op := by
  have hS := w.client.system_runs fun _ _ _ => True
  intro l e l' hl
  have hK := hS.log_moved (K := fun w' e => RelayedSubmit w w'.log e.op) Client.fresh_start
    (fun {p i th x o k r} hreach hi hprog _ => ?_) h l e l' hl
  · simpa using hK
  cases o with
  | submit rlp opts site =>
    intro g hg hmeta
    have hth := List.mem_of_getElem? hi
    obtain ⟨role, -, howes⟩ := hS.owes Client.fresh_start hreach hth hprog
    obtain ⟨hknown, hencodes⟩ :=
      SubmitOwes.known_encodes howes hg ((hS.encodes Client.fresh_start hreach).2 th hth)
    exact ⟨(carried_of_reaches hreach).2 th hth g hknown hmeta, hencodes⟩
  | _ => trivial

/-- **What is relayed is what its user signed.** A gasless send hands out only a request for its
intent that the user's engine allowed and the user's signer signed under that approval. Every
record with a context stays one of such a request, and whatever is broadcast for the record, by
its send, a recovery or a fee bump, is a transaction for the same intent. -/
theorem relayed_as_endorsed (w : Wallet) {p : WalletPool} (h : w.calls.Reaches Client.start p) :
    (∀ th ∈ p.threads, ∀ intent opts, th.call = .sendGasless intent opts →
      ∀ before e after, th.past = before ++ e :: after →
        RelayOwes w intent opts.deadline before e.op) ∧
      (∀ g, p.world.store.handle g.id = some g → g.meta ≠ none → Carried w p.world.log g) ∧
      ∀ l e l', p.world.log = l ++ e :: l' → RelayedSubmit w l e.op := by
  refine ⟨?_, (carried_of_reaches h).1, relayedSubmit_of_reaches h⟩
  intro th hth intent opts hcall before e after hpast
  have howed := h.owed WalletCall.body_relays rfl th hth before e after hpast
  rwa [hcall] at howed

end Law

section RelayRun

attribute [local instance] Toy.alloy

/-- A gasless send through the relayer, and a tick that bumps the relayer's transaction. -/
def relayedBump : WalletPool :=
  System.played (S := Toy.relayerBuilder.build.calls) Client.start
    [.spawn Toy.relayerSend, .moves 0 40 () (World.serve (Toy.relaying .pending Toy.calm)),
      .spawn .tick, .moves 1 60 () (World.serve (Toy.relaying .pending Toy.calm))]

/-- A broadcast of a bump of a record with a context. -/
def relayedBump? : PortEvent → Option (Bytes × TxHandle)
  | ⟨.submit rlp _ (.bump g), _⟩ => if g.meta.isSome then some (rlp, g) else none
  | _ => none

theorem eq_submit_of_relayedBump? {e : PortEvent} {rlp : Bytes} {g : TxHandle}
    (h : relayedBump? e = some (rlp, g)) :
    (∃ opts, e.op = .submit rlp opts (.bump g)) ∧ g.meta ≠ none := by
  unfold relayedBump? at h
  split at h
  · split at h
    · rename_i hmeta
      cases h
      exact ⟨⟨_, rfl⟩, Option.isSome_iff_ne_none.mp hmeta⟩
    · cases h
  · cases h

theorem relayed_as_endorsed_bump : ∃ l e l' rlp g, relayedBump.world.log = l ++ e :: l' ∧
    relayedBump? e = some (rlp, g) ∧ Carried Toy.relayerBuilder.build l g ∧ Encodes g rlp := by
  have hreach : Toy.relayerBuilder.build.calls.Reaches Client.start relayedBump :=
    System.reaches_played _ _
  have hrun : (relayedBump.world.log.findSome? relayedBump?).isSome := by decide +kernel
  obtain ⟨⟨rlp, g⟩, hfound⟩ := Option.isSome_iff_exists.mp hrun
  obtain ⟨e, he, hbump⟩ := List.exists_of_findSome?_eq_some hfound
  obtain ⟨l, l', hl⟩ := List.append_of_mem he
  obtain ⟨⟨opts, hop⟩, hmeta⟩ := eq_submit_of_relayedBump? hbump
  have hsubmit := (relayed_as_endorsed Toy.relayerBuilder.build hreach).2.2 l e l' hl
  rw [hop] at hsubmit
  obtain ⟨hrelayed, hencodes⟩ := hsubmit g rfl hmeta
  exact ⟨l, e, l', rlp, g, hl, hbump, hrelayed, hencodes⟩

end RelayRun

end WalletKit
