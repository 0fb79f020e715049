import WalletKit.Provenance.Past

/-!
# The history of sends and cancels
-/
namespace WalletKit

open Machine Signing

variable [Alloy]

/-- Nothing that only an executor does. -/
def ManagerOp : Op → Prop
  | .submit _ _ (.recover _) | .submit _ _ (.bump _) | .putHandle _ (.bump _) => False
  | _ => True

theorem ManagerOp.of_owes {m : TransactionManager} {past : List PortEvent} {o : Op}
    (h : Owes (.manager m) past o) : ManagerOp o := by
  cases o with
  | submit rlp opts site =>
    cases site with
    | recover =>
      obtain ⟨e, hrole, -⟩ := h
      cases hrole
    | bump =>
      obtain ⟨e, _, _, hrole, -⟩ := h
      cases hrole
    | _ => trivial
  | putHandle g site =>
    cases site with
    | bump =>
      obtain ⟨e, _, _, _, hrole, -⟩ := h
      cases hrole
    | _ => trivial
  | _ => trivial

namespace TransactionManager

variable {role : Role} {m : TransactionManager} {h : List PortEvent}

/-- Giving a nonce back ends the send. -/
theorem recycle_history {a : Address} {n : Nat} (hold : holding h = some (a, n))
    (hrest : Rested h) : (m.recycle a n).wp (.history (Owes role)) (fun _ => Done) h := by
  have quiet : ∀ {h e}, holding h = some (a, n) ∧ Rested h → Quiet e →
      holding (h ++ [e]) = some (a, n) ∧ Rested (h ++ [e]) := by
    rintro h e ⟨hh, hr⟩ he
    exact ⟨by rw [holding, phase_snoc rfl (he _)]; exact hh, hr.snoc he⟩
  refine Prog.wp_bind.mpr (LocalNonceManager.releaseLoop_history
    (P := fun h => holding h = some (a, n) ∧ Rested h)
    (fun h r hh => ⟨trivial, quiet hh fun _ => rfl⟩)
    (fun h v s hh hfrom => ⟨⟨hfrom, hh⟩, fun r hr => quiet hh (quiet_cas hr),
      done_of_idle (phase_snoc rfl rfl)⟩)
    (fun h v hh hle => ⟨.inr (.inr ⟨h, a, n, v, List.prefix_rfl, hh.1, hle⟩),
      hh.2.snoc fun _ => rfl⟩)
    (fun h x e hh hx => ⟨.inr (.inl ⟨x, by simp, hx⟩), hh.2⟩) _ ⟨hold, hrest⟩)

/-- The same from a phase in which nothing waits for its outcome. -/
theorem recycle_reserved {a : Address} {n : Nat} (hp : phase h = .reserved a n) :
    (m.recycle a n).wp (.history (Owes role)) (fun _ => Done) h :=
  recycle_history (by rw [holding, hp]; rfl) (.inl (by rw [hp]; rfl))

theorem submitWal_history {wal : TxHandle} {origin : Origin} (hsender : role.sender = some m)
    (hwal : Prepared h m wal) (hp : phase h = .logged wal)
    (hlast : h.getLast? = some (ev (.putHandle wal (.wal origin)) (.ok ()))) :
    (m.submitWal wal origin).run.wp (.history (Owes role)) (fun _ => Done) h := by
  have hstored : ∀ t, Stored (h ++ t) wal (.wal origin) := fun t =>
    List.mem_append_left t (List.mem_of_getLast? hlast)
  have sent : ∀ r, maybeOut r → (liftM (recordSent wal) : SendM TxHandle).run.wp
      (.history (Owes role)) (fun _ => Done)
      (h ++ [ev (.submit wal.signed wal.submission (.send origin wal)) r]) := by
    intro r hr
    have hout := phase_snoc hp
      (e := ev (.submit wal.signed wal.submission (.send origin wal)) r) (if_pos hr)
    simp only [recordSent, Prog.wp_run_lift, Prog.wp_bind, Prog.wp_pure, StateStore.wp_putHandle,
      asks_history]
    exact ⟨⟨rfl, ⟨origin, hstored _⟩, hout⟩, fun _ => done_of_idle (phase_snoc hout rfl)⟩
  unfold submitWal
  simp only [Prog.wp_run_bind, Prog.wp_run_lift, Submission.wp_submit, asks_history,
    Prog.forall_except]
  refine ⟨⟨m, hsender, hwal, rfl, rfl, hlast⟩, fun e => ?_, fun x => sent (.ok x) rfl⟩
  split
  · exact sent (.error e) ‹_›
  · rename_i he
    have hlogged := phase_snoc hp
      (e := ev (.submit wal.signed wal.submission (.send origin wal)) (.error e)) (if_neg he)
    simp only [Bool.or_eq_true, not_or, Bool.not_eq_true] at he
    simp only [rejectSend, Prog.wp_run_bind, Prog.wp_run_lift, Prog.wp_run_throw,
      StateStore.wp_putHandle, asks_history, Prog.forall_except]
    refine ⟨⟨e, rfl, he.1, he.2, ⟨origin, hstored _⟩, hlogged⟩, fun err => ?_,
      fun _ => recycle_reserved (phase_snoc hlogged rfl)⟩
    -- the failed record is lost, and the nonce is given back all the same
    have hsame := phase_snoc hlogged (e := ev (.putHandle { wal with
      status := .failed e.toString } (.rejected wal)) (.error err)) rfl
    exact recycle_history (by rw [holding, hsame]; rfl) 
      (.inr ⟨_, wal, err, List.mem_append_right _ (List.mem_singleton.mpr rfl)⟩)

theorem buildSignSubmit_history {intent : TxIntent} {gasLimit : Nat} {fees : Eip1559Estimation}
    {nonce : Nat} {approval : PolicyApproval} {opts : SubmissionOpts}
    {context : Option MetaContext} {origin : Origin} (hsender : role.sender = some m)
    (hacc : m.signer = intent.account) (hp : phase h = .reserved intent.account nonce)
    (hallow : Allowed h m.policy (.transaction intent) approval) :
    (m.buildSignSubmit intent gasLimit fees nonce approval opts context origin).run.wp
      (.history (Owes role)) (fun _ => Done) h := by
  unfold buildSignSubmit signEncode
  simp only [Prog.wp_run_bind, Prog.wp_run_lift, Prog.wp_run_outcome, Prog.wp_run_orThrow,
    Prog.wp_run_pure, Prog.wp_run_throw, Clock.wp_nowUnix, Signer.wp_signTransaction,
    StateStore.wp_putHandle, asks_history, Prog.forall_except, Except.mapError]
  refine ⟨trivial, fun now => ⟨trivial, fun e => recycle_reserved ?_, fun sig => ?_⟩⟩
  · exact phase_snoc (phase_snoc hp rfl) rfl
  have hwal : ∀ t, Prepared (h ++ [ev .nowUnix now] ++ [ev (.signTransaction m.signer
      (buildTx intent nonce gasLimit fees) intent.hash approval now) (.ok sig)] ++ t) m
      (walHandle intent nonce approval now (.of (buildTx intent nonce gasLimit fees) sig) opts
        context) := fun t =>
    ⟨intent, nonce, gasLimit, fees, approval, now, _, opts, context, hacc,
      by simp [Allowed, show _ ∈ h from hallow], ⟨by simp, sig, by simp, rfl⟩, rfl, rfl⟩
  have hp₂ : phase (h ++ [ev .nowUnix now] ++ [ev (.signTransaction m.signer
      (buildTx intent nonce gasLimit fees) intent.hash approval now) (.ok sig)]) =
      .reserved intent.account nonce := phase_snoc (phase_snoc hp rfl) rfl
  exact ⟨⟨m, hsender, by simpa using hwal [], hp₂⟩,
    fun e => recycle_reserved (phase_snoc hp₂ rfl),
    fun _ => submitWal_history hsender (hwal _) (phase_snoc hp₂ rfl) (by simp)⟩

theorem allocate_history {a : Address} {P : List PortEvent → Prop}
    (hP : ∀ h e, P h → P (h ++ [e])) (hdone : Done h) (hh : P h) :
    (m.nonceManager.allocate a).run.wp (.history (Owes role)) (fun r h' => P h' ∧ match r with
      | .ok n => phase h' = .reserved a n
      | .error _ => Done h') h :=
  LocalNonceManager.allocateLoop_history (P := fun h => Done h ∧ P h)
    (fun h _ hh => ⟨trivial, hh.1.snoc fun _ => rfl, hP h _ hh.2⟩)
    (fun h _ hh => ⟨trivial, hh.1.snoc fun _ => rfl, hP h _ hh.2⟩)
    (fun h _ _ _ _ hh hfrom _ => ⟨⟨hfrom, hh.1⟩,
      fun _ hr => ⟨hh.1.snoc (quiet_cas hr), hP h _ hh.2⟩, hP h _ hh.2, phase_snoc rfl rfl⟩)
    (fun _ _ hh => ⟨hh.2, hh.1⟩) _ ⟨hdone, hh⟩

theorem sendWithMeta_history {intent : TxIntent} {opts : SubmissionOpts}
    {context : Option MetaContext} {origin : Origin} (hsender : role.sender = some m)
    (hdone : Done h) :
    (m.sendWithMeta intent opts context origin).run.wp (.history (Owes role))
      (fun _ => Done) h := by
  unfold sendWithMeta
  split
  · exact hdone
  split
  · exact hdone
  rename_i hacc
  simp only [Prog.wp_run_bind, Prog.wp_run_lift, Prog.wp_run_orThrow, Rpc.wp_estimateGas,
    GasOracle.wp_estimate, PolicyEngine.wp_evaluate, asks_history, Prog.forall_except,
    Except.mapError]
  have hd₁ : ∀ r, Done (h ++ [ev (.estimateGas ⟨some intent.account, some intent.to,
      some intent.value, intent.input⟩) r]) := fun r => hdone.snoc fun _ => rfl
  refine ⟨trivial, fun e => ?_, fun gas => ⟨trivial, fun e => (hd₁ _).snoc fun _ => rfl,
    fun fees => ⟨trivial, fun e => ((hd₁ _).snoc fun _ => rfl).snoc fun _ => rfl,
      fun decision => ?_⟩⟩⟩
  · obtain ⟨message, _ | _⟩ := e
    · exact hd₁ _
    · exact hd₁ _
  · cases decision with
    | deny rejection => exact ((hd₁ _).snoc fun _ => rfl).snoc fun _ => rfl
    | allow approval =>
      simp only [Prog.wp_run_bind, Prog.wp_run_orThrow]
      refine Prog.wp_mono (allocate_history
        (P := (Allowed · m.policy (.transaction intent) approval)) ?_
        (((hd₁ _).snoc fun _ => rfl).snoc fun _ => rfl) (by simp [Allowed])) ?_
      · exact fun h e hh => List.mem_append_left _ hh
      · rintro (e | n) h' ⟨hallow, hn⟩
        · exact hn
        · exact buildSignSubmit_history hsender (not_not.mp hacc) hn hallow

section Calls

/-- A send reads nothing of the chain but the gas estimate and the pending nonce, and asks
the store for nonce states only; it writes no handle but its own. -/
def SendOp : Op → Prop
  | .pendingNonce _ | .estimateGas _ | .gasEstimate | .evaluate _ _
  | .signTransaction _ _ _ _ _ | .submit _ _ _ | .loadNonceState _
  | .casNonceState _ _ _ _ _ | .nowUnix => True
  | .putHandle _ site => site.isSend
  | _ => False

omit [Alloy] in
theorem SendOp.of_nonceOp {o : Op} (ho : LocalNonceManager.NonceOp o) : SendOp o := by
  cases o with
  | pendingNonce | loadNonceState | casNonceState => trivial
  | _ => cases ho

omit [Alloy] in
theorem recycle_ops (a : Address) (nonce : Nat) :
    (m.recycle a nonce).Ops LocalNonceManager.NonceOp :=
  .bind (m.nonceManager.release_ops a nonce) fun _ => trivial

/-- What a send does besides taking its nonce and giving it back. -/
def PipelineOp : Op → Prop
  | .estimateGas _ | .gasEstimate | .evaluate _ _ | .signTransaction _ _ _ _ _ | .submit _ _ _
  | .nowUnix => True
  | .putHandle _ site => site.isSend
  | _ => False

variable {P : (α : Type) → Io α → Prop}

/-- What holds of everything a send does, and of taking a nonce of its signer and giving it back,
holds of the whole. -/
theorem sendWithMeta_of_parts (hP : Prog.Compositional P)
    (hops : ∀ {α : Type} {x : Io α}, x.Ops PipelineOp → P α x)
    (hallocate : P _ (m.nonceManager.allocate m.signer).run)
    (hrelease : ∀ n, P _ (m.nonceManager.release m.signer n).run) (intent : TxIntent)
    (opts : SubmissionOpts) (context : Option MetaContext) (origin : Origin) :
    P _ (m.sendWithMeta intent opts context origin).run := by
  unfold sendWithMeta
  split
  · exact hP.ret _
  split
  · exact hP.ret _
  rename_i hsigner
  have hsigner : m.signer = intent.account := not_not.mp hsigner
  have recycled : ∀ n (e : TransactionManagerError),
      P _ (do m.recycle intent.account n; throw e : SendM TxHandle).run := fun n e =>
    hP.tryBind (hP.bind (hP.bind (hsigner ▸ hrelease n) fun _ => hP.ret _) fun _ => hP.ret _)
      fun _ => hP.ret _
  have sent : ∀ wal, P _ (liftM (recordSent wal) : SendM TxHandle).run := fun wal =>
    hops (.bind (.bind ⟨trivial, fun _ => trivial⟩ fun _ => trivial) fun _ => trivial)
  refine hP.tryBind (hops (.bind ⟨trivial, fun _ => trivial⟩ fun _ => trivial)) fun gas => ?_
  split
  · exact hP.ret _
  · exact hP.ret _
  refine hP.tryBind (hops (Prog.ops_orThrow ⟨trivial, fun _ => trivial⟩)) fun fees =>
    hP.tryBind (hops (Prog.ops_orThrow ⟨trivial, fun _ => trivial⟩)) fun decision => ?_
  split
  · exact hP.ret _
  refine hP.tryBind (hP.bind (hsigner ▸ hallocate) fun _ => hP.ret _) fun nonce => ?_
  refine hP.tryBind (hops (.bind ⟨trivial, fun _ => trivial⟩ fun _ => trivial)) fun now =>
    hP.tryBind (hops (Prog.ops_outcome (.tryBind (Prog.ops_orThrow ⟨trivial, fun _ => trivial⟩)
      fun _ => trivial))) fun signed => ?_
  split
  · exact recycled _ _
  refine hP.tryBind (hops (.bind ⟨trivial, fun _ => trivial⟩ fun _ => trivial)) fun stored => ?_
  split
  · exact recycled _ _
  refine hP.tryBind (hops (.bind ⟨trivial, fun _ => trivial⟩ fun _ => trivial)) fun submitted => ?_
  split
  · exact sent _
  split
  · exact sent _
  · refine hP.tryBind (hops (.bind ⟨trivial, fun _ => trivial⟩ fun _ => trivial)) fun _ => ?_
    exact recycled _ _

theorem sendWithMeta_ops (intent : TxIntent) (opts : SubmissionOpts)
    (context : Option MetaContext) (origin : Origin) :
    (m.sendWithMeta intent opts context origin).run.Ops SendOp := by
  refine sendWithMeta_of_parts (Prog.ops_compositional SendOp) (fun hx => hx.mono fun o ho => ?_)
    ((m.nonceManager.allocate_ops _).mono fun _ => SendOp.of_nonceOp)
    (fun n => (m.nonceManager.release_ops _ n).mono fun _ => SendOp.of_nonceOp) _ _ _ _
  cases o with
  | putHandle => exact ho
  | estimateGas | gasEstimate | evaluate | signTransaction | submit | nowUnix => trivial
  | _ => cases ho

end Calls

section Cancel

variable {marked : TxHandle} {approval : PolicyApproval} {now : Nat} {P : List PortEvent → Prop}

/-- The calls between the mark and the end of a cancel. -/
def BroadcastOp : Op → Prop
  | .gasBump _ | .signTransaction _ _ _ _ _ | .submit _ _ (.cancel _) | .handle _ => True
  | _ => False

/-- A transaction is signed under this approval. -/
def SignsUnder (approval : PolicyApproval) : Op → Prop
  | .signTransaction _ _ _ a _ => a = approval
  | _ => True

/-- The calls of a cancel: no nonce state, no listing, and no record but its target's and its
own. -/
def CancelOp : Op → Prop
  | .evaluate _ _ | .nowUnix | .putHandle _ (.cancelMark _) | .putHandle _ (.cancelUndo _)
  | .putHandle _ (.cancelNew _) => True
  | o => BroadcastOp o

omit [Alloy] in
theorem BroadcastOp.cancelOp {o : Op} (ho : BroadcastOp o) : CancelOp o := by
  cases o with
  | gasBump | signTransaction | handle => trivial
  | submit rlp opts site =>
    cases site with
    | cancel => trivial
    | _ => cases ho
  | _ => cases ho

theorem feeBasis_ops (S : Op → Prop) (signed : Bytes) : (feeBasis signed).run.Ops S := by
  unfold feeBasis
  split <;> trivial

theorem cancelRound_ops (target : TxHandle) (intent : TxIntent) (approval : PolicyApproval)
    (now : Nat) {underpriced : SubmissionError → SendM SignedTx} (basis : Eip1559Estimation)
    (hunder : ∀ e, (underpriced e).run.Ops fun o => BroadcastOp o ∧ SignsUnder approval o) :
    (m.cancelRound target intent approval now underpriced basis).run.Ops fun o =>
      BroadcastOp o ∧ SignsUnder approval o := by
  refine .tryBind (Prog.ops_orThrow ⟨⟨trivial, trivial⟩, fun _ => trivial⟩) fun fees =>
    .tryBind (Prog.ops_orThrow (.tryBind (Prog.ops_orThrow ⟨⟨trivial, rfl⟩, fun _ => trivial⟩)
      fun _ => trivial)) fun signed =>
    .tryBind (.bind ⟨⟨trivial, trivial⟩, fun _ => trivial⟩ fun _ => trivial) fun submitted => ?_
  split
  · trivial
  split
  · trivial
  split
  · exact hunder _
  · trivial

theorem broadcastCancelWithRepricing_ops (target : TxHandle) (intent : TxIntent)
    (basis : Eip1559Estimation) (approval : PolicyApproval) (now : Nat) :
    (m.broadcastCancelWithRepricing target intent basis approval now).run.Ops fun o =>
      BroadcastOp o ∧ SignsUnder approval o := by
  refine cancelRound_ops _ _ _ _ _ fun e => ?_
  refine .tryBind (Prog.ops_orThrow ⟨⟨trivial, trivial⟩, fun _ => trivial⟩) fun fresh => ?_
  split
  · trivial
  · exact .tryBind (feeBasis_ops _ _) fun _ => cancelRound_ops _ _ _ _ _ fun _ => trivial

theorem cancelApproved_ops (target : TxHandle) (intent : TxIntent) (approval : PolicyApproval) :
    (m.cancelApproved target intent approval).run.Ops fun o =>
      CancelOp o ∧ SignsUnder approval o := by
  refine .tryBind (Prog.ops_orThrow ⟨⟨trivial, trivial⟩, fun _ => trivial⟩) fun _ =>
    .tryBind (.bind ⟨⟨trivial, trivial⟩, fun _ => trivial⟩ fun _ => trivial) fun now =>
    .tryBind (feeBasis_ops _ _) fun basis =>
    .tryBind (Prog.ops_outcome ((broadcastCancelWithRepricing_ops ..).mono fun _ ho =>
      ⟨ho.1.cancelOp, ho.2⟩)) fun result => ?_
  cases result with
  | error =>
    exact .tryBind (.bind ⟨⟨trivial, trivial⟩, fun _ => trivial⟩ fun _ => trivial) fun _ => trivial
  | ok => exact .tryBind (Prog.ops_orThrow ⟨⟨trivial, trivial⟩, fun _ => trivial⟩) fun _ => trivial

theorem cancel_ops (id : HandleId) : (m.cancel id).run.Ops CancelOp := by
  refine .tryBind (Prog.ops_orThrow ⟨trivial, fun _ => trivial⟩) fun found => ?_
  split
  · trivial
  split
  · trivial
  refine .tryBind (.tryBind (Prog.ops_orThrow ⟨trivial, fun _ => trivial⟩) fun decision => ?_)
    fun approval => (cancelApproved_ops ..).mono fun _ => And.left
  split <;> trivial

/-- What a cancel knows while it broadcasts, with a property `P` its caller keeps. -/
def Broadcasting (m : TransactionManager) (marked : TxHandle) (approval : PolicyApproval)
    (now : Nat) (P : List PortEvent → Prop) (past : List PortEvent) : Prop :=
  P past ∧ Cancelling past m marked approval ∧ ev .nowUnix now ∈ past

/-- A cancel that was broadcast was signed for it. -/
def Broadcasted (m : TransactionManager) (marked : TxHandle) (approval : PolicyApproval)
    (now : Nat) (P : List PortEvent → Prop) (r : Except TransactionManagerError SignedTx)
    (past : List PortEvent) : Prop :=
  Broadcasting m marked approval now P past ∧ ∀ signed, r = .ok signed →
    signed.hash = keccak256 signed.rlp ∧ CancelSigned past m marked approval now signed.rlp

omit [Alloy] in
theorem Broadcasting.snoc (hP : ∀ h e, BroadcastOp e.op → P h → P (h ++ [e]))
    (hb : Broadcasting m marked approval now P h) {e : PortEvent} (he : BroadcastOp e.op) :
    Broadcasting m marked approval now P (h ++ [e]) :=
  ⟨hP h e he hb.1, hb.2.1.append _, List.mem_append_left _ hb.2.2⟩

theorem Broadcasting.failed {e : TransactionManagerError}
    (hb : Broadcasting m marked approval now P h) :
    Broadcasted m marked approval now P (.error e) h := ⟨hb, by simp⟩

theorem cancelRound_history (hP : ∀ h e, BroadcastOp e.op → P h → P (h ++ [e]))
    {intent : TxIntent} (hi : intent = cancelIntent marked.intent.chainId marked.account)
    {underpriced : SubmissionError → SendM SignedTx} {basis : Eip1559Estimation}
    (hunder : ∀ h e, Broadcasting m marked approval now P h →
      (underpriced e).run.wp (.history (Owes (.manager m)))
        (Broadcasted m marked approval now P) h)
    (hb : Broadcasting m marked approval now P h) :
    (m.cancelRound marked intent approval now underpriced basis).run.wp
      (.history (Owes (.manager m))) (Broadcasted m marked approval now P) h := by
  unfold cancelRound signEncode
  simp only [Prog.wp_run_bind, Prog.wp_run_lift, Prog.wp_run_orThrow, Prog.wp_run_pure,
    GasOracle.wp_bump, Signer.wp_signTransaction, Submission.wp_submit, asks_history,
    Prog.forall_except, Except.mapError]
  refine ⟨trivial, fun e => (hb.snoc hP (by exact trivial)).failed, fun fees => ?_⟩
  have hb₁ := hb.snoc hP (e := ev (.gasBump basis) (.ok fees)) trivial
  generalize htx : buildTx intent marked.nonce cancelGasLimit fees = tx
  refine ⟨trivial, fun e => (hb₁.snoc hP (by exact trivial)).failed, fun sig => ?_⟩
  have hb₂ := hb₁.snoc hP
    (e := ev (.signTransaction m.signer tx intent.hash approval now) (.ok sig)) trivial
  have hsigned : ∀ t, CancelSigned (h ++ [ev (.gasBump basis) (.ok fees)] ++
      [ev (.signTransaction m.signer tx intent.hash approval now) (.ok sig)] ++ t) m marked
      approval now (SignedTx.of tx sig).rlp := by
    intro t
    subst hi htx
    exact ⟨fees, List.mem_append_left t hb₂.2.2, sig, by simp, rfl⟩
  have done : ∀ r, Broadcasted m marked approval now P (.ok (SignedTx.of tx sig)) _ := fun r =>
    ⟨hb₂.snoc hP (e := ev (.submit (SignedTx.of tx sig).rlp marked.submission (.cancel marked)) r)
      trivial, by rintro _ ⟨⟩; exact ⟨rfl, hsigned _⟩⟩
  refine ⟨⟨m, approval, now, rfl, rfl, hb₂.2.1, by simpa using hsigned []⟩, fun e => ?_,
    fun x => done (.ok x)⟩
  split
  · exact done (.error e)
  · split
    · exact hunder _ e (hb₂.snoc hP trivial)
    · exact (hb₂.snoc hP (by exact trivial)).failed

theorem broadcastCancelWithRepricing_history
    (hP : ∀ h e, BroadcastOp e.op → P h → P (h ++ [e])) (hrest : ∀ h, P h → Rested h)
    {intent : TxIntent} (hi : intent = cancelIntent marked.intent.chainId marked.account)
    {basis : Eip1559Estimation}
    (hb : Broadcasting m marked approval now P h) :
    (m.broadcastCancelWithRepricing marked intent basis approval now).run.wp
      (.history (Owes (.manager m))) (Broadcasted m marked approval now P) h := by
  refine cancelRound_history hP hi (fun h e hb => ?_) hb
  unfold broadcastCancelWithRepricing.again feeBasis
  simp only [Prog.wp_run_bind, Prog.wp_run_orThrow, StateStore.wp_handle, asks_history,
    Prog.forall_except, Except.mapError]
  refine ⟨hrest h hb.1, fun e => (hb.snoc hP (by exact trivial)).failed, fun found => ?_⟩
  have hb₁ := hb.snoc hP (e := ev (.handle marked.id) (.ok found)) trivial
  cases found with
  | none => exact hb₁.failed
  | some fresh =>
    simp only [Prog.wp_run_bind]
    cases decodeFees fresh.signed with
    | none => exact hb₁.failed
    | some fees => exact cancelRound_history hP hi (fun h e hb => hb.failed) hb₁

/-- The target has not been unmarked again. -/
def NoUndo (past : List PortEvent) : Prop :=
  ∀ x ∈ past, ∀ g g', x.op ≠ .putHandle g (.cancelUndo g')

/-- A cancel never touches a nonce state, and one that succeeds has left its target marked. -/
def CancelEnds (id : HandleId) (r : Except TransactionManagerError TxHandle)
    (past : List PortEvent) : Prop :=
  phase past = .idle ∧ ∀ c, r = .ok c → NoUndo past ∧
    ∃ target, ev (.handle id) (.ok (some target)) ∈ past ∧
      Stored past { target with cancelled := true } (.cancelMark target)

omit [Alloy] in
theorem CancelEnds.failed {id : HandleId} {e : TransactionManagerError}
    (hold : phase h = .idle) : CancelEnds id (.error e) h := ⟨hold, by simp⟩

omit [Alloy] in
theorem NoUndo.snoc {e : PortEvent} (hh : NoUndo h)
    (he : ∀ g g', e.op ≠ .putHandle g (.cancelUndo g')) : NoUndo (h ++ [e]) := by
  intro x hx
  rcases List.mem_append.mp hx with hx | hx
  · exact hh x hx
  · rw [List.mem_singleton.mp hx]
    exact he

theorem cancelApproved_history {id : HandleId} {target : TxHandle} (hold : phase h = .idle)
    (hundo : NoUndo h) (hlive : target.status.isTerminal = false)
    (hread : ev (.handle id) (.ok (some target)) ∈ h)
    (hallow : Allowed h m.policy (.cancel (cancelIntent target.intent.chainId target.account))
      approval) :
    (m.cancelApproved target (cancelIntent target.intent.chainId target.account) approval).run.wp
      (.history (Owes (.manager m))) (CancelEnds id) h := by
  unfold cancelApproved
  simp only [Prog.wp_run_bind, Prog.wp_run_lift, Prog.wp_run_orThrow, Prog.wp_run_outcome,
    StateStore.wp_putHandle, Clock.wp_nowUnix, asks_history, Prog.forall_except, Except.mapError]
  generalize hmarked : ({ target with cancelled := true } : TxHandle) = marked
  refine ⟨⟨id, hmarked.symm, hlive, hread⟩, fun e => .failed (phase_snoc hold rfl),
    fun _ => ⟨trivial, fun now => ?_⟩⟩
  have hold₂ := phase_snoc (phase_snoc hold
    (e := ev (.putHandle marked (.cancelMark target)) (.ok ())) rfl) (e := ev .nowUnix now) rfl
  unfold feeBasis
  cases decodeFees target.signed with
  | none => exact CancelEnds.failed hold₂
  | some fees =>
    simp only [Prog.wp_run_pure]
    -- while it broadcasts, the cancel does nothing to nonces or to the mark
    let P := fun past => phase past = .idle ∧ NoUndo past ∧
      ev (.handle id) (.ok (some target)) ∈ past ∧ Stored past marked (.cancelMark target)
    have hP : ∀ h e, BroadcastOp e.op → P h → P (h ++ [e]) := by
      rintro h ⟨o, r⟩ he ⟨hh, hu, hr, hs⟩
      refine ⟨?_, ?_, List.mem_append_left _ hr, List.mem_append_left _ hs⟩
      · cases o with
        | submit rlp opts site => cases site <;> first | exact phase_snoc hh rfl | cases he
        | gasBump | signTransaction | handle => exact phase_snoc hh rfl
        | _ => cases he
      · refine hu.snoc ?_
        rintro g g' rfl
        cases he
    have hstart : Broadcasting m marked approval now P (h ++ [ev (.putHandle marked
        (.cancelMark target)) (.ok ())] ++ [ev .nowUnix now]) :=
      ⟨⟨hold₂, (hundo.snoc (by simp [ev])).snoc (by simp [ev]), by simp [hread], by simp [Stored]⟩,
        ⟨target, hmarked.symm, hlive, ⟨id, by simp [hread]⟩,
          by simp [Allowed, show _ ∈ h from hallow], by simp [Stored]⟩, by simp⟩
    have hi : cancelIntent target.intent.chainId target.account =
        cancelIntent marked.intent.chainId marked.account := by rw [← hmarked]
    refine Prog.wp_mono (broadcastCancelWithRepricing_history hP
      (fun h hh => (done_of_idle hh.1).2) hi hstart) ?_
    rintro (e | signed) h' ⟨⟨⟨hh, hu, hr, hs⟩, hc, -⟩, hsigned⟩
    · simp only [recordCancel, Prog.wp_run_bind, Prog.wp_run_lift, Prog.wp_run_throw,
        StateStore.wp_putHandle, asks_history]
      exact ⟨⟨m, approval, rfl, rfl, hc⟩, fun _ => .failed (phase_snoc hh rfl)⟩
    · obtain ⟨hhash, hsig⟩ := hsigned signed rfl
      simp only [recordCancel, Prog.wp_run_bind, Prog.wp_run_orThrow, Prog.wp_run_pure,
        StateStore.wp_putHandle, asks_history, Prog.forall_except, Except.mapError]
      refine ⟨⟨m, approval, now, signed, rfl, by rw [hi], hhash, hc, hsig⟩,
        fun e => .failed (phase_snoc hh rfl), fun _ => ⟨phase_snoc hh rfl, fun _ _ => ?_⟩⟩
      exact ⟨hu.snoc (by simp [ev]), target, List.mem_append_left _ hr,
        List.mem_append_left _ (hmarked ▸ hs)⟩

theorem cancel_history {id : HandleId} (hold : phase h = .idle) (hundo : NoUndo h) :
    (m.cancel id).run.wp (.history (Owes (.manager m))) (CancelEnds id) h := by
  unfold cancel authorize
  simp only [Prog.wp_run_bind, Prog.wp_run_orThrow, StateStore.wp_handle, asks_history,
    Prog.forall_except, Except.mapError]
  refine ⟨(done_of_idle hold).2, fun e => .failed (phase_snoc hold rfl), fun found => ?_⟩
  have hold₁ := phase_snoc hold (e := ev (.handle id) (.ok found)) rfl
  cases found with
  | none => exact .failed hold₁
  | some target =>
    dsimp only
    split
    · exact .failed hold₁
    rename_i hlive
    simp only [Prog.wp_run_bind, Prog.wp_run_orThrow, PolicyEngine.wp_evaluate, asks_history,
      Prog.forall_except, Except.mapError]
    refine ⟨trivial, fun e => .failed (phase_snoc hold₁ rfl), fun decision => ?_⟩
    have hold₂ := phase_snoc hold₁ (e := ev (.evaluate m.policy
      (.cancel (cancelIntent target.intent.chainId target.account))) (.ok decision)) rfl
    cases decision with
    | deny rejection => exact .failed hold₂
    | allow approval =>
      exact cancelApproved_history hold₂ ((hundo.snoc (by simp [ev])).snoc (by simp [ev]))
        (by simpa using hlive) (by simp) (by simp [Allowed])

end Cancel

end TransactionManager

end WalletKit
