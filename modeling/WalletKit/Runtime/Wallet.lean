import WalletKit.Core.Facade
import WalletKit.Runtime.Registry

/-!
# Calls into a wallet

The entry points of one wallet are a client: sends on the account itself, gasless sends
through a relayer account or a managed relay, cancels, ticks of the one or two executors,
and reads of a handle. Any number of them may be under way at once.
-/
namespace WalletKit

open Machine

inductive WalletCall where
  | send (intent : TxIntent)
  | sendWith (intent : TxIntent) (opts : SubmissionOpts)
  | sendGasless (intent : TxIntent) (opts : GaslessOpts)
  | cancel (id : HandleId)
  | tick
  | handle (id : HandleId)
  | status (id : HandleId)

inductive WalletResult where
  | sent (r : Except WalletKitError TxHandle)
  | ticked (r : Except WalletKitError Unit)
  | handle (r : Except WalletKitError (Option TxHandle))
  | status (r : Except WalletKitError (Option TxStatus))

variable [Alloy]

/-- A read, a policy evaluation or a signature over typed data, as a gasless send makes them
before it is a send or records a task. -/
def Preliminary : Op → Prop
  | .call _ | .estimateGas _ | .nowUnix | .evaluate _ _ | .signTypedData _ _ _ _
  | .gelatoSubmit _ _ => True
  | _ => False

section Preliminaries

variable {α : Type} {x : Io α} {h : List PortEvent}

/-- Preliminaries owe nothing, and are no step of a send. -/
theorem preliminary_history {role : Role} (hx : x.Ops Preliminary) (hdone : Done h) :
    x.wp (.history (Owes role)) (fun _ => Done) h := by
  refine Prog.wp_of_ops (P := Done) hx (fun o _ ho _ => ?_) (fun _ _ => trivial)
    (fun o v r v' ho hv hstep => ?_) hdone
  · cases o <;> trivial
  · rw [hstep]
    refine hv.snoc fun s => ?_
    cases o <;> first | rfl | cases ho

omit [Alloy] in
theorem Preliminary.plain {o : Op} (ho : Preliminary o) : Plain o := by
  cases o <;> trivial

omit [Alloy] in
theorem TransactionManager.signTypedData_ops (m : TransactionManager) (td : TypedData) :
    (m.signTypedData td).run.Ops Preliminary := by
  refine .tryBind (.tryBind (Prog.ops_orThrow ⟨trivial, fun _ => trivial⟩) fun decision => ?_)
    fun _ => .tryBind (.bind ⟨trivial, fun _ => trivial⟩ fun _ => trivial) fun _ =>
      Prog.ops_orThrow ⟨trivial, fun _ => trivial⟩
  split <;> trivial

theorem TransactionManager.forwarderNonce_ops (forwarder owner : Address) :
    (forwarderNonce forwarder owner).run.Ops Preliminary := by
  refine .tryBind (Prog.ops_orThrow ⟨trivial, fun _ => trivial⟩) fun returned => ?_
  split
  · split <;> trivial
  · trivial

theorem TransactionManager.buildAndSignForwardRequest_ops (m : TransactionManager)
    (intent : TxIntent) (forwarder : Address) (deadline : Nat) :
    (m.buildAndSignForwardRequest intent forwarder deadline).run.Ops Preliminary := by
  unfold buildAndSignForwardRequest
  split
  · trivial
  refine .tryBind (Prog.ops_orThrow (forwarderNonce_ops _ _)) fun _ =>
    .tryBind (.bind ⟨trivial, fun _ => trivial⟩ fun _ => trivial) fun estimated => ?_
  split
  · trivial
  · trivial
  · exact .tryBind (.bind ⟨trivial, fun _ => trivial⟩ fun _ => trivial) fun _ =>
      .tryBind (Prog.ops_orThrow (m.signTypedData_ops _)) fun _ => trivial

theorem GelatoRelay.buildCall_ops (relay : GelatoRelay) (intent : TxIntent) (deadline : Nat) :
    (relay.buildCall intent deadline).run.Ops Preliminary := by
  unfold buildCall
  split
  · trivial
  split
  · trivial
  dsimp only
  split
  · refine .tryBind ?_ fun _ => trivial
    refine .bind (.tryBind (Prog.ops_orThrow ⟨trivial, fun _ => trivial⟩) fun returned => ?_)
      fun r => by cases r <;> trivial
    split
    · split <;> trivial
    · trivial
  · trivial

end Preliminaries

namespace WalletCall

variable (w : Wallet)

def body : WalletCall → Io WalletResult
  | .send intent => .sent <$> (w.send intent).run
  | .sendWith intent opts => .sent <$> (w.sendWith intent opts).run
  | .sendGasless intent opts => .sent <$> (w.sendGasless intent opts).run
  | .cancel id => .sent <$> (w.cancel id).run
  | .tick => .ticked <$> w.tick.run
  | .handle id => .handle <$> (Wallet.handle id).run
  | .status id => .status <$> (Wallet.status id).run

/-- The relayer account's pipeline and executor play with a wallet that has them. -/
def Plays : WalletCall → Role → Prop
  | .sendGasless _ _, role => (∃ relay, w.gasless = some (.gelato relay)) ∧ role = .relayed ∨
      ∃ runtime, w.gasless = some (.selfRelay runtime) ∧ role = .manager runtime.manager
  | .tick, role => role = .executor w.executor ∨
      ∃ runtime, w.gasless = some (.selfRelay runtime) ∧ role = .executor runtime.executor
  | _, role => role = .manager w.manager

/-- What is known of the history of a call that has returned. -/
def Ends (c : WalletCall) (r : WalletResult) (past : List PortEvent) : Prop :=
  Done past ∧ ∀ id h, c = .cancel id → r = .sent (.ok h) →
    TransactionManager.CancelEnds id (.ok h) past

variable {w} {h : List PortEvent}

omit [Alloy] in
theorem Ends.of_done {c : WalletCall} {r : WalletResult} (hc : ∀ id, c ≠ .cancel id)
    (hd : Done h) : c.Ends r h := ⟨hd, fun id _ he => absurd he (hc id)⟩

theorem sendGasless_history (intent : TxIntent) (opts : GaslessOpts) (hdone : Done h) :
    (w.sendGasless intent opts).run.wp
      (.history fun past o => ∃ role, (sendGasless intent opts).Plays w role ∧ Owes role past o)
      (fun _ => Done) h := by
  unfold Wallet.sendGasless
  split
  · rename_i submission runtime hroute hgasless
    -- whatever the user signs comes before the relayer's own send
    refine Prog.wp_history_imp ?_ fun past o (ho : Owes (.manager runtime.manager) past o) =>
      ⟨_, .inr ⟨runtime, hgasless, rfl⟩, ho⟩
    refine Prog.wp_run_bind.mpr (Prog.wp_mono (preliminary_history
      (w.manager.buildAndSignForwardRequest_ops intent _ _) hdone) ?_)
    rintro (e | signed) past hd
    · exact hd
    · exact Prog.wp_run_orThrow.mpr (TransactionManager.sendWithMeta_history rfl hd)
  · rename_i relay hroute hgasless
    refine Prog.wp_history_imp ?_ fun past o (ho : Owes .relayed past o) =>
      ⟨_, .inl ⟨⟨relay, hgasless⟩, rfl⟩, ho⟩
    unfold Wallet.sendGelato
    simp only [Prog.wp_run_bind, Prog.wp_run_lift, Prog.wp_run_orThrow, Clock.wp_nowUnix,
      asks_history]
    refine ⟨trivial, fun now => Prog.wp_mono (preliminary_history (GelatoRelay.buildCall_ops ..)
      (hdone.snoc fun _ => rfl)) ?_⟩
    rintro (e | call) past hd
    · exact hd
    refine Prog.wp_mono (preliminary_history (w.manager.signTypedData_ops _) hd) ?_
    rintro (e | signature) past hd
    · exact hd
    simp only [Except.mapError, Relay.wp_gelatoSubmit, asks_history, Prog.forall_except]
    refine ⟨trivial, fun e => hd.snoc fun _ => rfl, fun task => ?_⟩
    unfold TransactionManager.persistTaskHandle
    simp only [Prog.wp_run_bind, Prog.wp_run_lift, Prog.wp_run_orThrow, Clock.wp_nowUnix,
      StateStore.wp_putHandle, asks_history]
    refine ⟨trivial, fun now => ⟨⟨rfl, _, _, _, _, rfl⟩, fun r => ?_⟩⟩
    have hd₂ : Done (past ++ [ev (.gelatoSubmit call signature) (.ok task)] ++ [ev .nowUnix now]) :=
      (hd.snoc fun _ => rfl).snoc fun _ => rfl
    cases r <;> exact hd₂.snoc fun _ => rfl
  · exact hdone

theorem tick_history (hdone : Done h) : w.tick.run.wp
    (.history fun past o => ∃ role, tick.Plays w role ∧ Owes role past o) (fun _ => Done) h := by
  unfold Wallet.tick
  simp only [Prog.wp_run_bind, Prog.wp_run_orThrow]
  refine Prog.wp_mono (Prog.wp_history_imp (AccountExecutor.tick_history hdone)
    fun _ _ ho => ⟨_, .inl rfl, ho⟩) ?_
  rintro (e | _) past hd
  · exact hd
  dsimp only [Except.mapError]
  split
  · rename_i runtime hgasless
    exact Prog.wp_run_orThrow.mpr (Prog.wp_history_imp (AccountExecutor.tick_history hd)
      fun _ _ ho => ⟨_, .inr ⟨runtime, hgasless, rfl⟩, ho⟩)
  · exact hd

/-- Every call owes its history to what it writes, swaps and broadcasts. -/
theorem body_history (c : WalletCall) : (c.body w).wp
    (.history fun past o => ∃ role, c.Plays w role ∧ Owes role past o) c.Ends [] := by
  have start : Done [] := done_of_idle rfl
  have own : ∀ {past o c}, (∀ role, Plays w c role ↔ role = .manager w.manager) →
      Owes (.manager w.manager) past o → ∃ role, Plays w c role ∧ Owes role past o :=
    fun hc ho => ⟨_, (hc _).mpr rfl, ho⟩
  cases c with
  | send intent | sendWith intent opts =>
    refine Prog.wp_history_imp (Prog.wp_map.mpr (Prog.wp_run_orThrow.mpr (Prog.wp_mono
      (TransactionManager.sendWithMeta_history rfl start) fun r past hd => .of_done (by simp) hd)))
      fun _ _ => own fun _ => Iff.rfl
  | sendGasless intent opts =>
    exact Prog.wp_map.mpr (Prog.wp_mono (sendGasless_history intent opts start) fun r past hd =>
      .of_done (by simp) hd)
  | cancel id =>
    refine Prog.wp_history_imp (Prog.wp_map.mpr (Prog.wp_run_orThrow.mpr (Prog.wp_mono
      (TransactionManager.cancel_history rfl (by simp [TransactionManager.NoUndo]))
      fun r past hr => ⟨done_of_idle hr.1, ?_⟩))) fun _ _ => own fun _ => Iff.rfl
    rintro _ h ⟨rfl⟩ hok
    cases r with
    | error e => cases hok
    | ok h' => cases hok; exact hr
  | tick =>
    exact Prog.wp_map.mpr (Prog.wp_mono (tick_history start) fun r past hd =>
      .of_done (by simp) hd)
  | handle id | status id =>
    refine Prog.wp_history_imp ?_ fun past o (ho : Owes (.manager w.manager) past o) =>
      own (fun _ => Iff.rfl) ho
    simp only [body, Wallet.status, Wallet.handle, Prog.wp_map, Prog.wp_run_bind,
      Prog.wp_run_orThrow, StateStore.wp_handle, asks_history]
    refine ⟨.inl rfl, fun r => ?_⟩
    cases r <;> exact .of_done (by simp) (start.snoc fun _ => rfl)

/-- No send of a wallet carries the context of a task. -/
def errand : WalletCall → Errand
  | .cancel id => ⟨some id, fun _ => False⟩
  | _ => ⟨none, fun context => context.bind (·.task) = none⟩

theorem body_settles (c : WalletCall) :
    (c.body w).wp (.history (SettleOwes c.errand)) (fun _ _ => True) [] := by
  cases c with
  | send intent | sendWith intent opts =>
    exact Prog.wp_map.mpr (Prog.wp_run_orThrow.mpr (TransactionManager.sendDirect_settles rfl))
  | sendGasless intent opts =>
    refine Prog.wp_map.mpr ?_
    unfold Wallet.sendGasless
    split
    · refine Prog.wp_run_bind.mpr (Prog.wp_mono (plain_history
        ((w.manager.buildAndSignForwardRequest_ops intent _ _).mono fun _ =>
          Preliminary.plain)) ?_)
      rintro (e | signed) past -
      · trivial
      · exact Prog.wp_run_orThrow.mpr (TransactionManager.sendDirect_settles rfl)
    · refine plain_history ?_
      refine .tryBind (.bind ⟨trivial, fun _ => trivial⟩ fun _ => trivial) fun _ =>
        .tryBind (Prog.ops_orThrow ((GelatoRelay.buildCall_ops ..).mono fun _ =>
          Preliminary.plain)) fun _ =>
        .tryBind (Prog.ops_orThrow ((w.manager.signTypedData_ops _).mono fun _ =>
          Preliminary.plain)) fun _ =>
        .tryBind (Prog.ops_orThrow ⟨trivial, fun _ => trivial⟩) fun _ =>
        Prog.ops_orThrow (.tryBind (.bind ⟨trivial, fun _ => trivial⟩ fun _ => trivial) fun _ =>
          .tryBind (Prog.ops_orThrow ⟨trivial, fun _ => trivial⟩) fun _ => trivial)
    · trivial
  | cancel id =>
    exact Prog.wp_map.mpr (Prog.wp_run_orThrow.mpr (TransactionManager.cancel_settles rfl))
  | tick =>
    refine Prog.wp_map.mpr ?_
    unfold Wallet.tick
    refine Prog.wp_run_bind.mpr (Prog.wp_run_orThrow.mpr (Prog.wp_mono
      AccountExecutor.tick_settles ?_))
    rintro (e | _) past -
    · trivial
    dsimp only [Except.mapError]
    split
    · exact Prog.wp_run_orThrow.mpr AccountExecutor.tick_settles
    · trivial
  | handle id =>
    exact plain_history (.bind (Prog.ops_orThrow ⟨trivial, fun _ => trivial⟩) fun _ => trivial)
  | status id =>
    exact plain_history (.bind (.tryBind (Prog.ops_orThrow ⟨trivial, fun _ => trivial⟩)
      fun _ => trivial) fun _ => trivial)

end WalletCall

/-- The calls of one wallet. -/
def Wallet.client (w : Wallet) : Client WalletCall WalletResult where
  body := WalletCall.body w
  Plays := WalletCall.Plays w
  Ends := WalletCall.Ends
  history := WalletCall.body_history

theorem Wallet.client_settles (w : Wallet) : w.client.Settles WalletCall.errand :=
  WalletCall.body_settles

abbrev WalletThread := Thread ports WalletCall WalletResult
abbrev WalletPool := Pool ports World WalletCall WalletResult

/-- The calls of a wallet in any interleaving, over ports that may answer anything the store
can answer. -/
abbrev Wallet.calls (w : Wallet) : System ports World WalletCall WalletResult :=
  w.client.system fun _ _ _ => True

end WalletKit
