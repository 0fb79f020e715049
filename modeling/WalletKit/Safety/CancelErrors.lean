import WalletKit.Provenance.Settlement
import WalletKit.Runtime.Alone
import WalletKit.Runtime.Toy

/-!
# A cancel that fails

A cancel marks its target before it has anything to broadcast, and takes the mark off again when
the broadcast fails. Between the two stands a check that returns without taking it off: the
target's own bytes may not decode. And the mark is not put back to what it was but set to false,
so a target that was marked before the call loses its mark. Which failures leave a trace thus
depends on the target alone.
-/
namespace WalletKit

open Machine Signing World TransactionManager

section Marks

variable [Alloy] {m : TransactionManager} {id : HandleId} {target : TxHandle} {w v : World}

/-- If the call fails, no stored handle differs from what it was. -/
def UnchangedOnError (w : World) (r : Except TransactionManagerError TxHandle) (w' : World) :
    Prop :=
  ∀ e, r = .error e → ∀ i, w'.store.handle i = w.store.handle i

omit [Alloy] in
theorem unchangedOnError_error {e : TransactionManagerError} {w' : World} :
    UnchangedOnError w (.error e) w' ↔ ∀ i, w'.store.handle i = w.store.handle i :=
  ⟨fun h => h e rfl, fun h _ _ => h⟩

omit [Alloy] in
theorem unchangedOnError_ok {c : TxHandle} {w' : World} : UnchangedOnError w (.ok c) w' := by
  rintro e ⟨⟩

omit [Alloy] in
theorem Aside.storeAfter {e : PortEvent} (h : Aside e.op) (s : Store) :
    World.storeAfter s e = s := by
  obtain ⟨o, r⟩ := e
  cases o with
  | putHandle | casNonceState => cases h
  | _ => rfl

omit [Alloy] in
/-- What writes nothing leaves the store alone. -/
theorem aside_alone {α : Type} {x : Io α} (hx : x.Ops Aside) {s : Store} (hw : w.store = s) :
    x.wp alone (fun _ v => v.store = s) w := by
  refine Prog.wp_of_ops (P := fun v : World => v.store = s) hx (fun _ _ _ _ => trivial)
    (fun _ _ => trivial) ?_ hw
  rintro o v r _ ho hv ⟨-, -, rfl⟩
  exact (Aside.storeAfter (e := ⟨o, r⟩) ho v.store).trans hv

omit [Alloy] in
/-- The flag of a stored handle is all that a mark or its undo changes. -/
theorem put_flag_unchanged_iff {s : Store} (hstored : s.handle target.id = some target) (c : Bool) :
    (∀ i, (s.putHandle { target with cancelled := c }).handle i = s.handle i) ↔
      target.cancelled = c := by
  constructor
  · intro h
    have hself := h target.id
    rw [Store.handle_putHandle, if_pos rfl, hstored] at hself
    injection hself with heq
    rw [← heq]
  · rintro rfl i
    rw [Store.handle_putHandle]
    split
    · rename_i hi
      rw [hi, hstored]
    · rfl

omit [Alloy] in
theorem handle_put_put {s : Store} {g h : TxHandle} (hid : g.id = h.id) (i : HandleId) :
    ((s.putHandle g).putHandle h).handle i = (s.putHandle h).handle i := by
  simp only [Store.handle_putHandle, hid]
  split <;> rfl

/-- The oracle alone can make a cancel's broadcast fail. -/
theorem broadcastCancel_may_fail {Q : Except TransactionManagerError SignedTx → World → Prop}
    {intent : TxIntent} {basis : Eip1559Estimation} {approval : PolicyApproval} {now : Nat}
    (h : (m.broadcastCancelWithRepricing target intent basis approval now).run.wp alone Q w) :
    Q (.error (.gas (.ceilingExceeded 0 0)))
      (w.apply (ev (.gasBump basis) (.error (.ceilingExceeded 0 0)))) := by
  unfold broadcastCancelWithRepricing cancelRound at h
  simp only [Prog.wp_run_bind, Prog.wp_run_orThrow, GasOracle.wp_bump, asks_alone] at h
  exact h (.error (.ceilingExceeded 0 0)) rfl rfl

/-- From its approval on: bytes that do not decode leave the mark, a failed broadcast takes it
off. -/
theorem cancelApproved_unchanged_iff (hstored : w.store.handle target.id = some target)
    (hv : v.store = w.store) (intent : TxIntent) (approval : PolicyApproval) :
    (m.cancelApproved target intent approval).run.wp alone (UnchangedOnError w) v ↔
      (target.cancelled ↔ decodeFees target.signed = none) := by
  unfold cancelApproved feeBasis
  simp only [Prog.wp_run_bind, Prog.wp_run_lift, Prog.wp_run_orThrow, StateStore.wp_putHandle,
    Clock.wp_nowUnix, asks_alone_putHandle, Except.mapError]
  have hmarked (now : Nat) : ((v.apply (ev (.putHandle { target with cancelled := true }
      (.cancelMark target)) (.ok ()))).apply (ev .nowUnix now)).store =
      w.store.putHandle { target with cancelled := true } := by
    rw [← hv]
    rfl
  cases hd : decodeFees target.signed with
  | none =>
    simp only [Prog.wp_run_throw, asks_alone, unchangedOnError_error, iff_true]
    rw [← put_flag_unchanged_iff hstored]
    refine ⟨fun h => ?_, fun h now _ _ => ?_⟩
    · simpa only [hmarked] using h 0 rfl rfl
    · simpa only [hmarked] using h
  | some fees =>
    simp only [Prog.wp_run_pure, Prog.wp_run_outcome, asks_alone, reduceCtorEq, iff_false,
      Bool.not_eq_true]
    rw [← put_flag_unchanged_iff hstored]
    -- the undo writes over the mark, whatever was asked in between
    have hundo {now : Nat} {u : World} {e : TransactionManagerError}
        (hu : u.store = w.store.putHandle { target with cancelled := true }) :
        (recordCancel { target with cancelled := true } intent approval now (.error e)).run.wp
          alone (UnchangedOnError w) u ↔
        ∀ i, (w.store.putHandle { target with cancelled := false }).handle i =
          w.store.handle i := by
      simp only [recordCancel, Prog.wp_run_bind, Prog.wp_run_lift, StateStore.wp_putHandle,
        asks_alone_putHandle, Prog.wp_run_throw, unchangedOnError_error]
      refine forall_congr' fun i => ?_
      have hover := handle_put_put (s := w.store) (g := { target with cancelled := true })
        (h := { target with cancelled := false }) rfl i
      rw [← hover, ← hu]
      rfl
    refine ⟨fun h => ?_, fun h now _ _ => ?_⟩
    · have hfailed := broadcastCancel_may_fail (h 0 rfl rfl)
      refine (hundo ?_).mp hfailed
      exact hmarked 0
    · refine Prog.wp_mono (aside_alone (broadcastCancelWithRepricing_aside ..) (hmarked now)) ?_
      rintro (e | signed) u hu
      · exact (hundo hu).mpr h
      · simp only [recordCancel, Prog.wp_run_bind, Prog.wp_run_orThrow, StateStore.wp_putHandle,
          asks_alone_putHandle, Except.mapError, Prog.wp_run_pure]
        exact unchangedOnError_ok

/-- **A cancel that fails leaves the store as it was exactly when the target's mark and its bytes
agree**: for a call that runs alone on a working store, whatever the policy, the oracle, the
signer and the node answer, every failure of `cancel` leaves every stored handle as it was iff a
target that is not yet settled is marked exactly when its bytes do not decode. -/
theorem failed_cancel_unchanged_iff :
    (m.cancel id).run.wp alone (UnchangedOnError w) w ↔
      ∀ target, w.store.handle id = some target → target.status.isTerminal = false →
        (target.cancelled ↔ decodeFees target.signed = none) := by
  unfold cancel authorize
  simp only [Prog.wp_run_bind, Prog.wp_run_orThrow, StateStore.wp_handle, asks_alone_handle,
    Except.mapError]
  cases hfound : w.store.handle id with
  | none =>
    simp only [Prog.wp_run_throw, unchangedOnError_error, reduceCtorEq, false_implies,
      implies_true, iff_true]
    exact fun _ => rfl
  | some target =>
    obtain rfl : target.id = id := Table.key_of_get hfound
    simp only [Option.some.injEq, forall_eq']
    cases hterm : target.status.isTerminal with
    | true =>
      simp only [if_true, Prog.wp_run_throw, unchangedOnError_error, Bool.true_eq_false,
        false_implies, iff_true]
      exact fun _ => rfl
    | false =>
      simp only [Bool.false_eq_true, if_false, Prog.wp_run_bind, Prog.wp_run_orThrow,
        PolicyEngine.wp_evaluate, asks_alone, forall_const]
      constructor
      · intro h
        have happroved := h (.ok (.allow ⟨0, .default, 0⟩)) rfl rfl
        exact (cancelApproved_unchanged_iff (v := World.apply _ _) hfound rfl _ _).mp happroved
      · rintro h (e | decision) _ _
        · exact unchangedOnError_error.mpr fun _ => rfl
        cases decision with
        | deny rejection => exact unchangedOnError_error.mpr fun _ => rfl
        | allow approval =>
          simp only [Except.mapError, Prog.wp_run_pure]
          refine (cancelApproved_unchanged_iff hfound ?_ _ _).mpr h
          rfl

end Marks

section Traces

attribute [local instance] Toy.strictAlloy

/-- A handle that a relay holds: it has no bytes of its own. -/
def relayedTarget : TxHandle :=
  taskHandle Toy.intent 0 100 ⟨3, Toy.account, 0, some "task"⟩

/-- A handle that has been cancelled before. -/
def markedTarget : TxHandle :=
  { walHandle Toy.intent 4 ⟨0, .default, 1000⟩ 100 ⟨[1], 5⟩ .default none with
    status := .sent, cancelled := true }

/-- A store with one handle. -/
def storing (h : TxHandle) : World := { World.initial with store := Store.empty.putHandle h }

/-- The policy allows the cancel, and the oracle has no price for it. -/
def noBid : World → (o : Op) → Option o.Reply := World.serve fun
  | .gasBump _ => some (.error (.ceilingExceeded 1 2))
  | o => Toy.calm o

/-- One run that fails and leaves another handle behind. -/
theorem not_unchanged_of_finish {x : Io (Except TransactionManagerError TxHandle)} {w : World}
    (answers : World → (o : Op) → Option o.Reply) (id : HandleId)
    (hrun : (finish answers x w).any fun (r, w') =>
      !r.isOk && decide (w'.store.handle id ≠ w.store.handle id)) :
    ¬x.wp alone (UnchangedOnError w) w := by
  intro h
  obtain ⟨⟨r, w'⟩, hend, hdiff⟩ := (Option.any_eq_true _ _).mp hrun
  cases r with
  | ok c => cases hdiff
  | error e =>
    have hkept := finish_sound h hend e rfl id
    simp [hkept] at hdiff

theorem failed_cancel_leaves_trace :
    (¬(Toy.manager.cancel relayedTarget.id).run.wp alone
      (UnchangedOnError (storing relayedTarget)) (storing relayedTarget)) ∧
    ¬(Toy.manager.cancel markedTarget.id).run.wp alone
      (UnchangedOnError (storing markedTarget)) (storing markedTarget) :=
  ⟨not_unchanged_of_finish noBid relayedTarget.id (by decide +kernel),
    not_unchanged_of_finish noBid markedTarget.id (by decide +kernel)⟩

end Traces

end WalletKit
