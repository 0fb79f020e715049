import WalletKit.Machine.Alike
import WalletKit.Runtime.Calls

/-!
# Calls that find other versions of a nonce state

A call looks at the version of a nonce state to see whether there is one, and hands it back with its
swap. So over two stores whose nonce states differ in their versions, calls run alike. A reset
forgets what lies below the chain's next nonce; it runs alike from different states too, when it
makes the same of them.
-/
namespace WalletKit

open Machine

/-- The chain's next nonce, if this is the swap of a reset. -/
def resetOf : Option Op → Option Nat
  | some (.casNonceState _ _ _ _ (.reset c)) => some c
  | _ => none

/-- What two loaded states have to agree in: before a reset in what it makes of them, else in all
but their versions, and in whether they are absent. -/
def Versioned.Agree (v v' : Versioned NonceState) : Option Nat → Prop
  | some c => v.value.reset c = v'.value.reset c
  | none => v.value = v'.value ∧ (v.version = 0 ↔ v'.version = 0)

/-- Nothing is done with a version. -/
def Versionless : Op → Prop
  | .loadNonceState _ | .casNonceState _ _ _ _ _ => False
  | _ => True

/-- Operations that differ at most in the version they expect. Versions of a scope that go together
are kept as pairs. -/
inductive Stands (known : Set (NonceScope × Nat × Nat)) : Op → Op → Prop where
  | same {o : Op} : Versionless o → Stands known o o
  | load (scope : NonceScope) : Stands known (.loadNonceState scope) (.loadNonceState scope)
  | swap {scope : NonceScope} {n n' : Nat} (s : NonceState) (f : FenceToken) (note : CasNote) :
      (scope, n, n') ∈ known →
      Stands known (.casNonceState scope n s f note) (.casNonceState scope n' s f note)

/-- Answers that differ at most in a loaded nonce state. -/
inductive GoesWith : (o o' : Op) → o.Reply → o'.Reply → Option Op → Set (NonceScope × Nat × Nat) →
    Prop where
  | same {o : Op} (r : o.Reply) (next : Option Op) : Versionless o → GoesWith o o r r next ∅
  | failed (scope : NonceScope) (e : StateStoreError) (next : Option Op) :
      GoesWith (.loadNonceState scope) (.loadNonceState scope) (.error e) (.error e) next ∅
  | loaded {scope : NonceScope} {v v' : Versioned NonceState} {next : Option Op} :
      v.Agree v' (resetOf next) →
      GoesWith (.loadNonceState scope) (.loadNonceState scope) (.ok v) (.ok v') next
        {(scope, v.version, v'.version)}
  | swap (scope : NonceScope) (n n' : Nat) (s : NonceState) (f : FenceToken) (note : CasNote)
      (r : Except StateStoreError Bool) (next : Option Op) :
      GoesWith (.casNonceState scope n s f note) (.casNonceState scope n' s f note) r r next ∅

/-- Calls that differ in the versions of nonce states. -/
def versions : Matching ports (NonceScope × Nat × Nat) where
  ops := Stands
  answers := GoesWith
  ops_mono := by
    intro known known' o o' hle ho
    cases ho with
    | same ho => exact .same ho
    | load => exact .load _
    | swap s f note hn => exact .swap s f note (hle hn)
  answers_end := by
    intro o o' n n' r r' learnt hn ha
    cases ha with
    | same r _ ho => exact .same r none ho
    | failed => exact .failed _ _ none
    | swap => exact .swap ..
    | loaded hagree =>
      refine .loaded ?_
      cases hn with
      | load => exact hagree
      | swap _ _ _ hn => cases hn
      | same hn =>
        cases n with
        | casNonceState => cases hn
        | _ => exact hagree

variable {known : Set (NonceScope × Nat × Nat)} {α : Type}

theorem alike_of_versionless {x : Io α} (hx : x.Ops Versionless) : x.Alike versions known x := by
  refine .of_ops hx (fun ho => .same ho) fun {o r r' n learnt} ho ha => ?_
  cases ha with
  | same => rfl
  | failed | loaded | swap => cases ho

namespace LocalNonceManager

variable {m : LocalNonceManager} {a : Address}

/-- A swap that both make, and after which both are done or try again. -/
theorem casOrRetry_alike {scope : NonceScope} {n n' : Nat} {s : NonceState} {note : CasNote}
    {β : Type} {b : β} {again : ExceptT NonceManagerError Io β}
    (hn : (scope, n, n') ∈ known) (hagain : again.run.Alike versions ∅ again.run) :
    (do if ← m.cas scope n s note then return b
        again : ExceptT NonceManagerError Io β).run.Alike versions known
      (do if ← m.cas scope n' s note then return b
          again : ExceptT NonceManagerError Io β).run := by
  refine .call (.swap s m.fence note hn) fun {r r' learnt} ha => ?_
  cases ha with
  | same _ _ ho => cases ho
  | swap =>
    rcases r with e | _ | _
    · exact .ret _ _
    · exact hagain.mono (Set.empty_subset _)
    · exact .ret _ _

theorem reset_alike (c : Nat) : (m.reset a c).run.Alike versions ∅ (m.reset a c).run := by
  unfold reset
  generalize m.attempts = rounds
  induction rounds with
  | zero => exact .halt _
  | succ rounds ih =>
    refine .call (.load ⟨a⟩) fun {r r' learnt} ha => ?_
    cases ha with
    | same _ _ ho => cases ho
    | failed => exact .ret _ _
    | @loaded _ v v' _ hagree =>
      have hreset : v.value.reset c = v'.value.reset c := hagree
      change Prog.Alike versions _ (ExceptT.run (do
        if ← m.cas ⟨a⟩ v.version (v.value.reset c) (.reset c) then return ()
        m.resetLoop a c rounds)) (ExceptT.run (do
        if ← m.cas ⟨a⟩ v'.version (v'.value.reset c) (.reset c) then return ()
        m.resetLoop a c rounds))
      rw [hreset]
      exact casOrRetry_alike (by simp) ih

theorem release_alike (n : Nat) : (m.release a n).run.Alike versions ∅ (m.release a n).run := by
  unfold release
  generalize m.attempts = rounds
  induction rounds with
  | zero => exact .halt _
  | succ rounds ih =>
    refine .call (.load ⟨a⟩) fun {r r' learnt} ha => ?_
    cases ha with
    | same _ _ ho => cases ho
    | failed => exact .ret _ _
    | @loaded _ v v' _ hagree =>
      obtain ⟨value, version⟩ := v
      obtain ⟨value', version'⟩ := v'
      have hsame : value = value' ∧ (version = 0 ↔ version' = 0) := by
        dsimp only [Prog.bind, pure, ExceptT.bindCont, Except.mapError] at hagree
        cases hrelease : value.release n with
        | none | some =>
          rw [hrelease] at hagree
          exact hagree
      obtain ⟨rfl, -⟩ := hsame
      dsimp only [Prog.bind, pure, ExceptT.bindCont, Except.mapError]
      cases value.release n with
      | none => exact .ret _ _
      | some released => exact casOrRetry_alike (by simp) ih

theorem allocate_alike : (m.allocate a).run.Alike versions ∅ (m.allocate a).run := by
  unfold allocate
  generalize m.attempts = rounds
  induction rounds with
  | zero => exact .halt _
  | succ rounds ih =>
    refine .call (.load ⟨a⟩) fun {r r' learnt} ha => ?_
    cases ha with
    | same _ _ ho => cases ho
    | failed => exact .ret _ _
    | @loaded _ v v' _ hagree =>
      obtain ⟨value, version⟩ := v
      obtain ⟨value', version'⟩ := v'
      cases version with
      | zero =>
        obtain ⟨rfl, hzero⟩ : value = value' ∧ (0 = 0 ↔ version' = 0) := hagree
        obtain rfl : version' = 0 := hzero.mp rfl
        refine .call (.same trivial) fun {r r' learnt} ha => ?_
        cases ha with
        | same =>
          rcases r with e | pending
          · exact .ret _ _
          · exact casOrRetry_alike (by simp) ih
      | succ version =>
        obtain ⟨rfl, hzero⟩ : value = value' ∧ (version + 1 = 0 ↔ version' = 0) := hagree
        obtain ⟨version', rfl⟩ : ∃ n, version' = n + 1 :=
          Nat.exists_eq_succ_of_ne_zero fun h => absurd (hzero.mpr h) (by simp)
        exact casOrRetry_alike (by simp) ih

end LocalNonceManager

variable [Alloy]

theorem TransactionManager.sendWithMeta_alike (m : TransactionManager) (intent : TxIntent)
    (opts : SubmissionOpts) (context : Option MetaContext) (origin : Origin) :
    (m.sendWithMeta intent opts context origin).run.Alike versions ∅
      (m.sendWithMeta intent opts context origin).run := by
  refine sendWithMeta_of_parts (Prog.alike_compositional versions)
    (fun hx => alike_of_versionless (hx.mono fun o ho => ?_)) LocalNonceManager.allocate_alike
    LocalNonceManager.release_alike _ _ _ _
  cases o with
  | loadNonceState | casNonceState => cases ho
  | _ => trivial

theorem TransactionManager.cancel_versionless (m : TransactionManager) (id : HandleId) :
    (m.cancel id).run.Ops Versionless := by
  refine (m.cancel_ops id).mono fun o ho => ?_
  cases o with
  | loadNonceState | casNonceState => cases ho
  | _ => trivial

namespace AccountExecutor

variable {e : AccountExecutor}

omit [Alloy] in
theorem recover_versionless : e.recover.run.Ops Versionless := by
  refine recover_ops.mono fun o ho => ?_
  cases o with
  | loadNonceState | casNonceState => cases ho
  | _ => trivial

theorem confirm_alike : e.confirm.run.Alike versions ∅ e.confirm.run := by
  refine confirm_of_reset (Prog.alike_compositional versions)
    (fun hx => alike_of_versionless (hx.mono fun o ho => ?_)) LocalNonceManager.reset_alike
    fun m _ => m.sendWithMeta_alike
  rcases ho with ho | rfl | ho
  · cases o with
    | loadNonceState | casNonceState => cases ho
    | _ => trivial
  · trivial
  · cases o with
    | loadNonceState | casNonceState => cases ho
    | _ => trivial

theorem escalate_versionless : e.escalate.run.Ops Versionless := by
  refine .tryBind (.bind ⟨trivial, fun _ => trivial⟩ fun _ => trivial) fun now =>
    .tryBind (Prog.ops_orThrow ⟨trivial, fun _ => trivial⟩) fun handles =>
    .bind (escalateLoop_ops now handles fun _ _ _ o ho => ?_) fun _ => trivial
  cases o with
  | loadNonceState | casNonceState => cases ho
  | _ => trivial

end AccountExecutor

/-- Calls run alike over stores that differ in the versions of nonce states. -/
theorem Call.body_alike (c : Call) : c.body.Alike versions ∅ c.body := by
  have hP := Prog.alike_compositional versions
  cases c with
  | send m intent opts context => exact hP.bind (m.sendWithMeta_alike ..) fun _ => hP.ret _
  | cancel m id => exact hP.bind (alike_of_versionless (m.cancel_versionless id)) fun _ => hP.ret _
  | recover e =>
    exact hP.bind (alike_of_versionless AccountExecutor.recover_versionless) fun _ => hP.ret _
  | confirm e => exact hP.bind AccountExecutor.confirm_alike fun _ => hP.ret _
  | escalate e =>
    exact hP.bind (alike_of_versionless AccountExecutor.escalate_versionless) fun _ => hP.ret _
  | tick e =>
    exact hP.bind (hP.tryBind (alike_of_versionless AccountExecutor.recover_versionless) fun _ =>
      hP.tryBind AccountExecutor.confirm_alike fun _ =>
        alike_of_versionless AccountExecutor.escalate_versionless) fun _ => hP.ret _

end WalletKit
