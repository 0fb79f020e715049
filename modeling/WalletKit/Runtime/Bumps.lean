import WalletKit.Runtime.Calls

/-!
# Who bumps

Replacements are broadcast and recorded by `escalate` alone. So what is asked of bumps only is to
be shown of `escalate` only, and then holds of every call.
-/
namespace WalletKit

open Machine

/-- No bump is broadcast and none is recorded. -/
def BumpsNothing : Op → Prop
  | .submit _ _ (.bump _) | .putHandle _ (.bump _) => False
  | _ => True

theorem AccountExecutor.recover_bumpsNothing (e : AccountExecutor) :
    e.recover.run.Ops BumpsNothing :=
  recover_ops.mono fun o ho => by
    cases o with
    | submit rlp opts site =>
      cases site with
      | bump => cases ho
      | _ => trivial
    | putHandle => cases ho
    | _ => trivial

variable [Alloy]

theorem AccountExecutor.confirm_bumpsNothing (e : AccountExecutor) :
    e.confirm.run.Ops BumpsNothing := by
  refine confirm_of_parts (Prog.ops_compositional BumpsNothing) (fun hx => hx.mono ?_)
    fun m _ intent opts context origin => (sendWithMeta_advanceOp m _ _ _ _).mono fun o ho => ?_
  · rintro o (ho | ho | ⟨a, rfl⟩ | ho)
    · cases o with
      | submit | putHandle => cases ho
      | _ => trivial
    · cases o with
      | submit | putHandle => cases ho
      | _ => trivial
    · trivial
    · cases o with
      | submit => cases ho
      | putHandle g site =>
        cases site with
        | bump => cases ho
        | _ => trivial
      | _ => trivial
  · cases o with
    | submit rlp opts site =>
      cases site with
      | bump => cases ho
      | _ => trivial
    | putHandle g site =>
      cases site with
      | bump => cases ho
      | _ => trivial
    | _ => trivial

theorem Call.manager_bumpsNothing {c : Call} {m : TransactionManager} (hc : c.role = .manager m) :
    c.body.Ops BumpsNothing :=
  (manager_ops hc).mono fun o ho => by
    cases o with
    | submit rlp opts site =>
      cases site with
      | bump => cases ho
      | _ => trivial
    | putHandle g site =>
      cases site with
      | bump => cases ho
      | _ => trivial
    | _ => trivial

/-- What is asked of bumps only holds of every call if it holds of `escalate`. -/
theorem Call.body_meets {owes : List PortEvent → Op → Prop}
    (hquiet : ∀ past o, BumpsNothing o → owes past o)
    (hescalate : ∀ e : AccountExecutor, e.escalate.run.Meets (.history owes)) (c : Call) :
    (client.body c).Meets (.history owes) := by
  have idle : ∀ {α : Type} {x : Io α}, x.Ops BumpsNothing → x.Meets (.history owes) := fun hx =>
    .of_ops hx (fun o past ho => hquiet past o ho) fun _ => trivial
  cases c with
  | send m intent opts context =>
    exact idle (manager_bumpsNothing (c := .send m intent opts context) rfl)
  | cancel m id => exact idle (manager_bumpsNothing (c := .cancel m id) rfl)
  | recover e => exact (idle e.recover_bumpsNothing).bind fun _ => Prog.meets_ret _
  | confirm e => exact (idle e.confirm_bumpsNothing).bind fun _ => Prog.meets_ret _
  | escalate e => exact (hescalate e).bind fun _ => Prog.meets_ret _
  | tick e =>
    exact ((idle e.recover_bumpsNothing).tryBind fun _ => (idle e.confirm_bumpsNothing).tryBind
      fun _ => hescalate e).bind fun _ => Prog.meets_ret _

end WalletKit
