import WalletKit.Machine.Sections
import WalletKit.Nonces.Reservations

/-!
# Calls in the middle of a send

A call makes sends one after the other: a manager's send is one, and a tick makes one for each
handle it refills. Between them no nonce is held, unless one was left behind; so a call that holds
a nonce is in the middle of a send that has allocated it.
-/
namespace WalletKit

open Machine

/-- Not a step of a send that has its nonce. -/
def NotSending : Op → Prop
  | .casNonceState _ _ _ _ (.allocate _ _) | .casNonceState _ _ _ _ (.release _)
  | .putHandle _ (.wal _) | .putHandle _ (.sent _) | .putHandle _ (.rejected _)
  | .submit _ _ (.send _ _) => False
  | _ => True

namespace NotSending

variable {o : Op}

theorem quiet {e : PortEvent} (h : NotSending e.op) : Quiet e := by
  intro s
  obtain ⟨o, r⟩ := e
  cases o with
  | casNonceState scope n v f note =>
    cases note with
    | allocate | release => cases h
    | reset => rfl
  | putHandle g site =>
    cases site with
    | wal | sent | rejected => cases h
    | _ => rfl
  | submit rlp opts site =>
    cases site with
    | send => cases h
    | _ => rfl
  | _ => rfl

theorem of_recoverOp (h : AccountExecutor.RecoverOp o) : NotSending o := by
  cases o with
  | casNonceState | putHandle => cases h
  | submit rlp opts site =>
    cases site with
    | send => cases h
    | _ => trivial
  | _ => trivial

theorem of_confirmOp (h : AccountExecutor.ConfirmOp o) : NotSending o := by
  rcases h with h | h | ⟨a, rfl⟩ | h
  · cases o with
    | casNonceState | putHandle | submit => cases h
    | _ => trivial
  · cases o with
    | casNonceState scope n v f note =>
      cases note with
      | reset => trivial
      | _ => cases h
    | putHandle | submit => cases h
    | _ => trivial
  · trivial
  · cases o with
    | casNonceState | submit => cases h
    | putHandle g site =>
      cases site with
      | advance | poll => trivial
      | _ => cases h
    | _ => trivial

theorem of_bumpOp [Alloy] {handle : TxHandle} (h : AccountExecutor.BumpOp handle o) :
    NotSending o := by
  cases o with
  | casNonceState => cases h
  | putHandle g site =>
    cases site with
    | bump => trivial
    | _ => cases h
  | submit rlp opts site =>
    cases site with
    | bump => trivial
    | _ => cases h
  | _ => trivial

end NotSending

variable [Alloy]

theorem TransactionManager.cancel_notSending (m : TransactionManager) (id : HandleId) :
    (m.cancel id).run.Ops NotSending := by
  refine (m.cancel_ops id).mono fun o ho => ?_
  cases o with
  | casNonceState => cases ho
  | putHandle g site =>
    cases site with
    | wal | sent | rejected => cases ho
    | _ => trivial
  | submit rlp opts site =>
    cases site with
    | send => cases ho
    | _ => trivial
  | _ => trivial

theorem AccountExecutor.escalate_notSending (e : AccountExecutor) :
    e.escalate.run.Ops NotSending :=
  .tryBind (.bind ⟨trivial, fun _ => trivial⟩ fun _ => trivial) fun now =>
    .tryBind (Prog.ops_orThrow ⟨trivial, fun _ => trivial⟩) fun handles =>
    .bind (escalateLoop_ops now handles fun _ _ _ _ => NotSending.of_bumpOp) fun _ => trivial

/-- A send of a manager, for a caller or for an executor. -/
def IsSend (s : Io (Except TransactionManagerError TxHandle)) : Prop :=
  ∃ (m : TransactionManager) (intent : TxIntent) (opts : SubmissionOpts)
    (context : Option MetaContext) (origin : Origin),
    s = (m.sendWithMeta intent opts context origin).run

/-- Outside of its sends a call has no nonce, unless one was left behind. -/
theorem Call.body_sectioned (c : Call) : c.body.Sectioned IsSend Done := by
  have hP := Prog.sectioned_compositional IsSend Done
  have outside : ∀ {α : Type} {x : Io α}, x.Ops NotSending → x.Sectioned IsSend Done := fun hx =>
    .of_ops hx fun past e he hd => hd.snoc he.quiet
  have send : ∀ m intent opts context origin, (TransactionManager.sendWithMeta m intent opts context
      origin).run.Sectioned IsSend Done := fun m intent opts context origin => by
    have history : ∀ past, Done past → (m.sendWithMeta intent opts context origin).run.wp
        (.history (Owes (.manager m))) (fun _ => Done) past := fun _ hd =>
      TransactionManager.sendWithMeta_history rfl hd
    exact .of_section ⟨m, intent, opts, context, origin, rfl⟩ history
  have recover : ∀ e : AccountExecutor, e.recover.run.Sectioned IsSend Done := fun e =>
    outside (AccountExecutor.recover_ops.mono fun _ => .of_recoverOp)
  have confirm : ∀ e : AccountExecutor, e.confirm.run.Sectioned IsSend Done := fun e =>
    AccountExecutor.confirm_of_parts hP (fun hx => outside (hx.mono fun _ => .of_confirmOp))
      fun m _ => send m
  have escalate : ∀ e : AccountExecutor, e.escalate.run.Sectioned IsSend Done := fun e =>
    outside e.escalate_notSending
  cases c with
  | send m intent opts context =>
    exact hP.bind (send m intent opts context .direct) fun _ => hP.ret _
  | cancel m id => exact hP.bind (outside (m.cancel_notSending id)) fun _ => hP.ret _
  | recover e => exact hP.bind (recover e) fun _ => hP.ret _
  | confirm e => exact hP.bind (confirm e) fun _ => hP.ret _
  | escalate e => exact hP.bind (escalate e) fun _ => hP.ret _
  | tick e =>
    exact hP.bind (hP.tryBind (recover e) fun _ => hP.tryBind (confirm e) fun _ => escalate e)
      fun _ => hP.ret _

section Holders

omit [Alloy] in
theorem holding_snoc (past : List PortEvent) (e : PortEvent) :
    holding (past ++ [e]) = (phaseStep (phase past) e).held := by
  rw [holding, phase_snoc rfl rfl]

/-- This swap gives the nonce to a call. -/
def Allocates (a : Address) (n : Nat) (e : PortEvent) : Prop :=
  ∃ version value fence first,
    e = ev (.casNonceState ⟨a⟩ version value fence (.allocate n first)) (.ok true)

variable {past : List PortEvent} {e : PortEvent} {a : Address} {n : Nat}

/-- A call gets a nonce by allocating it. -/
theorem allocates_of_holding {role : Role} (howes : Owes role past e.op)
    (hnot : holding past ≠ some (a, n)) (hold : holding (past ++ [e]) = some (a, n)) :
    Allocates a n e := by
  rw [holding_snoc] at hold
  have same : phaseStep (phase past) e = phase past → Allocates a n e := fun hs =>
    absurd (by rw [holding, ← hs]; exact hold) hnot
  obtain ⟨o, r⟩ := e
  cases o with
  | casNonceState scope version value fence note =>
    cases note with
    | allocate m first =>
      rcases r with _ | _ | _
      · exact same rfl
      · exact same rfl
      · cases hold
        exact ⟨version, value, fence, first, rfl⟩
    | release m =>
      rcases r with _ | _ | _
      · exact same rfl
      · exact same rfl
      · cases hold
    | reset c => exact same rfl
  | putHandle g site =>
    cases site with
    | wal =>
      obtain ⟨m, -, -, hp⟩ := howes
      cases r with
      | ok => exact absurd (by rw [holding, hp]; exact hold) hnot
      | error => exact same rfl
    | rejected wal =>
      obtain ⟨_, -, -, -, -, hp⟩ := howes
      cases r with
      | ok => exact absurd (by rw [holding, hp]; exact hold) hnot
      | error => exact same rfl
    | sent => cases hold
    | _ => exact same rfl
  | submit rlp opts site =>
    cases site with
    | send origin wal =>
      have hp := SubmitOwes.logged howes
      by_cases hr : maybeOut r
      · refine absurd ?_ hnot
        rw [holding, hp]
        rwa [show phaseStep (phase past) ⟨.submit rlp opts (.send origin wal), r⟩ = .out wal from
          if_pos hr] at hold
      · exact same (if_neg hr)
    | _ => exact same rfl
  | _ => exact same rfl

/-- What a call holds that it did not hold before it has allocated since. -/
theorem exists_allocates {before during : List PortEvent}
    (howed : ∀ l e l', before ++ during = l ++ e :: l' → ∃ role, Owes role l e.op)
    (hnot : holding before ≠ some (a, n)) (hold : holding (before ++ during) = some (a, n)) :
    ∃ e ∈ during, Allocates a n e := by
  induction during using List.reverseRecOn with
  | nil => exact absurd (by rwa [List.append_nil] at hold) hnot
  | append_singleton during e ih =>
    rw [← List.append_assoc] at hold
    by_cases hearlier : holding (before ++ during) = some (a, n)
    · obtain ⟨x, hx, halloc⟩ := ih (fun l x l' hl => howed l x (l' ++ [e]) (by
        rw [← List.append_assoc, hl]
        simp)) hearlier
      exact ⟨x, List.mem_append_left _ hx, halloc⟩
    · obtain ⟨role, howes⟩ := howed (before ++ during) e [] (by simp)
      exact ⟨e, by simp, allocates_of_holding howes hearlier hold⟩

/-- The call is in the middle of a send that has allocated the nonce, and still has it. -/
def Sending (th : CallThread) (a : Address) (n : Nat) : Prop :=
  holding th.past = some (a, n) ∧ ∃ before during, th.past = before ++ during ∧
    th.prog.Within IsSend during ∧ ∃ e ∈ during, Allocates a n e

variable {W : Type} {S : System ports W Call CallResult} {view : W → World}
  {p₀ p : Pool ports W Call CallResult} {th : CallThread}

omit [Alloy] in
theorem holding_of_done (hd : Done past) (hs : ¬Stranded past) : holding past = none := by
  rw [holding, hd.1.resolve_right hs]
  rfl

/-- A call that has left no nonce behind and holds one is in the middle of a send. -/
theorem Call.sending_of_holding (hS : client.Runs S view) (h₀ : Backed.Fresh view p₀)
    (h : S.Reaches p₀ p) (hth : th ∈ p.threads) (hs : ¬Stranded th.past)
    (hold : holding th.past = some (a, n)) : Sending th a n := by
  have hafter := h.after h₀.1 th hth
  rw [hS.body] at hafter
  have hsection := th.call.body_sectioned [] th.past th.prog (done_of_idle rfl) hafter
  simp only [List.nil_append] at hsection
  obtain hd | ⟨before, during, hpast, hd, hwithin⟩ := hsection
  · rw [holding_of_done hd hs] at hold
    cases hold
  refine ⟨hold, before, during, hpast, hwithin, ?_⟩
  rw [hpast] at hold
  refine exists_allocates (fun l e l' hl => ?_) ?_ hold
  · obtain ⟨role, -, howes⟩ := hS.owed h₀ h hth (hpast.trans hl)
    exact ⟨role, howes⟩
  · have hbefore : ¬Stranded before := fun hb => hs (hpast ▸ hb.append during)
    rw [holding_of_done hd hbefore]
    nofun

end Holders

end WalletKit
