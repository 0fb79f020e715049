import WalletKit.Runtime.Calls

/-!
# Where approvals come from

A transaction is signed under an approval that its call has got from a policy engine, or from
the cache of an executor; and what a call caches is what it has signed with. So every approval in
use was given by an engine at some time, in any interleaving.
-/
namespace WalletKit

open Machine Signing

/-- What is asked of the approval that an operation uses, to sign a transaction or to cache it. -/
def Backing (P : PolicyApproval → Prop) : Op → Prop
  | .signTransaction _ _ _ a _ | .approvalsInsert _ _ a => P a
  | _ => True

/-- The call was given this approval, or has taken it from a cache. -/
def Granted (past : List PortEvent) (a : PolicyApproval) : Prop :=
  (∃ policy request, Allowed past policy request a) ∨
    ∃ x id, ev (.approvalsGet x id) (some a) ∈ past

/-- Calls only use approvals they were granted. -/
def GrantOwes (past : List PortEvent) : Op → Prop := Backing (Granted past)

theorem Backing.mono {P Q : PolicyApproval → Prop} {o : Op} (h : Backing P o)
    (himp : ∀ a, P a → Q a) : Backing Q o := by
  cases o with
  | signTransaction | approvalsInsert => exact himp _ h
  | _ => trivial

theorem Granted.snoc {past : List PortEvent} {a : PolicyApproval} (h : Granted past a)
    (e : PortEvent) : Granted (past ++ [e]) a :=
  h.imp (fun ⟨policy, request, ha⟩ => ⟨policy, request, List.mem_append_left _ ha⟩)
    fun ⟨x, id, hc⟩ => ⟨x, id, List.mem_append_left _ hc⟩

theorem granted_allow (past : List PortEvent) (policy : PolicyId) (request : SigningRequest)
    (a : PolicyApproval) : Granted (past ++ [ev (.evaluate policy request) (.ok (.allow a))]) a :=
  .inl ⟨policy, request, by simp [Allowed]⟩

section Programs

variable {α : Type} {x : Io α} {past : List PortEvent} {approval : PolicyApproval}

/-- Nothing is signed and nothing cached. -/
theorem meets_of_idle (hx : x.Ops (Backing fun _ => False)) : x.Meets (.history GrantOwes) :=
  .of_ops hx (fun _ _ ho => ho.mono fun _ => False.elim) fun _ => trivial

/-- A call that was granted an approval may use it. -/
theorem wp_of_granted (hx : x.Ops (Backing (· = approval))) (hg : Granted past approval) :
    x.wp (.history GrantOwes) (fun _ _ => True) past :=
  Prog.wp_mono (Prog.wp_of_ops (P := (Granted · approval)) hx
    (fun _ _ ho hv => ho.mono fun _ ha => ha ▸ hv) (fun _ _ => trivial)
    (fun _ _ _ _ _ hv hs => hs ▸ hv.snoc _) hg) fun _ _ _ => trivial

theorem backing_of_nonceOp {P : PolicyApproval → Prop} {o : Op}
    (ho : LocalNonceManager.NonceOp o) : Backing P o := by
  cases o with
  | pendingNonce | loadNonceState | casNonceState => trivial
  | _ => cases ho

variable [Alloy]

namespace TransactionManager

variable {m : TransactionManager}

theorem buildSignSubmit_backing (intent : TxIntent) (gasLimit : Nat) (fees : Eip1559Estimation)
    (nonce : Nat) (opts : SubmissionOpts) (context : Option MetaContext) (origin : Origin) :
    (m.buildSignSubmit intent gasLimit fees nonce approval opts context origin).run.Ops
      (Backing (· = approval)) := by
  have recycled : ∀ a n (e : TransactionManagerError),
      (do m.recycle a n; throw e : SendM TxHandle).run.Ops (Backing (· = approval)) := fun a n e =>
    .tryBind (.bind ((recycle_ops a n).mono fun _ => backing_of_nonceOp) fun _ => trivial)
      fun _ => trivial
  have sent : ∀ wal, (liftM (recordSent wal) : SendM TxHandle).run.Ops (Backing (· = approval)) :=
    fun wal => .bind (.bind ⟨trivial, fun _ => trivial⟩ fun _ => trivial) fun _ => trivial
  refine .tryBind (.bind ⟨trivial, fun _ => trivial⟩ fun _ => trivial) fun now =>
    .tryBind (Prog.ops_outcome (.tryBind (Prog.ops_orThrow ⟨rfl, fun _ => trivial⟩)
      fun _ => trivial)) fun signed => ?_
  split
  · exact recycled _ _ _
  refine .tryBind (.bind ⟨trivial, fun _ => trivial⟩ fun _ => trivial) fun stored => ?_
  split
  · exact recycled _ _ _
  refine .tryBind (.bind ⟨trivial, fun _ => trivial⟩ fun _ => trivial) fun submitted => ?_
  split
  · exact sent _
  split
  · exact sent _
  · exact .tryBind (.bind ⟨trivial, fun _ => trivial⟩ fun _ => trivial) fun _ => recycled _ _ _

theorem sendWithMeta_meets (intent : TxIntent) (opts : SubmissionOpts)
    (context : Option MetaContext) (origin : Origin) :
    (m.sendWithMeta intent opts context origin).run.Meets (.history GrantOwes) := by
  unfold sendWithMeta
  split
  · exact Prog.meets_ret _
  split
  · exact Prog.meets_ret _
  refine .tryBind (meets_of_idle (.bind ⟨trivial, fun _ => trivial⟩ fun _ => trivial)) fun gas => ?_
  split
  · exact Prog.meets_ret _
  · exact Prog.meets_ret _
  refine .tryBind (meets_of_idle (Prog.ops_orThrow ⟨trivial, fun _ => trivial⟩)) fun fees past => ?_
  simp only [Prog.wp_run_bind, Prog.wp_run_orThrow, PolicyEngine.wp_evaluate, asks_history,
    Prog.forall_except, Except.mapError]
  refine ⟨trivial, fun _ => trivial, fun decision => ?_⟩
  cases decision with
  | deny => trivial
  | allow approval =>
    exact wp_of_granted (.tryBind (Prog.ops_orThrow ((m.nonceManager.allocate_ops _).mono fun _ =>
      backing_of_nonceOp)) fun _ => buildSignSubmit_backing ..) (granted_allow ..)

theorem cancelApproved_backing (target : TxHandle) (intent : TxIntent) :
    (m.cancelApproved target intent approval).run.Ops (Backing (· = approval)) := by
  refine (cancelApproved_ops ..).mono ?_
  rintro o ⟨ho, hsigns⟩
  cases o with
  | signTransaction => exact hsigns
  | approvalsInsert => cases ho
  | _ => trivial

theorem cancel_meets (id : HandleId) : (m.cancel id).run.Meets (.history GrantOwes) := by
  refine .tryBind (meets_of_idle (Prog.ops_orThrow ⟨trivial, fun _ => trivial⟩)) fun found => ?_
  split
  · exact Prog.meets_ret _
  split
  · exact Prog.meets_ret _
  intro past
  unfold authorize
  simp only [Prog.wp_run_bind, Prog.wp_run_orThrow, PolicyEngine.wp_evaluate, asks_history,
    Prog.forall_except, Except.mapError]
  refine ⟨trivial, fun _ => trivial, fun decision => ?_⟩
  cases decision with
  | deny => trivial
  | allow approval =>
    exact wp_of_granted (cancelApproved_backing _ _) (granted_allow ..)

end TransactionManager

namespace AccountExecutor

variable {e : AccountExecutor}

omit [Alloy] in
theorem recover_idle : e.recover.run.Ops (Backing fun _ => False) :=
  recover_ops.mono fun o ho => by
    cases o with
    | signTransaction | approvalsInsert => cases ho
    | _ => trivial

theorem confirm_meets : e.confirm.run.Meets (.history GrantOwes) := by
  refine confirm_of_parts (Prog.meets_compositional _) (fun hx => meets_of_idle (hx.mono ?_))
    fun _ _ => TransactionManager.sendWithMeta_meets
  rintro o (ho | ho | ⟨a, rfl⟩ | ho)
  · cases o with
    | signTransaction | approvalsInsert => cases ho
    | _ => trivial
  · exact backing_of_nonceOp ho.nonceOp
  · trivial
  · cases o with
    | signTransaction | approvalsInsert => cases ho
    | _ => trivial

omit [Alloy] in
theorem bumpApproval_granted {handle : TxHandle} {fees : Eip1559Estimation} {now : Nat} :
    (e.bumpApproval handle fees now).run.wp (.history GrantOwes)
      (fun r past => ∀ a, r = .ok (some a) → Granted past a) past := by
  unfold bumpApproval
  simp only [Prog.wp_run_bind, Prog.wp_run_lift, ExecutorMemory.wp_approval, asks_history]
  refine ⟨trivial, fun cached => ?_⟩
  split
  · rename_i approval hcached
    rintro a ⟨rfl⟩
    obtain ⟨rfl, -⟩ := Option.filter_eq_some_iff.mp hcached
    exact .inr ⟨e.id, handle.id, by simp⟩
  · simp only [Prog.wp_run_bind, Prog.wp_run_orThrow, PolicyEngine.wp_evaluate, asks_history,
      Prog.forall_except, Except.mapError]
    refine ⟨trivial, fun _ => by rintro _ ⟨⟩, fun decision => ?_⟩
    cases decision with
    | deny => rintro _ ⟨⟩
    | allow approval =>
      intro a ha
      have hsome : (if approval.gasEnvelope.admits fees.maxFeePerGas fees.maxPriorityFeePerGas then
          some approval else none) = some a := Except.ok.inj ha
      split at hsome
      · cases hsome
        exact granted_allow ..
      · cases hsome

theorem submitBump_backing (handle : TxHandle) (gasLimit : Nat) (fees : Eip1559Estimation)
    (now : Nat) :
    (e.submitBump handle gasLimit fees approval now).run.Ops (Backing (· = approval)) := by
  have record : ∀ routed signed,
      (e.recordBump routed handle signed approval now).run.Ops (Backing (· = approval)) :=
    fun routed signed => .tryBind (Prog.ops_orThrow ⟨trivial, fun _ => trivial⟩) fun _ =>
      .bind ⟨rfl, fun _ => trivial⟩ fun _ => trivial
  refine .tryBind (Prog.ops_orThrow (.tryBind (Prog.ops_orThrow ⟨rfl, fun _ => trivial⟩)
    fun _ => trivial)) fun signed => .tryBind (.bind ⟨trivial, fun _ => trivial⟩
      fun _ => trivial) fun submitted => ?_
  split
  · split
    · exact record _ _
    · trivial
  · exact record _ _

theorem bump_meets (handle : TxHandle) (now : Nat) :
    (e.bump handle now).run.Meets (.history GrantOwes) := by
  refine .tryBind (meets_of_idle (Prog.ops_orThrow ⟨trivial, fun _ => trivial⟩)) fun mined => ?_
  split
  · exact Prog.meets_ret _
  split
  · exact Prog.meets_ret _
  refine .tryBind (meets_of_idle (.bind ⟨trivial, fun _ => trivial⟩ fun _ => trivial))
    fun bumped => ?_
  split
  · exact Prog.meets_ret _
  · exact Prog.meets_ret _
  split
  · exact Prog.meets_ret _
  intro past
  refine Prog.wp_run_bind.mpr (Prog.wp_mono bumpApproval_granted ?_)
  rintro (err | _ | approval) past hgranted
  · trivial
  · trivial
  · exact wp_of_granted (submitBump_backing ..) (hgranted approval rfl)

theorem escalate_meets : e.escalate.run.Meets (.history GrantOwes) := by
  refine .tryBind (meets_of_idle (.bind ⟨trivial, fun _ => trivial⟩ fun _ => trivial)) fun now =>
    .tryBind (meets_of_idle (Prog.ops_orThrow ⟨trivial, fun _ => trivial⟩)) fun handles =>
    .bind (.forM _ fun handle _ => ?_) fun _ => Prog.meets_ret _
  unfold escalateHandle
  split
  · exact .bind (bump_meets handle now) fun _ => Prog.meets_ret _
  · exact Prog.meets_ret _

end AccountExecutor

theorem Call.body_granted (c : Call) : (client.body c).Meets (.history GrantOwes) := by
  refine fun past => ?_
  cases c with
  | send m intent opts context =>
    exact Prog.wp_map.mpr (TransactionManager.sendWithMeta_meets intent opts context _ past)
  | cancel m id => exact Prog.wp_map.mpr (TransactionManager.cancel_meets id past)
  | recover e => exact Prog.wp_map.mpr (meets_of_idle AccountExecutor.recover_idle past)
  | confirm e => exact Prog.wp_map.mpr (AccountExecutor.confirm_meets past)
  | escalate e => exact Prog.wp_map.mpr (AccountExecutor.escalate_meets past)
  | tick e =>
    exact Prog.wp_map.mpr (Prog.Meets.tryBind (meets_of_idle AccountExecutor.recover_idle)
      (fun _ => Prog.Meets.tryBind AccountExecutor.confirm_meets
        fun _ => AccountExecutor.escalate_meets) past)

end Programs

section Cache

/-- What is cached was cached before or is cached by this event. -/
theorem approvalsAfter_eq_some {m : ExecutorId → HandleId → Option PolicyApproval}
    {e : PortEvent} {x : ExecutorId} {id : HandleId} {approval : PolicyApproval}
    (ha : World.approvalsAfter m e x id = some approval) :
    m x id = some approval ∨ e.op = .approvalsInsert x id approval := by
  unfold World.approvalsAfter at ha
  split at ha
  · rename_i y j b _
    by_cases hx : x = y
    · subst hx
      by_cases hj : id = j
      · subst hj; exact .inr (by simpa using ha)
      · exact .inl (by simpa [hj] using ha)
    · exact .inl (by simpa [hx] using ha)
  · rename_i y j _
    by_cases hx : x = y
    · subst hx
      by_cases hj : id = j
      · subst hj; simp at ha
      · exact .inl (by simpa [hj] using ha)
    · exact .inl (by simpa [hx] using ha)
  · exact .inl ha

variable {W C α : Type} {S : System ports W C α} {view : W → World} {p₀ p : Pool ports W C α}

/-- What holds of every approval when it is cached, given that it holds of those which the call
has taken from a cache, holds of all that are cached and of all that were taken. It may differ from
cache to cache. -/
theorem Backed.cached {P : List PortEvent → ExecutorId → PolicyApproval → Prop}
    (hS : Backed S view) (h₀ : Backed.Fresh view p₀) (mono : ∀ l e x a, P l x a → P (l ++ [e]) x a)
    (insert : ∀ {p th x id a k}, S.Reaches p₀ p → th ∈ p.threads →
      th.prog = .call (.approvalsInsert x id a) k →
      (∀ y j b, ev (.approvalsGet y j) (some b) ∈ th.past → P (view p.world).log y b) →
      P (view p.world).log x a) (h : S.Reaches p₀ p) :
    (∀ x id a, (view p.world).approvals x id = some a → P (view p.world).log x a) ∧
      ∀ th ∈ p.threads, ∀ x id a, ev (.approvalsGet x id) (some a) ∈ th.past →
        P (view p.world).log x a := by
  induction h with
  | refl => exact ⟨by simp [h₀.2, World.initial], by simp [h₀.1]⟩
  | @tail p p' hreach hs ih =>
    obtain ⟨cached, got⟩ := ih
    cases hs with
    | spawn c _ =>
      refine ⟨cached, fun th hth x id a hg => ?_⟩
      rcases Pool.mem_spawn.mp hth with hth | rfl
      · exact got th hth x id a hg
      · cases hg
    | @move i th o k x r hi hprog ha =>
      have hth := List.mem_of_getElem? hi
      rw [Pool.world_answer, hS.next ha, World.apply_log]
      refine ⟨fun y id a hc => mono _ _ _ _ ?_, fun th' hth' y id a hg => mono _ _ _ _ ?_⟩
      · rcases approvalsAfter_eq_some hc with hc | hc
        · exact cached y id a hc
        · obtain rfl : o = .approvalsInsert y id a := hc
          exact insert hreach hth hprog (got th hth)
      · rcases Pool.mem_answer hth' with hth' | rfl
        · exact got th' hth' y id a hg
        · rcases List.mem_append.mp hg with hg | hg
          · exact got th hth y id a hg
          · cases List.mem_singleton.mp hg
            exact cached y id a (of_decide_eq_true (hS.can ha)).symm

/-- The same for what does not depend on the cache. -/
theorem Backed.approvals {P : List PortEvent → PolicyApproval → Prop} (hS : Backed S view)
    (h₀ : Backed.Fresh view p₀) (mono : ∀ l e a, P l a → P (l ++ [e]) a)
    (insert : ∀ {p th x id a k}, S.Reaches p₀ p → th ∈ p.threads →
      th.prog = .call (.approvalsInsert x id a) k →
      (∀ y j b, ev (.approvalsGet y j) (some b) ∈ th.past → P (view p.world).log b) →
      P (view p.world).log a) (h : S.Reaches p₀ p) :
    (∀ x id a, (view p.world).approvals x id = some a → P (view p.world).log a) ∧
      ∀ th ∈ p.threads, ∀ x id a, ev (.approvalsGet x id) (some a) ∈ th.past →
        P (view p.world).log a :=
  hS.cached (P := fun l _ => P l) h₀ (fun l e _ => mono l e) insert h

end Cache

section Law

variable [Alloy] {W : Type} {S : System ports W Call CallResult} {view : W → World}
  {p₀ p : Pool ports W Call CallResult}

/-- An engine has given this approval. -/
def GivenIn (log : List PortEvent) (a : PolicyApproval) : Prop :=
  ∃ policy request, Allowed log policy request a

/-- Whatever approval a call is about to use was given by an engine. -/
theorem Call.given_of_used (hS : client.Runs S view) (h₀ : Backed.Fresh view p₀)
    (h : S.Reaches p₀ p) {th : CallThread} (hth : th ∈ p.threads) {o : Op}
    {k : o.Reply → Io CallResult} (hprog : th.prog = .call o k) :
    Backing (GivenIn (view p.world).log) o := by
  have uses : ∀ {p th o k}, S.Reaches p₀ p → th ∈ p.threads → th.prog = .call o k →
      (∀ y j b, ev (.approvalsGet y j) (some b) ∈ th.past → GivenIn (view p.world).log b) →
      Backing (GivenIn (view p.world).log) o := by
    intro p th o k hreach hth hprog got
    have hist := hreach.history (fun c => hS.body ▸ c.body_granted []) h₀.1 th hth
    rw [hprog] at hist
    refine (Prog.wp_history_call.mp hist).1.mono fun a hgranted => ?_
    rcases hgranted with ⟨policy, request, ha⟩ | ⟨y, j, ha⟩
    · exact ⟨policy, request, hS.mem_log h₀ hreach hth ha⟩
    · exact got y j a ha
  have mono : ∀ (l : List PortEvent) e a, GivenIn l a → GivenIn (l ++ [e]) a :=
    fun l e a ⟨policy, request, ha⟩ => ⟨policy, request, List.mem_append_left _ ha⟩
  exact uses h hth hprog ((hS.approvals h₀ mono uses h).2 th hth)

/-- Whatever was signed in a run was signed under an approval that an engine has given. -/
theorem Call.given_of_signed (hS : client.Runs S view) (h₀ : Backed.Fresh view p₀)
    (h : S.Reaches p₀ p) {signer : Address} {tx : TxEip1559} {intentHash : B256}
    {approval : PolicyApproval} {now : Nat} {r : Except SignerError Signature}
    (hs : ev (.signTransaction signer tx intentHash approval now) r ∈ (view p.world).log) :
    GivenIn (view p.world).log approval := by
  obtain ⟨l, l', hl⟩ := List.append_of_mem hs
  obtain ⟨policy, request, ha⟩ := hS.log_moved
    (K := fun w e => Backing (GivenIn w.log) e.op) h₀ (fun hreach hi hprog _ =>
      given_of_used hS h₀ hreach (List.mem_of_getElem? hi) hprog) h l _ l' hl
  rw [World.replay_log] at ha
  exact ⟨policy, request, by rw [hl]; exact List.mem_append_left _ ha⟩

end Law

end WalletKit
