import WalletKit.Core.Ports

/-!
# The native policy engine

`DefaultPolicyEngine` folds its rules: the first `Deny` ends the fold, and without a `Deny` some
rule has to allow, unless the request is a cancel by an empty self-send. What the fold decides
depends only on which verdicts occur among the rules, not on their order.
-/
namespace WalletKit

/-- One rule's verdict on a request. -/
inductive Verdict where
  | allow
  | deny (rejection : PolicyRejection)
  | abstain
  deriving DecidableEq, Repr

/-- A native rule, by its `check`. -/
abbrev Policy := SigningRequest → Verdict

namespace Policy

/-- Grants calls to the listed targets. -/
def targetAllowlist (allowed : Finset Address) : Policy
  | .transaction i => if i.to.toOption.any (· ∈ allowed) then .allow else .abstain
  | _ => .abstain

/-- Denies a transaction whose value exceeds the cap. -/
def spendLimit (maxValue : Nat) : Policy
  | .transaction i =>
    if maxValue < i.value then
      .deny ⟨"SpendLimit", some "value", s!"value {i.value} exceeds cap {maxValue}"⟩
    else .abstain
  | _ => .abstain

def messageSigningAllowed : Policy
  | .message _ => .allow
  | _ => .abstain

/-- Grants typed data of the listed contracts. -/
def typedDataDomainAllowlist (allowed : Finset Address) : Policy
  | .typedData td => if td.verifyingContract.any (· ∈ allowed) then .allow else .abstain
  | _ => .abstain

/-- For development only. -/
def allowAll : Policy := fun _ => .allow

/-- A rule that never grants anything. -/
def Guards (p : Policy) : Prop := ∀ request, p request ≠ .allow

/-- A rule that never denies anything. -/
def Grants (p : Policy) : Prop := ∀ request r, p request ≠ .deny r

end Policy

/-- The result of a dry run. -/
inductive PolicyOutcome where
  | wouldAllow
  | wouldDeny (rejection : PolicyRejection)
  deriving DecidableEq, Repr

structure DefaultPolicyEngine where
  policies : List Policy
  feeCaps : GasEnvelope
  approvalTtl : Nat

namespace DefaultPolicyEngine

/-- How long an approval stays valid for bumps, in seconds. -/
def defaultApprovalTtl : Nat := 300

def new (policies : List Policy) : DefaultPolicyEngine := ⟨policies, .default, defaultApprovalTtl⟩

def withFeeCaps (e : DefaultPolicyEngine) (feeCaps : GasEnvelope) : DefaultPolicyEngine :=
  { e with feeCaps := feeCaps }

def malformedPayload : PolicyRejection :=
  ⟨"malformed-payload", none, "signing payload could not be hashed"⟩

def defaultDeny : PolicyRejection := ⟨"default-deny", none, "no policy granted permission"⟩

/-- The loop over the rules, with whether one has allowed so far; a `Deny` ends it. -/
def fold (request : SigningRequest) : List Policy → Bool → Except PolicyRejection Bool
  | [], allowed => .ok allowed
  | p :: policies, allowed =>
    match p request with
    | .deny r => .error r
    | .allow => fold request policies true
    | .abstain => fold request policies allowed

/-- A cancel may always go out, if it is a self-send. -/
def cancelOk : SigningRequest → Bool
  | .cancel i => i.isSelfSend
  | _ => false

variable [Alloy]

/-- The decision without an approval. -/
def decideOutcome (e : DefaultPolicyEngine) (request : SigningRequest) : PolicyOutcome :=
  match fold request e.policies false with
  | .error r => .wouldDeny r
  | .ok allowed =>
    if !allowed && !cancelOk request then .wouldDeny defaultDeny
    else
      match request.signingHash with
      | .error _ => .wouldDeny malformedPayload
      | .ok _ => .wouldAllow

/-- The decision at this time, with the approval that is minted on allow. -/
def decide (e : DefaultPolicyEngine) (now : Nat) (request : SigningRequest) : Decision :=
  match e.decideOutcome request with
  | .wouldDeny r => .deny r
  | .wouldAllow =>
    match request.signingHash with
    | .ok payloadHash => .allow ⟨payloadHash, e.feeCaps, now + e.approvalTtl⟩
    | .error _ => .deny malformedPayload

def evaluate (e : DefaultPolicyEngine) (now : Nat) (request : SigningRequest) :
    Except PolicyEngineError Decision := .ok (e.decide now request)

def validate (e : DefaultPolicyEngine) (request : SigningRequest) :
    Except PolicyEngineError PolicyOutcome := .ok (e.decideOutcome request)

end DefaultPolicyEngine

section Laws

open DefaultPolicyEngine

namespace Policy

theorem spendLimit_guards (maxValue : Nat) : (spendLimit maxValue).Guards := by
  intro request
  unfold spendLimit
  split
  · split <;> simp
  · simp

end Policy

variable {policies : List Policy} {request : SigningRequest}

/-- The loop ends with whether some rule allows, if none denies. -/
theorem fold_eq_ok {allowed b : Bool} : fold request policies allowed = .ok b ↔
    (∀ p ∈ policies, ∀ r, p request ≠ .deny r) ∧
      b = (allowed || policies.any (· request = .allow)) := by
  induction policies generalizing allowed with
  | nil => simp [fold, eq_comm]
  | cons p policies ih =>
    unfold fold
    cases hp : p request with
    | deny r => simp [hp]
    | allow => simp [ih, hp]
    | abstain => simp [ih, hp]

variable [Alloy]

/-- What it takes for a request to pass. -/
structure Permits (policies : List Policy) (request : SigningRequest) : Prop where
  undenied : ∀ p ∈ policies, ∀ r, p request ≠ .deny r
  granted : (∃ p ∈ policies, p request = .allow) ∨ cancelOk request
  hashed : ∃ h, request.signingHash = .ok h

variable {e : DefaultPolicyEngine} {now : Nat}

theorem decideOutcome_eq_wouldAllow :
    e.decideOutcome request = .wouldAllow ↔ Permits e.policies request := by
  unfold decideOutcome
  cases hf : fold request e.policies false with
  | error r =>
    refine ⟨fun h => by simp at h, fun h => ?_⟩
    have hok : fold request e.policies false = .ok _ := fold_eq_ok.mpr ⟨h.undenied, rfl⟩
    rw [hf] at hok
    cases hok
  | ok allowed =>
    obtain ⟨hundenied, hallowed⟩ := fold_eq_ok.mp hf
    have hgranted : (∃ p ∈ e.policies, p request = .allow) ↔ allowed = true := by
      simp [hallowed]
    dsimp only
    split
    · rename_i hnone
      refine ⟨fun h => by simp at h, fun h => ?_⟩
      have hsome := h.granted
      rw [hgranted] at hsome
      rcases hsome with hsome | hsome <;> simp [hsome] at hnone
    · rename_i hsome
      have hg : allowed = true ∨ cancelOk request := by
        cases ha : allowed with
        | true => exact .inl rfl
        | false => exact .inr (by simpa [ha] using hsome)
      cases hh : request.signingHash with
      | error err =>
        exact ⟨fun h => by simp at h, fun ⟨_, _, h, hok⟩ => by rw [hh] at hok; cases hok⟩
      | ok h => exact ⟨fun _ => ⟨hundenied, hg.imp_left hgranted.mpr, h, hh⟩, fun _ => rfl⟩

/-- An approval is minted exactly when the dry run would allow, for the hash of the request. -/
theorem decide_eq_allow {approval : PolicyApproval} : e.decide now request = .allow approval ↔
    e.decideOutcome request = .wouldAllow ∧ ∃ h, request.signingHash = .ok h ∧
      approval = ⟨h, e.feeCaps, now + e.approvalTtl⟩ := by
  unfold DefaultPolicyEngine.decide
  cases e.decideOutcome request with
  | wouldDeny r => simp
  | wouldAllow => cases request.signingHash <;> simp [eq_comm]

theorem decide_eq_deny {r : PolicyRejection} : e.decide now request = .deny r ↔
    e.decideOutcome request = .wouldDeny r := by
  unfold DefaultPolicyEngine.decide
  cases ho : e.decideOutcome request with
  | wouldDeny r' => simp
  | wouldAllow =>
    obtain ⟨h, hh⟩ := (decideOutcome_eq_wouldAllow.mp ho).hashed
    simp [hh]

/-- The engine allows the request. -/
def Allows (e : DefaultPolicyEngine) (now : Nat) (request : SigningRequest) : Prop :=
  ∃ approval, e.evaluate now request = .ok (.allow approval)

theorem allows_iff : Allows e now request ↔ Permits e.policies request := by
  unfold Allows evaluate
  simp only [Except.ok.injEq, decide_eq_allow, decideOutcome_eq_wouldAllow]
  refine ⟨fun ⟨_, hp, _⟩ => hp, fun hp => ?_⟩
  obtain ⟨h, hh⟩ := hp.hashed
  exact ⟨_, hp, h, hh, rfl⟩

omit [Alloy] in
theorem cancelOk_iff : cancelOk request ↔
    ∃ i, request = .cancel i ∧ i.to = .call i.account ∧ i.value = 0 ∧ i.input = [] := by
  cases request with
  | cancel i => simp [cancelOk, TxIntent.isSelfSend, and_assoc]
  | transaction | message | typedData => simp [cancelOk]

omit [Alloy] in
theorem mem_insert_of_mem {before after : List Policy} {p q : Policy} (hq : q ∈ before ++ after) :
    q ∈ before ++ p :: after :=
  ((List.Sublist.refl before).append (List.sublist_cons_self p after)).subset hq

/-- A rule that does not allow the request only makes it harder to pass. -/
theorem Permits.of_insert {before after : List Policy} {p : Policy} (hp : p request ≠ .allow)
    (h : Permits (before ++ p :: after) request) : Permits (before ++ after) request := by
  refine ⟨fun q hq => h.undenied q (mem_insert_of_mem hq), h.granted.imp_left ?_, h.hashed⟩
  rintro ⟨q, hq, hallow⟩
  refine ⟨q, ?_, hallow⟩
  have hne : q ≠ p := by
    rintro rfl
    exact hp hallow
  simpa [hne] using hq

/-- A rule that does not deny the request only makes it easier. -/
theorem Permits.insert {before after : List Policy} {p : Policy} (hp : ∀ r, p request ≠ .deny r)
    (h : Permits (before ++ after) request) : Permits (before ++ p :: after) request := by
  refine ⟨fun q hq => ?_, h.granted.imp_left ?_, h.hashed⟩
  · rcases List.mem_append.mp hq with hq | hq
    · exact h.undenied q (by simp [hq])
    · rcases List.mem_cons.mp hq with rfl | hq
      · exact hp
      · exact h.undenied q (by simp [hq])
  · rintro ⟨q, hq, hallow⟩
    exact ⟨q, mem_insert_of_mem hq, hallow⟩

/-- **The laws of the fold.** A request passes exactly when no rule denies it, some rule allows it
or it is a cancel by an empty self-send, and it has a hash, which the approval then binds. The dry
run agrees, rejection included. The order of the rules does not matter to what passes. A further
rule that never allows can only deny more, and one that never denies can only allow more. -/
theorem policy_fold_laws (e : DefaultPolicyEngine) (now : Nat) (request : SigningRequest) :
    (Allows e now request ↔ (∀ p ∈ e.policies, ∀ r, p request ≠ .deny r) ∧
      ((∃ p ∈ e.policies, p request = .allow) ∨
        ∃ i, request = .cancel i ∧ i.to = .call i.account ∧ i.value = 0 ∧ i.input = []) ∧
      ∃ h, request.signingHash = .ok h) ∧
    (∀ approval, e.evaluate now request = .ok (.allow approval) →
      request.signingHash = .ok approval.payloadHash) ∧
    (e.validate request = .ok .wouldAllow ↔ Allows e now request) ∧
    (∀ r, e.validate request = .ok (.wouldDeny r) ↔ e.evaluate now request = .ok (.deny r)) ∧
    (∀ policies, policies.Perm e.policies →
      (Allows { e with policies := policies } now request ↔ Allows e now request)) ∧
    ∀ before after p, e.policies = before ++ after →
      (p.Guards → Allows { e with policies := before ++ p :: after } now request →
        Allows e now request) ∧
      (p.Grants → Allows e now request →
        Allows { e with policies := before ++ p :: after } now request) := by
  refine ⟨?_, fun approval h => ?_, ?_, fun r => ?_, fun policies hperm => ?_,
    fun before after p hsplit => ⟨fun hp h => ?_, fun hp h => ?_⟩⟩
  · rw [allows_iff, ← cancelOk_iff]
    exact ⟨fun h => ⟨h.undenied, h.granted, h.hashed⟩, fun ⟨h, h', h''⟩ => ⟨h, h', h''⟩⟩
  · obtain ⟨-, hash, hh, rfl⟩ := decide_eq_allow.mp (Except.ok.inj h)
    exact hh
  · rw [allows_iff, ← decideOutcome_eq_wouldAllow]
    simp [validate]
  · simp [validate, evaluate, decide_eq_deny]
  · rw [allows_iff, allows_iff]
    have hmem : ∀ p, p ∈ policies ↔ p ∈ e.policies := fun p => hperm.mem_iff
    constructor
    · exact fun h => ⟨fun p hp => h.undenied p ((hmem p).mpr hp), by simpa [hmem] using h.granted,
        h.hashed⟩
    · exact fun h => ⟨fun p hp => h.undenied p ((hmem p).mp hp), by simpa [hmem] using h.granted,
        h.hashed⟩
  · rw [allows_iff] at h ⊢
    rw [hsplit]
    exact Permits.of_insert (hp request) h
  · rw [allows_iff] at h ⊢
    rw [hsplit] at h
    exact h.insert (hp request)

end Laws

end WalletKit
