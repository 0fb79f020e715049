import WalletKit.Core.Ports

/-!
# The policy engine for Open Wallet Standard documents

`MoonPayPolicyEngine` applies the rules of a policy document in their order and then runs an
optional plugin. A rule can deny, none of them grants. What an RFC 3339 timestamp means and what
a sandboxed plugin answers are left to parameters. The expiry of a policy is looked at when a
request is evaluated, and the approval it leads to lives on for a time of its own.
-/
namespace WalletKit

namespace MoonPay

/-- How long a minted approval stays valid for bumps, in seconds. -/
def approvalTtl : Nat := 300

inductive Rule where
  | allowedChains (chains : List String)
  | expiresAtUnix (exp : Int)
  deriving DecidableEq, Repr

/-- A rule as a document has it. -/
inductive RawRule where
  | allowedChains (chainIds : List String)
  | expiresAt (timestamp : String)
  | other
  deriving DecidableEq, Repr

/-- What a plugin is told. -/
structure PolicyContext where
  chainId : String
  «to» : Option String
  value : String
  data : String
  timestamp : Int
  deriving DecidableEq, Repr

structure ExecDecision where
  allow : Bool
  reason : Option String
  deriving DecidableEq, Repr

/-- A plugin fails, or has an output that is a decision or is not. -/
abbrev WasmPlugin := PolicyContext → Except PolicyEngineError (Except String ExecDecision)

def caip2 (intent : TxIntent) : String := s!"eip155:{intent.chainId}"

def hex (bytes : Bytes) : String := "0x" ++ String.ofList (Json.hex bytes)

def policyContext (intent : TxIntent) (nowUnix : Int) : PolicyContext where
  chainId := caip2 intent
  «to» := match intent.to with
    | .call a => some (hex (beBytes 20 a.toNat))
    | .create => none
  value := toString intent.value
  data := hex intent.input
  timestamp := nowUnix

/-- Why a rule denies an intent at this time. -/
def Rule.violation (intent : TxIntent) (now : Int) : Rule → Option PolicyRejection
  | .allowedChains chains =>
    if caip2 intent ∉ chains then
      some ⟨"allowed_chains", some "chain_id", "chain " ++ caip2 intent ++ " not allowed"⟩
    else none
  | .expiresAtUnix exp =>
    if exp < now then some ⟨"expires_at", none, "authorization expired"⟩ else none

def Rule.expiry : Rule → Option Int
  | .expiresAtUnix exp => some exp
  | .allowedChains _ => none

def unsupportedPayload : PolicyRejection :=
  ⟨"unsupported-payload", none, "this engine evaluates transactions and self-send cancels only"⟩

/-- The intent that is evaluated: cancels are, if they are self-sends. -/
def evaluated : SigningRequest → Option TxIntent
  | .transaction i => some i
  | .cancel i => if i.isSelfSend then some i else none
  | _ => none

end MoonPay

open MoonPay

structure MoonPayPolicyEngine where
  rules : List Rule
  executable : Option WasmPlugin

namespace MoonPayPolicyEngine

/-- The rules of a document that apply to transactions; a timestamp has to be readable. -/
def parseRules (rfc3339 : String → Except String Int) :
    List RawRule → Except PolicyEngineError (List Rule)
  | [] => .ok []
  | .allowedChains chainIds :: raws => do
    let rules ← parseRules rfc3339 raws
    return .allowedChains chainIds :: rules
  | .expiresAt timestamp :: raws =>
    match rfc3339 timestamp with
    | .error e => .error (.load ("invalid expires_at " ++ timestamp.quote ++ ": " ++ e))
    | .ok exp => do
      let rules ← parseRules rfc3339 raws
      return .expiresAtUnix exp :: rules
  | .other :: raws => parseRules rfc3339 raws

def new (rfc3339 : String → Except String Int) (policy : List RawRule)
    (executable : Option WasmPlugin) : Except PolicyEngineError MoonPayPolicyEngine := do
  let rules ← parseRules rfc3339 policy
  return ⟨rules, executable⟩

/-- The verdict of the plugin, if there is one: `none` lets the intent pass. -/
def runExecutable (e : MoonPayPolicyEngine) (intent : TxIntent) (now : Int) :
    Except PolicyEngineError (Option PolicyRejection) :=
  match e.executable with
  | none => .ok none
  | some plugin =>
    match plugin (policyContext intent now) with
    | .error err => .error err
    | .ok (.error err) => .error (.eval ("executable returned invalid decision: " ++ err))
    | .ok (.ok decision) =>
      if decision.allow then .ok none
      else .ok (some ⟨"executable", none, decision.reason.getD "denied"⟩)

variable [Alloy]

def evaluate (e : MoonPayPolicyEngine) (now : Int) (request : SigningRequest) :
    Except PolicyEngineError Decision :=
  match evaluated request with
  | none => .ok (.deny unsupportedPayload)
  | some intent =>
    -- a violated rule denies before the plugin runs
    match e.rules.findSome? (·.violation intent now) with
    | some rejection => .ok (.deny rejection)
    | none =>
      match e.runExecutable intent now with
      | .error err => .error err
      | .ok (some rejection) => .ok (.deny rejection)
      | .ok none => .ok (.allow ⟨intent.hash, .default, (max now 0).toNat + approvalTtl⟩)

omit [Alloy] in
/-- When a policy ends: the earliest of its `expires_at`. -/
def expiry (e : MoonPayPolicyEngine) : Option Int := (e.rules.filterMap Rule.expiry).min?

omit [Alloy] in
theorem mem_parseRules {rfc3339 : String → Except String Int} {timestamp : String} :
    ∀ {raws : List RawRule} {rules : List Rule}, parseRules rfc3339 raws = .ok rules →
      .expiresAt timestamp ∈ raws →
        ∃ exp, rfc3339 timestamp = .ok exp ∧ .expiresAtUnix exp ∈ rules := by
  intro raws
  induction raws with
  | nil => simp
  | cons raw raws ih =>
    intro rules h hmem
    cases raw with
    | allowedChains chainIds =>
      cases hp : parseRules rfc3339 raws with
      | error e => simp [parseRules, hp, bind, Except.bind] at h
      | ok rest =>
        obtain rfl : .allowedChains chainIds :: rest = rules := by
          simpa [parseRules, hp, bind, Except.bind, pure, Except.pure] using h
        obtain ⟨exp, hexp, hin⟩ := ih hp (by simpa using hmem)
        exact ⟨exp, hexp, by simp [hin]⟩
    | expiresAt t =>
      unfold parseRules at h
      split at h
      · cases h
      rename_i exp hexp
      cases hp : parseRules rfc3339 raws with
      | error e => simp [hp, bind, Except.bind] at h
      | ok rest =>
        obtain rfl : .expiresAtUnix exp :: rest = rules := by
          simpa [hp, bind, Except.bind, pure, Except.pure] using h
        rcases List.mem_cons.mp hmem with ht | hmem
        · cases ht
          exact ⟨exp, hexp, by simp⟩
        · obtain ⟨exp', hexp', hin⟩ := ih hp hmem
          exact ⟨exp', hexp', by simp [hin]⟩
    | other => exact ih h (by simpa using hmem)

omit [Alloy] in
/-- A document with an `expires_at` rule gives a policy that ends. -/
theorem exists_expiry {rfc3339 : String → Except String Int} {policy : List RawRule}
    {executable : Option WasmPlugin} {e : MoonPayPolicyEngine} {timestamp : String}
    (hnew : new rfc3339 policy executable = .ok e) (hmem : .expiresAt timestamp ∈ policy) :
    ∃ exp, e.expiry = some exp := by
  cases hp : parseRules rfc3339 policy with
  | error err => simp [new, hp, bind, Except.bind] at hnew
  | ok rules =>
    obtain rfl : (⟨rules, executable⟩ : MoonPayPolicyEngine) = e := by
      simpa [new, hp, bind, Except.bind, pure, Except.pure] using hnew
    obtain ⟨exp, -, hin⟩ := mem_parseRules hp hmem
    refine Option.isSome_iff_exists.mp (List.isSome_min?_of_mem (a := exp) ?_)
    exact List.mem_filterMap.mpr ⟨_, hin, rfl⟩

/-- What is allowed is allowed before the policy ends, for a fixed time. -/
theorem evaluate_allow {e : MoonPayPolicyEngine} {now : Int} {request : SigningRequest}
    {approval : PolicyApproval} (h : e.evaluate now request = .ok (.allow approval)) :
    approval.validUntil = (max now 0).toNat + approvalTtl ∧
      ∀ exp, e.expiry = some exp → now ≤ exp := by
  unfold evaluate at h
  split at h
  · cases h
  split at h
  · cases h
  rename_i intent _ hrules
  split at h
  · cases h
  · cases h
  cases h
  refine ⟨rfl, fun exp hexp => ?_⟩
  obtain ⟨rule, hrule, hr⟩ := List.mem_filterMap.mp (List.min?_mem hexp)
  cases rule with
  | allowedChains chains => cases hr
  | expiresAtUnix exp' =>
    cases hr
    have := List.findSome?_eq_none_iff.mp hrules _ hrule
    simpa [Rule.violation] using this

end MoonPayPolicyEngine

end WalletKit
