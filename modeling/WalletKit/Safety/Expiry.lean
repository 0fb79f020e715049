import WalletKit.Adapters.Policy.MoonPay
import WalletKit.Safety.Approvals

/-!
# Signatures and the end of a policy

The engine compares the end of its policy with the time of an evaluation. A signer compares the
time only with the end of an approval, which is 300 seconds after the evaluation that gave it, and
a bump may be signed under the approval of an earlier bump. So a policy is outlived by the
approvals that are given in its last 300 seconds, and by no others.
-/
namespace WalletKit

open Machine MoonPay

/-- A world with the clock that everybody reads. -/
structure Timed where
  world : World
  time : Nat

section Law

variable [Alloy]

/-- What the clock, the engine and the signers answer at a time. -/
def AnsweredAt (engine : MoonPayPolicyEngine) (keys : Address → LocalSigner) (time : Nat) :
    PortEvent → Prop
  | ⟨.nowUnix, r⟩ => (r : Nat) = time
  | ⟨.evaluate _ request, r⟩ => r = engine.evaluate time request
  | e => SignedLocally keys e

/-- Calls in any interleaving, where each answer is given at a time that is not before the last
one. -/
def timedCalls (engine : MoonPayPolicyEngine) (keys : Address → LocalSigner)
    (timely : Nat → Op → Bool) : System ports Timed Call CallResult where
  Choice := Nat
  body := Call.client.body
  admits _ _ := True
  allow p _ t o r := p.world.world.can ⟨o, r⟩ ∧ p.world.time ≤ t ∧
    AnsweredAt engine keys t ⟨o, r⟩ ∧ timely t o
  next w t o r := ⟨w.world.apply ⟨o, r⟩, t⟩

/-- Nothing has been called yet at this time. -/
def startAt (t : Nat) : Pool ports Timed Call CallResult := ⟨⟨.initial, t⟩, []⟩

/-- Nothing is evaluated in the last 300 seconds of the policy. -/
def MoonPayPolicyEngine.evaluatesEarly (e : MoonPayPolicyEngine) (t : Nat) : Op → Bool
  | .evaluate _ _ => e.expiry.all fun exp => (t : Int) + approvalTtl ≤ exp || exp < t
  | _ => true

variable {engine : MoonPayPolicyEngine} {keys : Address → LocalSigner} {timely : Nat → Op → Bool}
  {t₀ : Nat} {p : Pool ports Timed Call CallResult}

theorem timedCalls_runs : Call.client.Runs (timedCalls engine keys timely) Timed.world where
  can ha := ha.1
  next _ := rfl
  body := rfl

omit [Alloy] in
theorem fresh_startAt : Backed.Fresh Timed.world (startAt t₀) := ⟨rfl, rfl⟩

/-- Each logged answer was given at a time that suits it. -/
theorem log_timely (h : (timedCalls engine keys timely).Reaches (startAt t₀) p) {e : PortEvent}
    (he : e ∈ p.world.world.log) : ∃ t, AnsweredAt engine keys t e ∧ timely t e.op := by
  obtain ⟨l, l', hl⟩ := List.append_of_mem he
  exact timedCalls_runs.log_answered
    (K := fun _ e => ∃ t, AnsweredAt engine keys t e ∧ timely t e.op)
    fresh_startAt (fun {_ _ t _ _} ha => ⟨t, ha.2.2⟩) h l e l' hl

/-- Everything is signed in the lifetime of an approval that the engine has given. -/
theorem signed_of_evaluated (h : (timedCalls engine keys timely).Reaches (startAt t₀) p)
    {signer : Address} {tx : TxEip1559} {intentHash : B256} {approval : PolicyApproval} {now : Nat}
    {signature : Signature}
    (hs : ev (.signTransaction signer tx intentHash approval now) (.ok signature) ∈
      p.world.world.log) :
    ∃ (t : Nat) (policy : PolicyId) (request : SigningRequest),
      engine.evaluate t request = .ok (.allow approval) ∧ timely t (.evaluate policy request) ∧
      now ≤ t + approvalTtl := by
  obtain ⟨policy, request, hallow⟩ := Call.given_of_signed timedCalls_runs fresh_startAt h hs
  obtain ⟨t, hanswer, htimely⟩ := log_timely h hallow
  obtain ⟨_, hsigned, -⟩ := log_timely h hs
  obtain ⟨-, hvalid, -⟩ := LocalSigner.signTransaction_ok (Eq.symm hsigned)
  have heval : engine.evaluate t request = .ok (.allow approval) := Eq.symm hanswer
  refine ⟨t, policy, request, heval, htimely, ?_⟩
  rw [(MoonPayPolicyEngine.evaluate_allow heval).1] at hvalid
  simpa using hvalid

/-- **No signature after the end of a policy** that evaluates nothing in its last 300 seconds:
neither first transactions nor bumps under an approval from the cache. -/
theorem no_signature_after_expiry {rfc3339 : String → Except String Int} {policy : List RawRule}
    {executable : Option WasmPlugin} {timestamp : String}
    (hnew : MoonPayPolicyEngine.new rfc3339 policy executable = .ok engine)
    (hmem : .expiresAt timestamp ∈ policy)
    (h : (timedCalls engine keys engine.evaluatesEarly).Reaches (startAt t₀) p) :
    ∃ exp, engine.expiry = some exp ∧ ∀ signer tx intentHash approval now signature,
      ev (.signTransaction signer tx intentHash approval now) (.ok signature) ∈ p.world.world.log →
        (now : Int) ≤ exp := by
  obtain ⟨exp, hexp⟩ := MoonPayPolicyEngine.exists_expiry hnew hmem
  refine ⟨exp, hexp, fun signer tx intentHash approval now signature hs => ?_⟩
  obtain ⟨t, policy, request, heval, hearly, hnow⟩ := signed_of_evaluated h hs
  have hbefore : (t : Int) ≤ exp := (MoonPayPolicyEngine.evaluate_allow heval).2 exp hexp
  have hlate : (t : Int) + approvalTtl ≤ exp ∨ exp < t := by
    simpa [MoonPayPolicyEngine.evaluatesEarly, hexp] using hearly
  omega

end Law

section Runs

attribute [local instance] Toy.alloy

instance decidableAnsweredAt (engine : MoonPayPolicyEngine) (keys : Address → LocalSigner) (t : Nat)
    (e : PortEvent) : Decidable (AnsweredAt engine keys t e) := by
  unfold AnsweredAt
  split <;> infer_instance

instance (engine : MoonPayPolicyEngine) (timely : Nat → Op → Bool)
    (p : Pool ports Timed Call CallResult) (i : Nat)
    (t : (timedCalls engine Toy.keys timely).Choice)
    (o : ports.Op) (r : ports.Reply o) :
    Decidable ((timedCalls engine Toy.keys timely).allow p i t o r) :=
  haveI := decidableAnsweredAt engine Toy.keys t ⟨o, r⟩
  haveI : Decidable (p.world.time ≤ t) := Nat.decLe _ _
  inferInstanceAs (Decidable (_ ∧ _ ∧ _ ∧ _))

instance (engine : MoonPayPolicyEngine) (timely : Nat → Op → Bool)
    (p : Pool ports Timed Call CallResult) (c : Call) :
    Decidable ((timedCalls engine Toy.keys timely).admits p c) := inferInstanceAs (Decidable True)

/-- A policy that ends at 1100. -/
def Toy.ending : MoonPayPolicyEngine := ⟨[.expiresAtUnix 1100], none⟩

theorem Toy.new_ending :
    MoonPayPolicyEngine.new (fun _ => .ok 1100) [.expiresAt "1970-01-01T00:18:20Z"] none =
      .ok Toy.ending := rfl

/-- The answers at a time. -/
def Toy.at (t : Nat) (w : Timed) : (o : Op) → Option o.Reply :=
  World.serve (fun
    | .evaluate _ request => some (Toy.ending.evaluate t request)
    | .nowUnix => some t
    | o => Toy.calm o) w.world

/-- A send at the first time, and ticks at the two others. -/
def sentAndBumped (timely : Nat → Op → Bool) (t t₁ t₂ : Nat) : Pool ports Timed Call CallResult :=
  System.played (S := timedCalls Toy.ending Toy.keys timely) (startAt t)
    [.spawn (.send Toy.manager Toy.intent .default none), .moves 0 20 t (Toy.at t),
      .spawn (.tick Toy.executor), .moves 1 40 t₁ (Toy.at t₁),
      .spawn (.tick Toy.executor), .moves 2 40 t₂ (Toy.at t₂)]

def signedAt (t : Nat) : PortEvent → Bool
  | ⟨.signTransaction _ _ _ _ now, r⟩ => now = t && (r : Except SignerError Signature).isOk
  | _ => false

theorem exists_of_signedAt {t : Nat} {log : List PortEvent} (h : log.any (signedAt t)) :
    ∃ signer tx intentHash approval signature,
      ev (.signTransaction signer tx intentHash approval t) (.ok signature) ∈ log := by
  obtain ⟨e, he, hsigned⟩ := List.any_eq_true.mp h
  unfold signedAt at hsigned
  split at hsigned
  · rename_i signer tx intentHash approval now r
    obtain ⟨hnow, hok⟩ := (Bool.and_eq_true _ _).mp hsigned
    obtain rfl := of_decide_eq_true hnow
    cases r with
    | error => cases hok
    | ok signature => exact ⟨signer, tx, intentHash, approval, signature, he⟩
  · cases hsigned

theorem no_signature_after_expiry_early : ∃ exp, Toy.ending.expiry = some exp ∧
    ∃ signer tx intentHash approval signature,
      ev (.signTransaction signer tx intentHash approval 790) (.ok signature) ∈
        (sentAndBumped Toy.ending.evaluatesEarly 700 750 790).world.world.log ∧
          (790 : Int) ≤ exp := by
  have hreach : (timedCalls Toy.ending Toy.keys Toy.ending.evaluatesEarly).Reaches (startAt 700)
      (sentAndBumped Toy.ending.evaluatesEarly 700 750 790) := System.reaches_played _ _
  have hlog : (sentAndBumped Toy.ending.evaluatesEarly 700 750 790).world.world.log.any
      (signedAt 790) := by decide +kernel
  obtain ⟨signer, tx, intentHash, approval, signature, hs⟩ := exists_of_signedAt hlog
  obtain ⟨exp, hexp, hlaw⟩ := no_signature_after_expiry Toy.new_ending (.head _) hreach
  exact ⟨exp, hexp, signer, tx, intentHash, approval, signature, hs, hlaw _ _ _ _ _ _ hs⟩

/-- A bump at 1050 is evaluated, and its approval signs the next one after the policy has ended at
1100. -/
theorem bump_signed_after_expiry : ∃ p exp signer tx intentHash approval now signature,
    MoonPayPolicyEngine.new (fun _ => .ok 1100) [.expiresAt "1970-01-01T00:18:20Z"] none =
      .ok Toy.ending ∧ Toy.ending.expiry = some exp ∧
    (timedCalls Toy.ending Toy.keys fun _ _ => true).Reaches (startAt 1000) p ∧
    ev (.signTransaction signer tx intentHash approval now) (.ok signature) ∈ p.world.world.log ∧
    exp < (now : Int) := by
  have hreach : (timedCalls Toy.ending Toy.keys fun _ _ => true).Reaches (startAt 1000)
      (sentAndBumped (fun _ _ => true) 1000 1050 1200) := System.reaches_played _ _
  have hlog : (sentAndBumped (fun _ _ => true) 1000 1050 1200).world.world.log.any
      (signedAt 1200) := by decide +kernel
  obtain ⟨signer, tx, intentHash, approval, signature, hs⟩ := exists_of_signedAt hlog
  exact ⟨_, 1100, signer, tx, intentHash, approval, 1200, signature, Toy.new_ending, rfl,
    hreach, hs, by decide⟩

end Runs

end WalletKit
