import WalletKit.Adapters.GelatoHttp
import WalletKit.Machine.Notes
import WalletKit.Safety.Indeterminate

/-!
# What becomes of what is handed over

A wallet hands over transactions to the mempool or a private relay and signed calls to the managed
relay, and gets back what the adapters make of the outcome. Whether something may be on its way is
for the outcome to say, not for the error that is made of it: here a run keeps with each answer what
the network did.
-/
namespace WalletKit

open Machine

namespace GelatoRelay

/-- The relay refused the call: its gate did, or it answered that the request is at fault. -/
def refused : Except String PostResponse → Bool
  | .error _ => false
  | .ok resp => resp.status = 401 || resp.status = 403 ||
      400 ≤ resp.status && resp.status < 500 && resp.status ≠ 429 && resp.taskId.isNone

/-- A response that is taken for a refusal without being one: it is no client error, and no task id
can be read from its body. -/
def misread : Except String PostResponse → Bool
  | .error _ => false
  | .ok resp => Http.classifyStatus resp.status = .body && resp.taskId.isNone &&
      !(400 ≤ resp.status && resp.status < 500)

/-- What is reported as a rejection is a refusal, or is misread. -/
theorem rejected_iff (post : Except String PostResponse) :
    (∃ message, submitted post = .error (.rejected message)) ∧ refused post = false ↔
      misread post := by
  cases post with
  | error text => simp [submitted, netErr, misread]
  | ok resp =>
    obtain ⟨status, statusText, body, taskId⟩ := resp
    cases hclass : Http.classifyStatus status with
    | unauthorized =>
      rcases Http.classifyStatus_unauthorized.mp hclass with rfl | rfl <;>
        simp [refused, misread, hclass]
    | transient => simp [submitted, misread, hclass]
    | body =>
      have hopen : status ≠ 401 ∧ status ≠ 403 ∧ status ≠ 429 := by
        unfold Http.classifyStatus at hclass
        split_ifs at hclass
        omega
      cases taskId with
      | some task => simp [submitted, misread, hclass]
      | none => simp [submitted, refused, misread, hclass, hopen, imp_iff_not_or]

end GelatoRelay

/-- What the network does with a transaction and with a posted call. -/
structure Network where
  delivery : Delivery
  post : Except String PostResponse

/-- A network that takes every transaction and loses every posted call. -/
instance : Inhabited Network where
  default := ⟨⟨.ok 0, ⟨.ok 0, .ok [], .ok "", .error ⟨false, ""⟩⟩, ⟨.ok "", .ok (), .ok 0⟩⟩,
    .error ""⟩

/-- The options of a broadcast and the answer to it. -/
def submitted? : PortEvent → Option (SubmissionOpts × Except SubmissionError TxHash)
  | ⟨.submit _ opts _, r⟩ => some (opts, r)
  | _ => none

/-- The answer to a call that is posted to the managed relay. -/
def posted? : PortEvent → Option (Except RelayError TaskId)
  | ⟨.gelatoSubmit _ _, r⟩ => some r
  | _ => none

namespace Network

variable (hasPrivate : Bool) (net : Network)

/-- The answer is what the adapters make of what the network did. -/
def Reports (e : PortEvent) : Prop :=
  (∀ b ∈ submitted? e, b.2 = Router.submit hasPrivate b.1 net.delivery) ∧
    ∀ r ∈ posted? e, r = GelatoRelay.submitted net.post

/-- What the ports answer over this network, where they answer `others` otherwise. -/
def answering (others : (o : Op) → Option o.Reply) : (o : Op) → Option o.Reply
  | .submit _ opts _ => some (Router.submit hasPrivate opts net.delivery)
  | .gelatoSubmit _ _ => some (GelatoRelay.submitted net.post)
  | o => others o

/-- What was handed over may be on its way: it did leave, and was not refused. -/
def leavesOpen : Op → Bool
  | .submit _ opts _ => !net.delivery.definitive hasPrivate opts
  | .gelatoSubmit _ _ => !GelatoRelay.refused net.post
  | _ => false

/-- No broadcast is taken for a rejection without being one. -/
def readsBroadcasts : Op → Bool
  | .submit _ opts _ => !net.delivery.misread hasPrivate opts
  | _ => true

/-- Nothing is taken for a rejection without being one: no broadcast, no posted call, and what is
said to be underpriced was refused. -/
def readsRefusals : Op → Bool
  | .submit _ opts _ => !net.delivery.misread hasPrivate opts &&
      (net.delivery.definitive hasPrivate opts ||
        match Router.submit hasPrivate opts net.delivery with
        | .ok _ => true
        | .error e => !e.isUnderpriced)
  | .gelatoSubmit _ _ => !GelatoRelay.misread net.post
  | _ => true

variable {hasPrivate net}

/-- A broadcast that may be on its way, and is not misread, is not reported as a rejection. -/
theorem maybeOut_of_leavesOpen {rlp : Bytes} {opts : SubmissionOpts} {site : SubmitSite}
    {r : Except SubmissionError TxHash}
    (hreports : net.Reports hasPrivate (ev (.submit rlp opts site) r))
    (hread : net.delivery.misread hasPrivate opts = false)
    (hopen : net.leavesOpen hasPrivate (.submit rlp opts site)) : maybeOut r := by
  have hr : r = Router.submit hasPrivate opts net.delivery := hreports.1 (opts, r) rfl
  rw [hr]
  rw [← Bool.not_eq_true, ← Delivery.rejected_iff, not_and, Bool.not_eq_false] at hread
  cases hout : maybeOut (Router.submit hasPrivate opts net.delivery) with
  | true => rfl
  | false => simp [leavesOpen, hread hout] at hopen

/-- One that is left open with an error has an error that is transient, and not about its price, or
says that it was accepted already. -/
theorem error_of_leavesOpen {rlp : Bytes} {opts : SubmissionOpts} {site : SubmitSite}
    {e : SubmissionError}
    (hreports : net.Reports hasPrivate (ev (.submit rlp opts site) (.error e)))
    (hread : net.readsRefusals hasPrivate (.submit rlp opts site))
    (hopen : net.leavesOpen hasPrivate (.submit rlp opts site)) :
    e.isAlreadyAccepted = true ∨ e.isTransient = true ∧ e.isUnderpriced = false := by
  have hsubmit : Except.error e = Router.submit hasPrivate opts net.delivery :=
    hreports.1 (opts, .error e) rfl
  have hdoubt : net.delivery.definitive hasPrivate opts = false := by simpa [leavesOpen] using hopen
  simp only [readsRefusals, ← hsubmit, hdoubt, Bool.false_or, Bool.and_eq_true,
    Bool.not_eq_true'] at hread
  have hout := maybeOut_of_leavesOpen hreports hread.1 hopen
  simp only [maybeOut, Bool.or_eq_true] at hout
  rcases hout with htransient | haccepted
  · exact .inr ⟨htransient, hread.2⟩
  · exact .inl haccepted

/-- A posted call that the relay is said to have rejected is not on its way. -/
theorem rejected_not_open {call : GelatoCall} {signature : SignatureEnvelope} {message : String}
    (hreports : net.Reports hasPrivate
      (ev (.gelatoSubmit call signature) (.error (.rejected message))))
    (hread : net.readsRefusals hasPrivate (.gelatoSubmit call signature)) :
    net.leavesOpen hasPrivate (.gelatoSubmit call signature) = false := by
  have hpost := hreports.2 (.error (.rejected message)) rfl
  simp only [readsRefusals, Bool.not_eq_true', ← Bool.not_eq_true (GelatoRelay.misread _),
    ← GelatoRelay.rejected_iff, not_and, Bool.not_eq_false] at hread
  simp [leavesOpen, hread ⟨message, hpost.symm⟩]

end Network

section Runs

variable {C α : Type}

/-- A world, and what the network has done for each call. -/
abbrev Wired := Noted ports World Network

/-- The note is on something that may be on its way. -/
def leftOpen (hasPrivate : Bool) (n : PortEvent × Network) : Bool :=
  n.2.leavesOpen hasPrivate n.1.op

/-- A system over a network whose outcomes are read as `reads` says. -/
abbrev overNetwork (S : System ports World C α) (hasPrivate : Bool)
    (reads : Bool → Network → Op → Bool) : System ports Wired C α :=
  S.noted fun net e => net.Reports hasPrivate e ∧ reads hasPrivate net e.op

instance decidableReports (hasPrivate : Bool) (net : Network) (e : PortEvent) :
    Decidable (net.Reports hasPrivate e) :=
  inferInstanceAs (Decidable ((∀ b ∈ submitted? e,
    b.2 = Router.submit hasPrivate b.1 net.delivery) ∧
      ∀ r ∈ posted? e, r = GelatoRelay.submitted net.post))

end Runs

end WalletKit
