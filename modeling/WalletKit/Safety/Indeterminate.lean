import WalletKit.Adapters.Submission
import WalletKit.Provenance.Manager
import WalletKit.Runtime.Toy

/-!
# Indeterminate broadcasts

A send whose broadcast may have gone out has to keep its nonce. `Delivery.definitive` says
which deliveries leave no doubt: the request never left, or the other side refused it. The
adapters call three more kinds a rejection (`Delivery.misread`), and the send then gives its
nonce back; for every other delivery it does so only where there is no doubt.
-/
namespace WalletKit

open Machine

/-- The text says that the transaction or its nonce was already accepted. -/
def saysAccepted (text : String) : Bool :=
  (SubmissionError.rpc (.call text false)).isAlreadyAccepted

namespace RawAnswer

/-- The request never left, or the node refused it. -/
def definitive : RawAnswer → Bool
  | .error (.errorResp text) => !saysAccepted text
  | .error (.transport .unsent _ _) => true
  | .error (.transport (.http status) _ _) => status = 401 || status = 403
  | _ => false

/-- A transport failure on the way that is not to be retried, and an answer that does not
decode. -/
def misread : RawAnswer → Bool
  | .error (.transport .lost false text) => !saysAccepted text
  | .error (.transport (.http status) false text) =>
    status ≠ 401 && status ≠ 403 && !saysAccepted text
  | .error (.undecodable text) => !saysAccepted text
  | _ => false

end RawAnswer

namespace HttpResponse

/-- The relay's gate or an error object refused the request. -/
def refused (resp : HttpResponse) : Bool :=
  resp.status = 401 || resp.status = 403 ||
    match resp.parsed with
    | some ⟨_, some message⟩ => !saysAccepted message
    | _ => false

/-- A response that does not parse, or that has neither a result nor an error. -/
def misread (resp : HttpResponse) : Bool :=
  Http.classifyStatus resp.status = .body &&
    match resp.parsed with
    | none | some ⟨none, none⟩ => true
    | _ => false

end HttpResponse

namespace FlashbotsDelivery

/-- Something failed before the request was posted. -/
def unposted (route : Flashbots) (d : FlashbotsDelivery) : Bool :=
  route.blockWindow.isSome && !d.blockNumber.isOk || !d.encoded.isOk || !d.signature.isOk

def definitive (route : Flashbots) (d : FlashbotsDelivery) : Bool :=
  d.unposted route ||
    match d.response with
    | .error e => !e.sent
    | .ok resp => resp.refused

def misread (route : Flashbots) (d : FlashbotsDelivery) : Bool :=
  !d.unposted route &&
    match d.response with
    | .error _ => false
    | .ok resp => resp.misread

end FlashbotsDelivery

namespace ProtectDelivery

/-- No transport to the relay could be built. -/
def unposted (relay : ProtectRelay) (d : ProtectDelivery) : Bool :=
  (match relay with | .custom _ => false | _ => !d.url.isOk) || !d.transport.isOk

def definitive (relay : ProtectRelay) (d : ProtectDelivery) : Bool :=
  d.unposted relay || RawAnswer.definitive d.answer

def misread (relay : ProtectRelay) (d : ProtectDelivery) : Bool :=
  !d.unposted relay && RawAnswer.misread d.answer

end ProtectDelivery

namespace Delivery

/-- On the arm this send takes, the request never left or was refused. -/
def definitive (hasPrivate : Bool) (opts : SubmissionOpts) (d : Delivery) : Bool :=
  match opts.route with
  | .public => RawAnswer.definitive d.mempool
  | .private (.flashbots f) => !hasPrivate || d.flashbots.definitive f
  | .private (.protect p) => !hasPrivate || d.protect.definitive p.relay

/-- The deliveries that are taken for a rejection without being one. -/
def misread (hasPrivate : Bool) (opts : SubmissionOpts) (d : Delivery) : Bool :=
  match opts.route with
  | .public => RawAnswer.misread d.mempool
  | .private (.flashbots f) => hasPrivate && d.flashbots.misread f
  | .private (.protect p) => hasPrivate && d.protect.misread p.relay

end Delivery

section Classifiers

/-- Through alloy, a rejection is a refusal, a request that never left, or a misreading. -/
theorem RawAnswer.rejected_iff (answer : RawAnswer) :
    maybeOut (PublicMempool.submit answer) = false ∧ definitive answer = false ↔
      misread answer := by
  cases answer with
  | ok hash => simp [PublicMempool.submit, Transport.sendRaw, Except.mapError, maybeOut, misread]
  | error e =>
    cases e with
    | errorResp text =>
      simp [PublicMempool.submit, Transport.sendRaw, Except.mapError, maybeOut, misread, definitive,
        AlloyError.rpcErr, AlloyError.text, saysAccepted, SubmissionError.isTransient]
    | undecodable text =>
      simp [PublicMempool.submit, Transport.sendRaw, Except.mapError, maybeOut, misread, definitive,
        AlloyError.rpcErr, AlloyError.text, saysAccepted, SubmissionError.isTransient]
    | transport kind retry text =>
      cases kind <;> cases retry <;>
        simp [PublicMempool.submit, Transport.sendRaw, Except.mapError, maybeOut, misread,
          definitive, AlloyError.rpcErr, AlloyError.text, saysAccepted,
          SubmissionError.isTransient, and_comm, and_assoc]

theorem Http.classifyStatus_unauthorized {status : Nat} :
    classifyStatus status = .unauthorized ↔ status = 401 ∨ status = 403 := by
  unfold classifyStatus
  split_ifs <;> simp_all

/-- A response of a relay: refused by its gate or by an error object, or misread. -/
theorem HttpResponse.rejected_iff (resp : HttpResponse) :
    maybeOut (PrivateMev.classifyFlashbots resp) = false ∧ resp.refused = false ↔
      resp.misread := by
  obtain ⟨status, statusText, body, parsed⟩ := resp
  cases hclass : Http.classifyStatus status with
  | unauthorized =>
    rcases Http.classifyStatus_unauthorized.mp hclass with rfl | rfl <;>
      simp [refused, misread, hclass]
  | transient =>
    simp [PrivateMev.classifyFlashbots, misread, hclass, maybeOut, SubmissionError.isTransient]
  | body =>
    have hopen : status ≠ 401 ∧ status ≠ 403 := by
      rw [← not_or, ← Http.classifyStatus_unauthorized, hclass]
      simp
    match parsed with
    | none =>
      simp [PrivateMev.classifyFlashbots, refused, misread, hclass, maybeOut, hopen,
        PrivateMev.rejected, SubmissionError.isTransient, SubmissionError.isAlreadyAccepted]
    | some ⟨none, none⟩ =>
      simp [PrivateMev.classifyFlashbots, refused, misread, hclass, maybeOut, hopen,
        PrivateMev.rejected, SubmissionError.isTransient, SubmissionError.isAlreadyAccepted]
    | some ⟨some hash, none⟩ =>
      simp [PrivateMev.classifyFlashbots, misread, hclass, maybeOut]
    | some ⟨_, some message⟩ =>
      by_cases hsays : saysAccepted message
      · have : (SubmissionError.rpc (.call message false)).isAlreadyAccepted := hsays
        simp [PrivateMev.classifyFlashbots, misread, hclass, maybeOut, this]
      · simp [refused, misread, hsays]

/-- A Flashbots submit that got as far as the post is decided by the response. -/
theorem FlashbotsDelivery.sendFlashbots_posted {route : Flashbots} {d : FlashbotsDelivery}
    (hposted : d.unposted route = false) : PrivateMev.sendFlashbots route d =
      (d.response.mapError PrivateMev.netErr).bind PrivateMev.classifyFlashbots := by
  obtain ⟨number, encoded, signature, response⟩ := d
  simp only [unposted, Bool.or_eq_false_iff, Bool.and_eq_false_imp, Bool.not_eq_false'] at hposted
  obtain ⟨⟨hnumber, hencoded⟩, hsignature⟩ := hposted
  cases encoded with
  | error e => cases hencoded
  | ok bytes =>
    cases signature with
    | error e => cases hsignature
    | ok header =>
      cases hwindow : route.blockWindow with
      | none => simp [PrivateMev.sendFlashbots, hwindow]; rfl
      | some window =>
        cases number with
        | error e => simp [hwindow, Except.isOk, Except.toBool] at hnumber
        | ok n => simp [PrivateMev.sendFlashbots, hwindow]; rfl

theorem FlashbotsDelivery.rejected_iff (route : Flashbots) (d : FlashbotsDelivery) :
    maybeOut (PrivateMev.sendFlashbots route d) = false ∧ d.definitive route = false ↔
      d.misread route := by
  cases hposted : d.unposted route with
  | true => simp [definitive, misread, hposted]
  | false =>
    rw [sendFlashbots_posted hposted]
    cases hresp : d.response with
    | error e =>
      simp [definitive, misread, hposted, hresp, Except.mapError, Except.bind, PrivateMev.netErr,
        maybeOut, SubmissionError.isTransient]
    | ok resp =>
      simpa [definitive, misread, hposted, hresp, Except.mapError, Except.bind] using
        resp.rejected_iff

theorem ProtectDelivery.rejected_iff (p : Protect) (d : Delivery) :
    maybeOut (PrivateMev.submit (.protect p) d) = false ∧ d.protect.definitive p.relay = false ↔
      d.protect.misread p.relay := by
  cases hposted : d.protect.unposted p.relay with
  | true => simp [definitive, misread, hposted]
  | false =>
    have hsend : PrivateMev.submit (.protect p) d = PublicMempool.submit d.protect.answer := by
      obtain ⟨relay, escalation⟩ := p
      obtain ⟨mempool, flashbots, url, transport, answer⟩ := d
      simp only [unposted, Bool.or_eq_false_iff, Bool.not_eq_false'] at hposted
      cases transport with
      | error e => cases hposted.2
      | ok u =>
        cases relay with
        | custom url => rfl
        | mevBlocker | bloxroute =>
          cases url with
          | error e => cases hposted.1
          | ok u => rfl
    rw [hsend]
    simpa [definitive, misread, hposted] using RawAnswer.rejected_iff d.protect.answer

/-- What the router reports as a rejection is one, or is misread. -/
theorem Delivery.rejected_iff (hasPrivate : Bool) (opts : SubmissionOpts) (d : Delivery) :
    maybeOut (Router.submit hasPrivate opts d) = false ∧ d.definitive hasPrivate opts = false ↔
      d.misread hasPrivate opts := by
  unfold Router.submit definitive misread
  match opts.route with
  | .public => exact RawAnswer.rejected_iff _
  | .private (.flashbots f) =>
    cases hasPrivate with
    | false => simp
    | true => simpa [PrivateMev.submit] using FlashbotsDelivery.rejected_iff f d.flashbots
  | .private (.protect p) =>
    cases hasPrivate with
    | false => simp
    | true => simpa using ProtectDelivery.rejected_iff p d

end Classifiers

section Sends

variable {reply : Except SubmissionError TxHash} {doubtless : Bool}

/-- The program has broadcast. -/
def Submitted (past : List PortEvent) : Prop :=
  ∃ e ∈ past, ∃ rlp opts site, e.op = .submit rlp opts site

/-- The steps of giving up a send: its record becomes a failure, its nonce is given back. -/
def GivesUp : Op → Prop
  | .putHandle _ (.rejected _) | .loadNonceState _ | .casNonceState _ _ _ _ _ => True
  | _ => False

/-- A broadcast is answered as told, everything else at will. After a broadcast, a send is
given up only if there is no doubt. -/
def submitAnswered (reply : Except SubmissionError TxHash) (doubtless : Bool) :
    Spec ports (List PortEvent) where
  step past o r past' := past' = past ++ [⟨o, r⟩] ∧
    ∀ rlp opts site r', (⟨o, r⟩ : PortEvent) = ev (.submit rlp opts site) r' → r' = reply
  owes past o := GivesUp o → Submitted past → doubtless
  stuck _ := True

theorem asks_submitAnswered {o : Op} {Q : o.Reply → List PortEvent → Prop}
    {past : List PortEvent} (ho : ∀ rlp opts site, o ≠ .submit rlp opts site) :
    Spec.Asks (submitAnswered reply doubtless) o Q past ↔
      (GivesUp o → Submitted past → doubtless) ∧ ∀ r, Q r (past ++ [ev o r]) := by
  refine and_congr_right fun _ => ⟨fun h r => h r _ ⟨rfl, fun rlp opts site r' he => ?_⟩,
    fun h r past' hstep => hstep.1 ▸ h r⟩
  exact absurd (congrArg Event.op he) (ho rlp opts site)

theorem asks_submitAnswered_submit {rlp : Bytes} {opts : SubmissionOpts} {site : SubmitSite}
    {Q : Except SubmissionError TxHash → List PortEvent → Prop} {past : List PortEvent} :
    Spec.Asks (submitAnswered reply doubtless) (.submit rlp opts site) Q past ↔
      Q reply (past ++ [ev (.submit rlp opts site) reply]) := by
  constructor
  · intro h
    refine h.2 reply _ ⟨rfl, fun rlp opts site r' he => ?_⟩
    cases he
    rfl
  · refine fun h => ⟨fun hg => hg.elim, ?_⟩
    rintro r past' ⟨rfl, hr⟩
    rw [hr rlp opts site r rfl]
    exact h

variable [Alloy] {m : TransactionManager}

/-- After an answered broadcast in doubt, the send ends as sent. -/
def EndsSent (doubtless : Bool) (r : Except TransactionManagerError TxHandle)
    (past : List PortEvent) : Prop :=
  Submitted past → doubtless = false → ∃ wal, r = .ok { wal with status := .sent } ∧
    ∃ written, ev (.putHandle { wal with status := .sent } (.sent wal)) written ∈ past

/-- Whatever the other ports answer, a send that is told `reply` for its broadcast gives its
nonce back and reports failure only if there is no doubt, and otherwise ends as sent. -/
def KeepsNonce (m : TransactionManager) (intent : TxIntent) (gasLimit : Nat)
    (fees : Eip1559Estimation) (nonce : Nat) (approval : PolicyApproval) (opts : SubmissionOpts)
    (context : Option MetaContext) (origin : Origin) (reply : Except SubmissionError TxHash)
    (doubtless : Bool) : Prop :=
  (m.buildSignSubmit intent gasLimit fees nonce approval opts context origin).run.wp
    (submitAnswered reply doubtless) (EndsSent doubtless) []

omit [Alloy] in
theorem submitted_snoc {past : List PortEvent} {e : PortEvent} : Submitted (past ++ [e]) ↔
    Submitted past ∨ ∃ rlp opts site, e.op = .submit rlp opts site := by
  simp [Submitted, or_and_right, exists_or]

omit [Alloy] in
/-- Giving the nonce back where nothing was broadcast, or where there is no doubt. -/
theorem recycle_allowed {a : Address} {n : Nat} {past : List PortEvent}
    (hpast : Submitted past → doubtless) :
    (m.recycle a n).wp (submitAnswered reply doubtless)
      (fun _ past => Submitted past → doubtless) past := by
  refine Prog.wp_of_ops (P := fun past => Submitted past → doubtless)
    (TransactionManager.recycle_ops a n) (fun o past _ hp _ => hp) (fun _ _ => trivial)
    (fun o past r past' ho hp hstep hs => ?_) hpast
  rw [hstep.1, submitted_snoc] at hs
  refine hp (hs.resolve_right ?_)
  rintro ⟨rlp, opts, site, rfl⟩
  exact ho

omit [Alloy] in
/-- The end of a send, from its broadcast on. -/
theorem submitWal_keeps_iff {wal : TxHandle} {origin : Origin} {past : List PortEvent} :
    (m.submitWal wal origin).run.wp (submitAnswered reply doubtless) (EndsSent doubtless) past ↔
      (maybeOut reply = false → doubtless) := by
  have hsubmitted : ∀ {past : List PortEvent} {rlp opts site r},
      Submitted (past ++ [ev (.submit rlp opts site) r]) := fun {past rlp opts site r} =>
    ⟨ev (.submit rlp opts site) r, by simp, rlp, opts, site, rfl⟩
  have sent : ∀ past, (liftM (TransactionManager.recordSent wal) : SendM TxHandle).run.wp
      (submitAnswered reply doubtless) (EndsSent doubtless) past := by
    intro past
    unfold TransactionManager.recordSent
    simp only [Prog.wp_run_lift, Prog.wp_bind, StateStore.wp_putHandle, Prog.wp_pure,
      asks_submitAnswered, ne_eq, reduceCtorEq, not_false_eq_true, implies_true]
    exact ⟨fun hg => hg.elim, fun r _ _ => ⟨wal, rfl, r, by simp⟩⟩
  unfold TransactionManager.submitWal
  simp only [Prog.wp_run_bind, Prog.wp_run_lift, Submission.wp_submit, asks_submitAnswered_submit]
  cases reply with
  | ok hash => simpa [maybeOut] using sent _
  | error e =>
    dsimp only
    split
    · rename_i hout
      simpa [maybeOut, hout] using sent _
    · rename_i hout
      unfold TransactionManager.rejectSend
      simp only [Prog.wp_run_bind, Prog.wp_run_lift, StateStore.wp_putHandle, asks_submitAnswered,
        ne_eq, reduceCtorEq, not_false_eq_true, implies_true]
      refine ⟨fun h _ => h.1 trivial hsubmitted, fun h => ?_⟩
      have hd : doubtless = true := h (by simpa [maybeOut] using hout)
      exact ⟨fun _ _ => hd, fun r => Prog.wp_mono (recycle_allowed fun _ => hd)
        fun _ _ _ _ hf => by simp [hd] at hf⟩

variable {intent : TxIntent} {gasLimit nonce : Nat} {fees : Eip1559Estimation}
  {approval : PolicyApproval} {opts : SubmissionOpts} {context : Option MetaContext}
  {origin : Origin}

/-- A send keeps its nonce where what it takes for a rejection leaves no doubt. -/
theorem keepsNonce_iff : KeepsNonce m intent gasLimit fees nonce approval opts context origin
    reply doubtless ↔ (maybeOut reply = false → doubtless) := by
  -- before the broadcast, giving up is always allowed
  have early : ∀ {past : List PortEvent} {e : TransactionManagerError}, ¬Submitted past →
      (m.recycle intent.account nonce).wp (submitAnswered reply doubtless)
        (fun _ => EndsSent doubtless (.error e)) past := fun hp =>
    Prog.wp_mono (recycle_allowed fun hs => absurd hs hp) fun _ _ hd hs hf => by simp [hd hs] at hf
  unfold KeepsNonce TransactionManager.buildSignSubmit Signing.signEncode
  simp only [Prog.wp_run_bind, Prog.wp_run_lift, Prog.wp_run_outcome, Prog.wp_run_orThrow,
    Prog.wp_run_pure, Clock.wp_nowUnix, Signer.wp_signTransaction, StateStore.wp_putHandle,
    submitWal_keeps_iff, asks_submitAnswered, ne_eq, reduceCtorEq, not_false_eq_true,
    implies_true, Prog.forall_except, Except.mapError]
  constructor
  · intro h
    exact ((h.2 0).2.2 []).2.2 ()
  · intro h
    refine ⟨fun hg => hg.elim, fun now => ⟨fun hg => hg.elim, fun e => early ?_, fun signature =>
      ⟨fun hg => hg.elim, fun e => early ?_, fun _ => h⟩⟩⟩
    all_goals simp [Submitted, ev]

/-- **Indeterminate submits keep the nonce**: however a broadcast through the router is
delivered, `build_sign_submit` gives the nonce back and reports failure only if the request
never left or was refused, and otherwise ends as sent, if and only if the delivery is not
one of those that are misread as a rejection. -/
theorem indeterminate_submit_keeps_nonce_iff (hasPrivate : Bool) (d : Delivery) :
    KeepsNonce m intent gasLimit fees nonce approval opts context origin
      (Router.submit hasPrivate opts d) (d.definitive hasPrivate opts) ↔
        d.misread hasPrivate opts = false := by
  rw [keepsNonce_iff, ← Bool.not_eq_true (d.misread hasPrivate opts), ← Delivery.rejected_iff,
    not_and, Bool.not_eq_false]

end Sends

section Runs

attribute [local instance] Toy.alloy

/-- A timeout on the way to the public mempool: alloy does not call it retryable. -/
def timedOut : Delivery where
  mempool := .error (.transport .lost false
    "error sending request for url (http://127.0.0.1:8545/)")
  flashbots := ⟨.ok 0, .ok [], .ok "", .error ⟨false, ""⟩⟩
  protect := ⟨.ok "", .ok (), .ok 0⟩

theorem timeout_gives_nonce_back : timedOut.definitive true .default = false ∧
    ¬KeepsNonce Toy.manager Toy.intent 21000 ⟨10, 1⟩ 4 ⟨0, .default, 0⟩ .default none .direct
      (Router.submit true .default timedOut) (timedOut.definitive true .default) := by
  refine ⟨rfl, fun h => ?_⟩
  have := keepsNonce_iff.mp h (by decide +kernel)
  cases this

end Runs

end WalletKit
