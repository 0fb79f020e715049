import WalletKit.Adapters.Signers
import WalletKit.Runtime.Grants
import WalletKit.Runtime.Registry
import WalletKit.Runtime.Toy

/-!
# Approved equals signed

The signer never sees an intent: it is handed a transaction, a hash and an approval. That
what it signs is what the policy engine allowed rests on how stored handles and the cache
of approvals come about. Calls interleave in any way, the engines and all other ports may
answer anything; transactions are signed by local signers.
-/
namespace WalletKit

open Machine Signing

section Intents

/-- The intent a policy engine is asked about. -/
def askedIntent : PortEvent → Option TxIntent
  | ⟨.evaluate _ (.transaction i), _⟩ | ⟨.evaluate _ (.cancel i), _⟩ => some i
  | _ => none

/-- An engine allowed this intent: as a transaction, or as a cancel if it is a self-send of
nothing. -/
def AllowedIntent (log : List PortEvent) (i : TxIntent) (approval : PolicyApproval) : Prop :=
  ∃ policy, Allowed log policy (.transaction i) approval ∨
    i.isSelfSend ∧ Allowed log policy (.cancel i) approval

variable {log past : List PortEvent} {i : TxIntent} {approval : PolicyApproval}

theorem AllowedIntent.mono (ha : AllowedIntent past i approval) (hsub : ∀ e ∈ past, e ∈ log) :
    AllowedIntent log i approval := by
  obtain ⟨policy, ha⟩ := ha
  exact ⟨policy, ha.imp (hsub _) (And.imp_right (hsub _))⟩

theorem allowedIntent_bumpRequest {policy : PolicyId}
    (ha : Allowed past policy (AccountExecutor.bumpRequest i) approval) :
    AllowedIntent past i approval := by
  unfold AccountExecutor.bumpRequest at ha
  split at ha
  · exact ⟨policy, .inr ⟨‹_›, ha⟩⟩
  · exact ⟨policy, .inl ha⟩

/-- An allowed intent is one an engine was asked about. -/
theorem AllowedIntent.asked (ha : AllowedIntent past i approval) :
    ∃ e ∈ past, askedIntent e = some i := by
  obtain ⟨policy, ha | ⟨-, ha⟩⟩ := ha
  · exact ⟨_, ha, rfl⟩
  · exact ⟨_, ha, rfl⟩

end Intents

section Law

variable [Alloy]

/-- The signing calls are answered by local signers. -/
def SignedLocally (keys : Address → LocalSigner) : PortEvent → Prop
  | ⟨.signTransaction signer tx intentHash approval now, r⟩ =>
    r = (keys signer).signTransaction tx intentHash approval now
  | _ => True

instance (keys : Address → LocalSigner) (e : PortEvent) : Decidable (SignedLocally keys e) := by
  unfold SignedLocally
  split <;> infer_instance

/-- No two of the intents that policy engines are asked about have the same hash. -/
def DistinctHashes (w : World) (e : PortEvent) : Prop :=
  ∀ i ∈ askedIntent e, ∀ e' ∈ w.log, ∀ j ∈ askedIntent e', i.hash = j.hash → i = j

/-- The calls of managers and executors with local signers. -/
def localCalls (keys : Address → LocalSigner) : System ports World Call CallResult :=
  Call.client.system fun p _ e => SignedLocally keys e ∧ DistinctHashes p.world e

/-- A transaction that carries out what an engine allowed, within the approval. -/
structure ApprovedTx (log : List PortEvent) (i : TxIntent) (approval : PolicyApproval)
    (now : Nat) (tx : TxEip1559) : Prop where
  allowed : AllowedIntent log i approval
  chainId : tx.chainId = i.chainId
  «to» : tx.to = i.to
  value : tx.value = i.value
  input : tx.input = i.input
  payload : approval.payloadHash = i.hash
  valid : now ≤ approval.validUntil
  fees : approval.gasEnvelope.admits tx.maxFeePerGas tx.maxPriorityFeePerGas

/-- An approval that binds an intent it was given for. -/
def Minted (log : List PortEvent) (approval : PolicyApproval) : Prop :=
  ∃ i, AllowedIntent log i approval ∧ approval.payloadHash = i.hash

variable {keys : Address → LocalSigner} {p : CallPool} {i : TxIntent} {approval : PolicyApproval}

theorem Minted.snoc {log : List PortEvent} (hm : Minted log approval) (e : PortEvent) :
    Minted (log ++ [e]) approval := by
  obtain ⟨i, ha, hpay⟩ := hm
  exact ⟨i, ha.mono fun _ he => List.mem_append_left _ he, hpay⟩

theorem localCalls_runs : Call.client.Runs (localCalls keys) id := Client.system_runs _ _

section Run

variable (h : (localCalls keys).Reaches Client.start p)
include h

/-- Whatever was signed in a run passed the signer's gate. -/
theorem signed_gate {signer : Address} {tx : TxEip1559} {intentHash : B256} {now : Nat}
    {signature : Signature}
    (hs : ev (.signTransaction signer tx intentHash approval now) (.ok signature) ∈ p.world.log) :
    approval.payloadHash = intentHash ∧ now ≤ approval.validUntil ∧
      approval.gasEnvelope.admits tx.maxFeePerGas tx.maxPriorityFeePerGas := by
  obtain ⟨l, l', hl⟩ := List.append_of_mem hs
  have := localCalls_runs.log_answered (K := fun _ => SignedLocally keys) Client.fresh_start
    (fun ha => ha.2.1) h l _ l' hl
  exact LocalSigner.signTransaction_ok this.symm

/-- Different intents that engines were asked about in a run have different hashes. -/
theorem asked_inj {e e' : PortEvent} {j : TxIntent} (he : e ∈ p.world.log)
    (he' : e' ∈ p.world.log) (hi : askedIntent e = some i) (hj : askedIntent e' = some j)
    (hhash : i.hash = j.hash) : i = j := by
  have distinct := localCalls_runs.log_answered (K := DistinctHashes) Client.fresh_start
    (fun ha => ha.2.2) h
  obtain ⟨n, hn⟩ := List.mem_iff_getElem?.mp he
  obtain ⟨n', hn'⟩ := List.mem_iff_getElem?.mp he'
  -- the later of the two questions was asked with the earlier one in the log
  have later : ∀ {a b : Nat} {x y : PortEvent}, a < b → p.world.log[a]? = some x →
      p.world.log[b]? = some y → ∃ l l', p.world.log = l ++ y :: l' ∧ x ∈ l := by
    intro a b x y hab hx hy
    obtain ⟨hb, rfl⟩ := List.getElem?_eq_some_iff.mp hy
    refine ⟨p.world.log.take b, p.world.log.drop (b + 1), by simp, ?_⟩
    exact List.mem_of_getElem? (i := a) (by rw [List.getElem?_take_of_lt hab, hx])
  rcases Nat.lt_trichotomy n n' with hlt | rfl | hlt
  · obtain ⟨l, l', hl, hx⟩ := later hlt hn hn'
    exact (distinct l _ l' hl j hj e (by simpa using hx) i hi hhash.symm).symm
  · rw [hn, Option.some.injEq] at hn'
    subst hn'
    rw [hi, Option.some.injEq] at hj
    exact hj
  · obtain ⟨l, l', hl, hx⟩ := later hlt hn' hn
    exact distinct l _ l' hl i hi e' (by simpa using hx) j hj hhash

/-- Every record has an intent that an engine was asked about. -/
theorem record_asked {th : CallThread} (hth : th ∈ p.threads) {g : TxHandle}
    (hg : Known th.past g) : ∃ e ∈ p.world.log, askedIntent e = some g.intent := by
  have mono : ∀ (l : List PortEvent) e (g : TxHandle),
      (∃ x ∈ l, askedIntent x = some g.intent) → ∃ x ∈ l ++ [e], askedIntent x = some g.intent :=
    fun l e g ⟨x, hx, hask⟩ => ⟨x, List.mem_append_left _ hx, hask⟩
  refine (localCalls_runs.handles (P := fun l g => ∃ e ∈ l, askedIntent e = some g.intent)
    Client.fresh_start mono (fun {p th h' site k role} hreach hth hprog hrole howes hknown =>
      mono _ _ _ ?_) h).2 th hth g hg
  have logged : ∀ e ∈ th.past, e ∈ p.world.log := fun e =>
    localCalls_runs.mem_log Client.fresh_start hreach hth
  cases hb : site.basis with
  | some g =>
    rw [(howes.sameRecord hb).intent]
    exact hknown g (howes.known hb)
  | none =>
    obtain ⟨origin, rfl⟩ | ⟨marked, rfl⟩ := Call.new_site hrole howes hb
    · obtain ⟨m, -, ⟨intent, _, _, _, _, _, _, _, _, -, hallow, -, -, rfl⟩, -⟩ := howes
      exact ⟨_, logged _ hallow, rfl⟩
    · obtain ⟨m, _, _, _, -, rfl, -, ⟨target, rfl, -, -, hallow, -⟩, -⟩ := howes
      exact ⟨_, logged _ hallow, rfl⟩

/-- The approval a bump is signed under binds an intent it was given for. -/
theorem minted_of_bumpSigned {th : CallThread} (hth : th ∈ p.threads)
    (hgot : ∀ x id a, ev (.approvalsGet x id) (some a) ∈ th.past → Minted p.world.log a)
    {e : AccountExecutor} {g : TxHandle} {now : Nat} {rlp : Bytes}
    (hb : BumpSigned th.past e g approval now rlp) : Minted p.world.log approval := by
  obtain ⟨hseen, -, hcached | hfresh, gasLimit, fees, -, -, sig, hsig, -⟩ := hb
  · exact hgot _ _ _ hcached
  · have logged : ∀ e ∈ th.past, e ∈ p.world.log := fun e =>
      localCalls_runs.mem_log Client.fresh_start h hth
    obtain ⟨hpay, -⟩ := signed_gate h (logged _ hsig)
    have hc := (localCalls_runs.coherent Client.fresh_start h).2 th hth g hseen.known
    exact ⟨g.intent, (allowedIntent_bumpRequest hfresh).mono logged, hpay.trans hc.intentHash⟩

end Run

/-- Cached approvals, and those a call has taken from a cache, bind an intent they were
given for. -/
structure CacheSound (p : CallPool) : Prop where
  cached : ∀ x id a, p.world.approvals x id = some a → Minted p.world.log a
  got : ∀ th ∈ p.threads, ∀ x id a, ev (.approvalsGet x id) (some a) ∈ th.past →
    Minted p.world.log a

theorem cacheSound_of_reaches (h : (localCalls keys).Reaches Client.start p) : CacheSound p := by
  obtain ⟨cached, got⟩ := localCalls_runs.approvals (P := Minted) Client.fresh_start
    (fun _ _ _ hm => hm.snoc _) (fun hreach hth hprog got => by
      obtain ⟨role, -, e, g, now, rlp, h', -, -, -, hsigned, -⟩ :=
        localCalls_runs.owes Client.fresh_start hreach hth hprog
      exact minted_of_bumpSigned hreach hth got hsigned) h
  exact ⟨cached, got⟩

/-- A signature over a transaction built from an allowed intent makes it an approved one. -/
theorem approvedTx_of_signed (h : (localCalls keys).Reaches Client.start p) {nonce gasLimit : Nat}
    {fees : Eip1559Estimation} {signer : Address} {now : Nat} {signature : Signature}
    (hallow : AllowedIntent p.world.log i approval)
    (hs : ev (.signTransaction signer (buildTx i nonce gasLimit fees) i.hash approval now)
      (.ok signature) ∈ p.world.log) :
    ApprovedTx p.world.log i approval now (buildTx i nonce gasLimit fees) := by
  obtain ⟨hpay, hvalid, hfees⟩ := signed_gate h hs
  exact ⟨hallow, rfl, rfl, rfl, rfl, hpay, hvalid, hfees⟩

/-- **Approved equals signed.** Whatever a send, a cancel or a bump hands to the submission
strategy is a transaction with the contents of an intent that an engine allowed, signed
under an approval for that intent that is valid and covers its fees; a bump also stays
within the envelope of its handle. -/
theorem broadcast_is_approved (h : (localCalls keys).Reaches Client.start p) {th : CallThread}
    (hth : th ∈ p.threads) {rlp : Bytes} {opts : SubmissionOpts} {site : SubmitSite}
    {k : Except SubmissionError TxHash → Io CallResult}
    (hsubmit : th.prog = .call (.submit rlp opts site) k) (hsite : ∀ g, site ≠ .recover g) :
    ∃ i approval now tx signer signature, rlp = encoded2718 tx signature ∧
      ev (.signTransaction signer tx i.hash approval now) (.ok signature) ∈ th.past ∧
      ev .nowUnix now ∈ th.past ∧ ApprovedTx p.world.log i approval now tx ∧
      ∀ g, site = .bump g → g.envelope.admits tx.maxFeePerGas tx.maxPriorityFeePerGas := by
  have logged : ∀ e ∈ th.past, e ∈ p.world.log := fun e =>
    localCalls_runs.mem_log Client.fresh_start h hth
  obtain ⟨role, -, howes⟩ := localCalls_runs.owes Client.fresh_start h hth hsubmit
  cases site with
  | recover g => exact absurd rfl (hsite g)
  | send origin wal =>
    obtain ⟨m, -, ⟨i, nonce, gasLimit, fees, approval, now, signed, _, _, -, hallow,
      ⟨hnow, sig, hsig, hrlp⟩, -, rfl⟩, rfl, -⟩ := howes
    have hallowed : AllowedIntent p.world.log i approval := ⟨m.policy, .inl (logged _ hallow)⟩
    exact ⟨i, approval, now, _, _, sig, hrlp, hsig, hnow,
      approvedTx_of_signed h hallowed (logged _ hsig), by simp⟩
  | cancel marked =>
    obtain ⟨m, approval, now, -, -, ⟨target, rfl, -, -, hallow, -⟩, fees, hnow, sig, hsig, hrlp⟩ :=
      howes
    have hself : (cancelIntent target.intent.chainId target.account).isSelfSend := by
      simp [cancelIntent, TxIntent.isSelfSend]
    have hallowed : AllowedIntent p.world.log _ approval :=
      ⟨m.policy, .inr ⟨hself, logged _ hallow⟩⟩
    exact ⟨_, approval, now, _, _, sig, hrlp, hsig, hnow,
      approvedTx_of_signed h hallowed (logged _ hsig), by simp⟩
  | bump g =>
    obtain ⟨e, approval, now, -, -, hsigned⟩ := howes
    obtain ⟨j, hallow, hpay⟩ := minted_of_bumpSigned h hth
      ((cacheSound_of_reaches h).got th hth) hsigned
    obtain ⟨hseen, -, -, gasLimit, fees, hfees, hnow, sig, hsig, hrlp⟩ := hsigned
    have hc := (localCalls_runs.coherent Client.fresh_start h).2 th hth g hseen.known
    rw [hc.intentHash] at hsig
    -- the approval may come from the cache: its intent has the hash of the handle's
    obtain ⟨x, hx, hask⟩ := record_asked h hth hseen.known
    obtain ⟨y, hy, hask'⟩ := hallow.asked
    have hsame : g.intent = j :=
      asked_inj h hx hy hask hask' ((signed_gate h (logged _ hsig)).1.symm.trans hpay)
    exact ⟨g.intent, approval, now, _, _, sig, hrlp, hsig, hnow,
      approvedTx_of_signed h (hsame ▸ hallow) (logged _ hsig), by
        rintro _ ⟨rfl⟩
        exact hfees⟩

end Law

section Run

attribute [local instance] Toy.alloy

instance (w : World) (e : PortEvent) : Decidable (DistinctHashes w e) :=
  inferInstanceAs (Decidable (∀ i ∈ askedIntent e, _))

instance (p : CallPool) (i : Nat) (x : (localCalls Toy.keys).Choice) (o : ports.Op)
    (r : ports.Reply o) : Decidable ((localCalls Toy.keys).allow p i x o r) :=
  inferInstanceAs (Decidable (_ ∧ _ ∧ _))

instance (p : CallPool) (c : Call) : Decidable ((localCalls Toy.keys).admits p c) :=
  inferInstanceAs (Decidable True)

/-- A send, then a tick that is about to broadcast a bump of it: the submission strategy does not
answer. -/
def bumpingTick : CallPool :=
  System.played (S := localCalls Toy.keys) Client.start
    [.spawn (.send Toy.manager Toy.intent .default none), .moves 0 20 () (World.serve Toy.calm),
      .spawn (.tick Toy.executor), .moves 1 40 () (Toy.heldAt isBumpSite)]

theorem broadcast_is_approved_bump : ∃ rlp opts g,
    bumpingTick.next? 1 = some (.submit rlp opts (.bump g)) ∧
    ∃ i approval now tx signature, rlp = encoded2718 tx signature ∧
      ApprovedTx bumpingTick.world.log i approval now tx ∧
      g.envelope.admits tx.maxFeePerGas tx.maxPriorityFeePerGas := by
  have hreach : (localCalls Toy.keys).Reaches Client.start bumpingTick :=
    System.reaches_played _ _
  have hrun : bumpingTick.threads.length = 2 ∧ (broadcast? bumpingTick isBumpSite).isSome := by
    decide +kernel
  obtain ⟨hlength, hsome⟩ := hrun
  obtain ⟨rlp, hrlp⟩ := Option.isSome_iff_exists.mp hsome
  obtain ⟨site, hsite, opts, ho⟩ := broadcasts_of_broadcast? hrlp
  obtain ⟨g, rfl⟩ := eq_bump_of_isBumpSite hsite
  rw [hlength] at ho
  obtain ⟨th, hth, k, hsubmit⟩ := Pool.exists_thread_of_next? ho
  obtain ⟨i, approval, now, tx, signer, signature, hrlp, -, -, happroved, henv⟩ :=
    broadcast_is_approved hreach hth hsubmit (by simp)
  exact ⟨rlp, opts, g, ho, i, approval, now, tx, signature, hrlp, happroved, henv g rfl⟩

end Run

end WalletKit
