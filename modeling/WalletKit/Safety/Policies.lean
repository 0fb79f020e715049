import WalletKit.Adapters.Policy.Native
import WalletKit.Safety.Approvals
import WalletKit.Safety.Keys

/-!
# What leaves a wallet obeys its rules

The native engine looks at a request once and mints an approval. Later only the approval is
checked: a signer is handed a hash and never sees the rules, a fee bump may be signed under an
approval that an earlier bump has cached, and a recovery signs nothing at all. Still every
transaction that is broadcast carries out an intent that the rules of its own pipeline permit, at a
price within the caps of its engine, in any interleaving of calls and for any answers of the chain,
the store and the mempool.
-/
namespace WalletKit

open Machine Signing

section Gates

/-- A pipeline of a wallet: the key that signs and the engine that is asked. -/
structure Gate where
  signer : Address
  policy : PolicyId

def TransactionManager.gate (m : TransactionManager) : Gate := ⟨m.signer, m.policy⟩

def AccountExecutor.gate (e : AccountExecutor) : Gate := ⟨e.signer, e.policy⟩

/-- The account's own pipeline, and that of a relayer. -/
def Wallet.gates (w : Wallet) : List Gate :=
  w.manager.gate :: match w.gasless with
    | some (.selfRelay runtime) => [runtime.manager.gate]
    | _ => []

/-- The wiring of a built wallet: whoever signs does so at a gate of the wallet, and the two
executors do not share a cache. -/
structure Wallet.Gated (w : Wallet) : Prop where
  own : w.executor.gate = w.manager.gate
  refill : ∀ m ∈ w.executor.refill, m.gate = w.manager.gate
  relayer : ∀ runtime, w.gasless = some (.selfRelay runtime) →
    runtime.executor.gate = runtime.manager.gate ∧ runtime.executor.refill = none ∧
      runtime.executor.id ≠ w.executor.id

theorem WalletBuilder.build_gated (b : WalletBuilder) : b.build.Gated := by
  have hrefill : ∀ m ∈ (if b.refillOnReplaced = true then some b.manager else none),
      m.gate = b.manager.gate := by
    intro m hm
    split at hm
    · cases hm
      rfl
    · cases hm
  unfold WalletBuilder.build
  dsimp only
  generalize (if b.refillOnReplaced = true then some b.manager else none) = refill at hrefill ⊢
  split
  · refine ⟨rfl, hrefill, ?_⟩
    rintro _ ⟨⟩
    exact ⟨rfl, rfl, by simp [WalletBuilder.executorOf]⟩
  · exact ⟨rfl, hrefill, by rintro _ ⟨⟩⟩
  · exact ⟨rfl, hrefill, by rintro _ ⟨⟩⟩

namespace Wallet.Gated

variable {w : Wallet} {c : WalletCall} {role : Role} {e e' : AccountExecutor}

theorem relayer_mem {runtime : GaslessRuntime} (hw : w.gasless = some (.selfRelay runtime)) :
    runtime.manager.gate ∈ w.gates := by
  unfold Wallet.gates
  rw [hw]
  simp

theorem plays_tick (h : c.Plays w (.executor e)) : WalletCall.tick.Plays w (.executor e) := by
  cases c with
  | tick => exact h
  | sendGasless =>
    obtain ⟨-, ⟨⟩⟩ | ⟨_, -, ⟨⟩⟩ := h
  | _ => cases h

theorem executor_mem (hg : w.Gated) (h : c.Plays w (.executor e)) : e.gate ∈ w.gates := by
  obtain ⟨⟨⟩⟩ | ⟨runtime, hw, ⟨⟩⟩ := plays_tick h
  · rw [hg.own]
    exact List.mem_cons_self
  · rw [(hg.relayer runtime hw).1]
    exact relayer_mem hw

theorem sender_mem (hg : w.Gated) (h : c.Plays w role) {m : TransactionManager}
    (hm : role.sender = some m) : m.gate ∈ w.gates := by
  have own : ∀ role : Role, role = .manager w.manager → role.sender = some m →
      m.gate ∈ w.gates := by
    rintro _ rfl ⟨⟩
    exact List.mem_cons_self
  cases c with
  | tick =>
    obtain rfl | ⟨runtime, hw, rfl⟩ := h
    · rw [hg.refill m hm]
      exact List.mem_cons_self
    · cases (hg.relayer runtime hw).2.1.symm.trans hm
  | sendGasless =>
    obtain ⟨-, rfl⟩ | ⟨runtime, hw, rfl⟩ := h
    · cases hm
    · cases hm
      exact relayer_mem hw
  | _ => exact own role h hm

/-- Executors with the same cache ask the same engine. -/
theorem policy_eq (hg : w.Gated) (h : WalletCall.tick.Plays w (.executor e))
    (h' : WalletCall.tick.Plays w (.executor e')) (hid : e.id = e'.id) : e.policy = e'.policy := by
  obtain ⟨⟨⟩⟩ | ⟨runtime, hw, ⟨⟩⟩ := h <;> obtain ⟨⟨⟩⟩ | ⟨runtime', hw', ⟨⟩⟩ := h'
  · rfl
  · exact absurd hid.symm (hg.relayer runtime' hw').2.2
  · exact absurd hid (hg.relayer runtime hw).2.2
  · cases hw.symm.trans hw'
    rfl

end Wallet.Gated

end Gates

section Rules

variable [Alloy]

/-- A record of this account has been stored. -/
def RecordedFor (log : List PortEvent) (a : Address) : Prop :=
  ∃ g site, ev (.putHandle g site) (.ok ()) ∈ log ∧ g.account = a

/-- The rules permit the intent, as a transaction, or as a cancel by an empty self-send of an
account with a record. -/
def Permitted (engine : DefaultPolicyEngine) (log : List PortEvent) (i : TxIntent) : Prop :=
  Permits engine.policies (.transaction i) ∨
    i.isSelfSend ∧ Permits engine.policies (.cancel i) ∧ RecordedFor log i.account

/-- The transaction carries out an intent that the rules permit, within the engine's caps. -/
def Ruled (engine : DefaultPolicyEngine) (log : List PortEvent) (tx : TxEip1559) : Prop :=
  ∃ i nonce gasLimit fees, tx = buildTx i nonce gasLimit fees ∧ Permitted engine log i ∧
    engine.feeCaps.admits tx.maxFeePerGas tx.maxPriorityFeePerGas

/-- The rule grants no transaction but a call of one of these contracts. -/
def Policy.Targets (allowed : Finset Address) (q : Policy) : Prop :=
  ∀ i, q (.transaction i) = .allow → ∃ a ∈ allowed, i.to = .call a

omit [Alloy] in
theorem Policy.targetAllowlist_targets (allowed : Finset Address) :
    (targetAllowlist allowed).Targets allowed := by
  intro i h
  unfold targetAllowlist at h
  dsimp only at h
  split at h
  · rename_i hany
    cases hto : i.to with
    | create => simp [hto, TxKind.toOption] at hany
    | call a => exact ⟨a, by simpa [hto, TxKind.toOption] using hany, rfl⟩
  · cases h

omit [Alloy] in
theorem Policy.Guards.targets {q : Policy} (h : q.Guards) (allowed : Finset Address) :
    q.Targets allowed := fun i hi => absurd hi (h (.transaction i))

variable {engine : DefaultPolicyEngine} {log log' : List PortEvent} {tx : TxEip1559} {i : TxIntent}

theorem Permitted.mono (h : Permitted engine log i) (hsub : log ⊆ log') :
    Permitted engine log' i := by
  refine h.imp_right ?_
  rintro ⟨hself, hp, g, site, hput, haccount⟩
  exact ⟨hself, hp, g, site, hsub hput, haccount⟩

omit [Alloy] in
theorem TxIntent.isSelfSend_iff :
    i.isSelfSend ↔ i.to = .call i.account ∧ i.value = 0 ∧ i.input = [] := by
  simp [TxIntent.isSelfSend, and_assoc]

/-- Whatever is sent by the rules moves no more than a spend limit among them. -/
theorem Ruled.value_le (h : Ruled engine log tx) {cap : Nat}
    (hcap : Policy.spendLimit cap ∈ engine.policies) : tx.value ≤ cap := by
  obtain ⟨i, nonce, gasLimit, fees, rfl, hpermitted, -⟩ := h
  change i.value ≤ cap
  rcases hpermitted with hp | ⟨hself, -⟩
  · by_contra hlt
    exact hp.undenied _ hcap _ (if_pos (not_le.mp hlt))
  · have hzero := (TxIntent.isSelfSend_iff.mp hself).2.1
    omega

/-- Rules that only grant calls of some contracts let nothing else out but empty sends to accounts
with a record. -/
theorem Ruled.target (h : Ruled engine log tx) {allowed : Finset Address}
    (hrules : ∀ q ∈ engine.policies, q.Targets allowed) :
    (∃ a ∈ allowed, tx.to = .call a) ∨
      ∃ a, RecordedFor log a ∧ tx.to = .call a ∧ tx.value = 0 ∧ tx.input = [] := by
  obtain ⟨i, nonce, gasLimit, fees, rfl, hpermitted, -⟩ := h
  rcases hpermitted with hp | ⟨hself, -, hrecorded⟩
  · refine .inl ?_
    rcases hp.granted with ⟨q, hq, hallow⟩ | hcancel
    · exact hrules q hq i hallow
    · cases hcancel
  · exact .inr ⟨i.account, hrecorded, TxIntent.isSelfSend_iff.mp hself⟩

end Rules

section Runs

variable [Alloy]

/-- The intent that an event is about: one that an engine is asked for, or that is recorded. -/
def intentOf : PortEvent → Option TxIntent
  | ⟨.evaluate _ (.transaction i), _⟩ | ⟨.evaluate _ (.cancel i), _⟩ => some i
  | ⟨.putHandle h _, _⟩ => some h.intent
  | _ => none

/-- The intents of two events are the same if their hashes are. -/
def ApartIntents (e e' : PortEvent) : Prop :=
  ∀ i ∈ intentOf e, ∀ j ∈ intentOf e', i.hash = j.hash → i = j

instance : Std.Symm ApartIntents where
  symm _ _ h i hi j hj hij := (h j hj i hi hij.symm).symm

/-- What the engines and the signers answer at a time. -/
def AnsweredBy (engines : PolicyId → DefaultPolicyEngine) (keys : Address → LocalSigner)
    (t : Nat) : PortEvent → Prop
  | ⟨.evaluate policy request, r⟩ => r = (engines policy).evaluate t request
  | e => SignedLocally keys e

/-- The calls of a wallet with native engines and local signers, in any interleaving. The engines
may read any time; no two intents of a run have the same hash. -/
def Wallet.ruled (w : Wallet) (engines : PolicyId → DefaultPolicyEngine)
    (keys : Address → LocalSigner) : System ports World WalletCall WalletResult where
  Choice := Nat
  body := w.client.body
  admits _ _ := True
  allow p _ t o r := p.world.can ⟨o, r⟩ ∧ AnsweredBy engines keys t ⟨o, r⟩ ∧
    ∀ e ∈ p.world.log, ApartIntents e ⟨o, r⟩
  next w _ o r := w.apply ⟨o, r⟩

/-- The bytes of a transaction that was signed at a gate of the wallet, by its rules. -/
def RuledBytes (engines : PolicyId → DefaultPolicyEngine) (w : Wallet) (log : List PortEvent)
    (rlp : Bytes) : Prop :=
  ∃ gate ∈ w.gates, ∃ tx intentHash approval now signature, rlp = encoded2718 tx signature ∧
    ev (.signTransaction gate.signer tx intentHash approval now) (.ok signature) ∈ log ∧
    Ruled (engines gate.policy) log tx

/-- An approval that an engine has minted for an intent of the run. -/
structure MintedBy (engine : DefaultPolicyEngine) (log : List PortEvent)
    (approval : PolicyApproval) (i : TxIntent) : Prop where
  permitted : Permitted engine log i
  payload : approval.payloadHash = i.hash
  caps : approval.gasEnvelope = engine.feeCaps
  shown : ∃ e ∈ log, intentOf e = some i

variable {engines : PolicyId → DefaultPolicyEngine} {keys : Address → LocalSigner} {w : Wallet}
  {log past : List PortEvent} {rlp : Bytes} {approval : PolicyApproval} {i : TxIntent}
  {p : WalletPool}

theorem RuledBytes.mono (h : RuledBytes engines w past rlp) (hsub : past ⊆ log) :
    RuledBytes engines w log rlp := by
  obtain ⟨gate, hgate, tx, intentHash, approval, now, signature, hrlp, hsign, i, nonce, gasLimit,
    fees, htx, hpermitted, hcaps⟩ := h
  exact ⟨gate, hgate, tx, intentHash, approval, now, signature, hrlp, hsub hsign, i, nonce,
    gasLimit, fees, htx, hpermitted.mono hsub, hcaps⟩

theorem MintedBy.mono {engine : DefaultPolicyEngine} (h : MintedBy engine past approval i)
    (hsub : past ⊆ log) : MintedBy engine log approval i := by
  obtain ⟨e, he, hi⟩ := h.shown
  exact { h with permitted := h.permitted.mono hsub, shown := ⟨e, hsub he, hi⟩ }

theorem ruled_runs : w.client.Runs (w.ruled engines keys) id where
  can ha := ha.1
  next _ := rfl
  body := rfl

section Log

variable (h : (w.ruled engines keys).Reaches Client.start p)
include h

/-- No two intents of a run have the same hash. -/
theorem intent_inj {e e' : PortEvent} {j : TxIntent} (he : e ∈ p.world.log)
    (he' : e' ∈ p.world.log) (hi : intentOf e = some i) (hj : intentOf e' = some j)
    (hhash : i.hash = j.hash) : i = j := by
  have hpairs : p.world.log.Pairwise ApartIntents := by
    refine h.invariant (I := fun p => p.world.log.Pairwise ApartIntents) .nil fun p p' hp hs => ?_
    cases hs with
    | spawn c _ => exact hp
    | @move i th o k x r hi hprog ha =>
      refine List.pairwise_append.mpr ⟨hp, List.pairwise_singleton _ _, ?_⟩
      rintro e he _ hlast
      obtain rfl := List.mem_singleton.mp hlast
      exact ha.2.2 e he
  exact hpairs.forall_of_forall (fun e _ i hi j hj _ => Option.mem_unique hi hj) he he' i hi j hj
    hhash

/-- Each answer that is logged was given by the engine or the signer that was asked. -/
theorem answered_at {e : PortEvent} (he : e ∈ p.world.log) : ∃ t, AnsweredBy engines keys t e := by
  obtain ⟨l, l', hl⟩ := List.append_of_mem he
  exact ruled_runs.log_answered (K := fun _ e => ∃ t, AnsweredBy engines keys t e)
    Client.fresh_start (fun {_ _ t _ _} ha => ⟨t, ha.2.1⟩) h l e l' hl

/-- An engine mints for what its rules permit. -/
theorem mintedBy_of_allowed {policy : PolicyId}
    (ha : Allowed p.world.log policy (.transaction i) approval ∨
      i.isSelfSend ∧ Allowed p.world.log policy (.cancel i) approval ∧
        RecordedFor p.world.log i.account) :
    MintedBy (engines policy) p.world.log approval i := by
  have decided : ∀ request, Allowed p.world.log policy request approval →
      Permits (engines policy).policies request ∧ ∃ hash t, request.signingHash = .ok hash ∧
        approval = ⟨hash, (engines policy).feeCaps, t + (engines policy).approvalTtl⟩ := by
    intro request hallow
    obtain ⟨t, hanswer⟩ := answered_at h hallow
    have hdecide : (engines policy).decide t request = .allow approval :=
      Except.ok.inj (Eq.symm hanswer)
    obtain ⟨hwould, hash, hhash, happroval⟩ := decide_eq_allow.mp hdecide
    exact ⟨decideOutcome_eq_wouldAllow.mp hwould, hash, t, hhash, happroval⟩
  rcases ha with hallow | ⟨hself, hallow, hrecorded⟩
  · obtain ⟨hp, hash, t, hhash, rfl⟩ := decided _ hallow
    exact ⟨.inl hp, (Except.ok.inj hhash).symm, rfl, _, hallow, rfl⟩
  · obtain ⟨hp, hash, t, hhash, rfl⟩ := decided _ hallow
    exact ⟨.inr ⟨hself, hp, hrecorded⟩, (Except.ok.inj hhash).symm, rfl, _, hallow, rfl⟩

/-- A transaction for an intent of the run that is signed under a minted approval is one by the
rules: the approval can only have been minted for that intent. -/
theorem ruledBytes_of_signed (gate : Gate) (hgate : gate ∈ w.gates) {j : TxIntent}
    (hm : MintedBy (engines gate.policy) p.world.log approval i)
    (hj : ∃ e ∈ p.world.log, intentOf e = some j) {nonce gasLimit now : Nat}
    {fees : Eip1559Estimation} (hpast : past ⊆ p.world.log)
    (hs : SignedBy past gate.signer (buildTx j nonce gasLimit fees) j.hash approval now rlp) :
    RuledBytes engines w p.world.log rlp := by
  obtain ⟨-, signature, hsign, hrlp⟩ := hs
  obtain ⟨t, hanswer⟩ := answered_at h (hpast hsign)
  obtain ⟨hpay, -, hfees⟩ := LocalSigner.signTransaction_ok (Eq.symm hanswer)
  obtain ⟨e, he, hi⟩ := hm.shown
  obtain ⟨e', he', hj⟩ := hj
  obtain rfl : i = j := intent_inj h he he' hi hj (hm.payload.symm.trans hpay)
  rw [hm.caps] at hfees
  exact ⟨gate, hgate, _, _, approval, now, signature, hrlp, hpast hsign, i, nonce, gasLimit, fees,
    rfl, hm.permitted, hfees⟩

/-- Every record was stored. -/
theorem record_put {th : WalletThread} (hth : th ∈ p.threads) {g : TxHandle}
    (hg : Known th.past g) : ∃ site, ev (.putHandle g site) (.ok ()) ∈ p.world.log := by
  refine (ruled_runs.handles (P := fun l g => ∃ site, ev (.putHandle g site) (.ok ()) ∈ l)
    Client.fresh_start (fun l e g hl => ?_) (fun {p th h' site k role} _ _ _ _ _ _ => ?_) h).2
    th hth g hg
  · obtain ⟨site, hput⟩ := hl
    exact ⟨site, List.mem_append_left _ hput⟩
  · exact ⟨site, by simp⟩

end Log

section Programs

variable (hw : w.Gated) (h : (w.ruled engines keys).Reaches Client.start p) {th : WalletThread}
  (hth : th ∈ p.threads)
include h hth

theorem past_logged : th.past ⊆ p.world.log := fun _ =>
  ruled_runs.mem_log Client.fresh_start h hth

/-- What a send has prepared is by the rules of its manager's engine. -/
theorem ruled_of_prepared {m : TransactionManager} (hm : m.gate ∈ w.gates) {wal : TxHandle}
    (hp : Prepared th.past m wal) : RuledBytes engines w p.world.log wal.signed := by
  obtain ⟨intent, nonce, gasLimit, fees, approval, now, signed, opts, context, -, hallow, hsigned,
    -, rfl⟩ := hp
  have hlogged := past_logged h hth
  exact ruledBytes_of_signed h m.gate hm (mintedBy_of_allowed h (.inl (hlogged hallow)))
    ⟨_, hlogged hallow, rfl⟩ hlogged hsigned

theorem ruled_of_cancelSigned {m : TransactionManager} (hm : m.gate ∈ w.gates) {marked : TxHandle}
    {now : Nat} (hc : Cancelling th.past m marked approval)
    (hs : CancelSigned th.past m marked approval now rlp) :
    RuledBytes engines w p.world.log rlp := by
  obtain ⟨target, rfl, -, ⟨id, hread⟩, hallow, -⟩ := hc
  obtain ⟨fees, hsigned⟩ := hs
  have hknown : Known th.past target := ⟨_, hread, .inl rfl⟩
  obtain ⟨site, hput⟩ := record_put h hth hknown
  have hlogged := past_logged h hth
  have hself : (cancelIntent target.intent.chainId target.account).isSelfSend := by
    simp [cancelIntent, TxIntent.isSelfSend]
  exact ruledBytes_of_signed h m.gate hm
    (mintedBy_of_allowed h (.inr ⟨hself, hlogged hallow, target, site, hput, rfl⟩))
    ⟨_, hlogged hallow, rfl⟩ hlogged hsigned

/-- The approval of a bump was minted by the executor's engine, if those in its cache were. -/
theorem minted_of_bumpApproved {e : AccountExecutor} {g : TxHandle}
    (hgot : ∀ id a, ev (.approvalsGet e.id id) (some a) ∈ th.past →
      ∃ i, MintedBy (engines e.policy) p.world.log a i)
    (hg : Known th.past g) (hb : BumpApproved th.past e g approval) :
    ∃ i, MintedBy (engines e.policy) p.world.log approval i := by
  rcases hb with hcached | hfresh
  · exact hgot g.id approval hcached
  · have hallow : Allowed p.world.log e.policy (AccountExecutor.bumpRequest g.intent) approval :=
      past_logged h hth hfresh
    refine ⟨g.intent, mintedBy_of_allowed h ?_⟩
    unfold AccountExecutor.bumpRequest at hallow
    split at hallow
    · obtain ⟨site, hput⟩ := record_put h hth hg
      have hcoherent := (ruled_runs.coherent Client.fresh_start h).2 th hth g hg
      exact .inr ⟨‹_›, hallow, g, site, hput, hcoherent.account⟩
    · exact .inl hallow

end Programs

/-- Whatever a cache holds was minted by the engine of the executors that use it. -/
theorem cache_minted (hw : w.Gated) (h : (w.ruled engines keys).Reaches Client.start p)
    {th : WalletThread} (hth : th ∈ p.threads) {e : AccountExecutor}
    (he : WalletCall.tick.Plays w (.executor e)) {id : HandleId}
    (hgot : ev (.approvalsGet e.id id) (some approval) ∈ th.past) :
    ∃ i, MintedBy (engines e.policy) p.world.log approval i := by
  refine (ruled_runs.cached (P := fun l x a => ∀ e, WalletCall.tick.Plays w (.executor e) →
    e.id = x → ∃ i, MintedBy (engines e.policy) l a i) Client.fresh_start
    (fun l x _ a hl e he hid => ?_) (fun {p th x id a k} hreach hth hprog got e he hid => ?_)
    h).2 th hth _ _ _ hgot e he rfl
  · obtain ⟨i, hm⟩ := hl e he hid
    exact ⟨i, hm.mono (List.subset_append_left _ _)⟩
  · -- what is cached is what its executor has just signed with
    obtain ⟨role, hrole, e', g, now, rlp, h', rfl, rfl, -, hsigned, -⟩ :=
      ruled_runs.owes Client.fresh_start hreach hth hprog
    have he' := Wallet.Gated.plays_tick hrole
    obtain ⟨hseen, -, happroved, -⟩ := hsigned
    rw [hw.policy_eq he he' hid]
    exact minted_of_bumpApproved hreach hth (fun id b hb => got e'.id id b hb e' he' rfl)
      hseen.known happroved

theorem ruled_of_bumpSigned (hw : w.Gated) (h : (w.ruled engines keys).Reaches Client.start p)
    {th : WalletThread} (hth : th ∈ p.threads) {e : AccountExecutor}
    (he : th.call.Plays w (.executor e)) {g : TxHandle} {now : Nat}
    (hb : BumpSigned th.past e g approval now rlp) : RuledBytes engines w p.world.log rlp := by
  obtain ⟨hseen, -, happroved, gasLimit, fees, -, hsigned⟩ := hb
  have htick := Wallet.Gated.plays_tick he
  obtain ⟨i, hm⟩ := minted_of_bumpApproved h hth (fun _ _ => cache_minted hw h hth htick)
    hseen.known happroved
  obtain ⟨site, hput⟩ := record_put h hth hseen.known
  rw [((ruled_runs.coherent Client.fresh_start h).2 th hth g hseen.known).intentHash] at hsigned
  exact ruledBytes_of_signed h e.gate (hw.executor_mem he) hm
    ⟨_, hput, rfl⟩ (past_logged h hth) hsigned

/-- The bytes of every record are by the rules. -/
theorem record_ruled (hw : w.Gated) (h : (w.ruled engines keys).Reaches Client.start p)
    {th : WalletThread} (hth : th ∈ p.threads) {g : TxHandle} (hg : Known th.past g) :
    g.signed = [] ∨ RuledBytes engines w p.world.log g.signed := by
  refine (ruled_runs.handles (P := fun l g => g.signed = [] ∨ RuledBytes engines w l g.signed)
    Client.fresh_start
    (fun l e g hl => hl.imp_right fun hr => hr.mono (List.subset_append_left _ _))
    (fun {p th h' site k role} hreach hth hprog hrole hput hknown => ?_) h).2 th hth g hg
  suffices hsigned : h'.signed = [] ∨ RuledBytes engines w p.world.log h'.signed from
    hsigned.imp_right fun hr => hr.mono (List.subset_append_left _ _)
  cases site with
  | wal origin =>
    obtain ⟨m, hm, hp, -⟩ := hput
    exact .inr (ruled_of_prepared hreach hth (hw.sender_mem hrole hm) hp)
  | cancelNew marked =>
    obtain ⟨m, approval, now, signed, rfl, rfl, -, hcancelling, hsigned⟩ := hput
    exact .inr (ruled_of_cancelSigned hreach hth (hw.sender_mem hrole rfl) hcancelling hsigned)
  | task =>
    obtain ⟨-, _, _, _, _, rfl⟩ := hput
    exact .inl rfl
  | bump g =>
    obtain ⟨e, approval, now, rlp, rfl, rfl, hsigned, -⟩ := hput
    exact .inr (ruled_of_bumpSigned hw hreach hth hrole hsigned)
  | sent g | rejected g | cancelMark g | cancelUndo g | advance g | poll g =>
    have hg := hknown g (hput.known rfl)
    cases hput.version rfl <;> exact hg

/-- Whatever a call of the wallet is about to broadcast is by the rules. -/
theorem submit_ruled (hw : w.Gated) (h : (w.ruled engines keys).Reaches Client.start p)
    {th : WalletThread} (hth : th ∈ p.threads) {opts : SubmissionOpts} {site : SubmitSite}
    {k : Except SubmissionError TxHash → Io WalletResult}
    (hprog : th.prog = .call (.submit rlp opts site) k) :
    RuledBytes engines w p.world.log rlp := by
  obtain ⟨role, hrole, howes⟩ := ruled_runs.owes Client.fresh_start h hth hprog
  cases site with
  | send origin wal =>
    obtain ⟨m, hm, hp, rfl, -⟩ := howes
    exact ruled_of_prepared h hth (hw.sender_mem hrole hm) hp
  | recover g =>
    obtain ⟨e, -, rfl, -, -, hsigned, before, hs, after, hpast, hmem, -⟩ := howes
    have hknown : Known th.past g :=
      ⟨ev (.pendingHandles e.account) (.ok hs), by simp [hpast], .inl ⟨hs, rfl, hmem⟩⟩
    exact (record_ruled hw h hth hknown).resolve_left hsigned
  | cancel marked =>
    obtain ⟨m, approval, now, rfl, -, hcancelling, hsigned⟩ := howes
    exact ruled_of_cancelSigned h hth (hw.sender_mem hrole rfl) hcancelling hsigned
  | bump g =>
    obtain ⟨e, approval, now, rfl, -, hsigned⟩ := howes
    exact ruled_of_bumpSigned hw h hth hrole hsigned

/-- **What leaves a wallet obeys its rules.** In every run of a built wallet with native engines
and local signers, whatever is broadcast, by a send, a relayed send, a refill, a cancel, a recovery
or a fee bump, is a transaction that was signed at one of the wallet's gates, for an intent that the
rules there permit and at a price within the caps there, as long as no two intents of the run have
the same hash. So it moves no more than any spend limit among those rules, and if they only grant
calls of some contracts it is a call of one of them, or an empty send to the account of a record: a
cancel goes to the account whose nonce it takes, which for a relayed handle is the relayer. -/
theorem broadcast_by_rules (b : WalletBuilder)
    (h : (b.build.ruled engines keys).Reaches Client.start p) {opts : SubmissionOpts}
    {site : SubmitSite} {r : Except SubmissionError TxHash}
    (he : ev (.submit rlp opts site) r ∈ p.world.log) :
    ∃ gate ∈ b.build.gates, ∃ tx intentHash approval now signature,
      rlp = encoded2718 tx signature ∧
      ev (.signTransaction gate.signer tx intentHash approval now) (.ok signature) ∈ p.world.log ∧
      Ruled (engines gate.policy) p.world.log tx ∧
      (∀ cap, Policy.spendLimit cap ∈ (engines gate.policy).policies → tx.value ≤ cap) ∧
      ∀ allowed, (∀ q ∈ (engines gate.policy).policies, q.Targets allowed) →
        (∃ a ∈ allowed, tx.to = .call a) ∨
          ∃ a, RecordedFor p.world.log a ∧ tx.to = .call a ∧ tx.value = 0 ∧ tx.input = [] := by
  obtain ⟨l, l', hl⟩ := List.append_of_mem he
  have hruled := ruled_runs.log_moved (K := fun w e => ∀ rlp opts site,
      e.op = .submit rlp opts site → RuledBytes engines b.build w.log rlp) Client.fresh_start
    (fun {p i th x o k r} hreach hi hprog _ rlp opts site ho => by
      obtain rfl : o = .submit rlp opts site := ho
      exact submit_ruled b.build_gated hreach (List.mem_of_getElem? hi) hprog)
    h l _ l' hl rlp opts site rfl
  rw [World.replay_log] at hruled
  have hlog : l ⊆ p.world.log := by
    intro e he
    rw [show p.world.log = _ from hl]
    exact List.mem_append_left _ he
  obtain ⟨gate, hgate, tx, intentHash, approval, now, signature, hrlp, hsign, hruled⟩ :=
    hruled.mono hlog
  exact ⟨gate, hgate, tx, intentHash, approval, now, signature, hrlp, hsign, hruled,
    fun cap => hruled.value_le, fun allowed => hruled.target⟩

end Runs

section Strict

attribute [local instance] Toy.alloy

instance decidableAnsweredBy (engines : PolicyId → DefaultPolicyEngine)
    (keys : Address → LocalSigner) (t : Nat) (e : PortEvent) :
    Decidable (AnsweredBy engines keys t e) := by
  obtain ⟨o, r⟩ := e
  cases o with
  | evaluate => exact (inferInstance : DecidableEq (Except PolicyEngineError Decision)) _ _
  | _ => exact inferInstanceAs (Decidable (SignedLocally keys ⟨_, r⟩))

instance (e e' : PortEvent) : Decidable (ApartIntents e e') :=
  inferInstanceAs (Decidable (∀ i ∈ intentOf e, ∀ j ∈ intentOf e', _))

instance (w : Wallet) (engines : PolicyId → DefaultPolicyEngine) (p : WalletPool) (i : Nat)
    (t : (w.ruled engines Toy.keys).Choice) (o : ports.Op) (r : ports.Reply o) :
    Decidable ((w.ruled engines Toy.keys).allow p i t o r) :=
  haveI := decidableAnsweredBy engines Toy.keys t ⟨o, r⟩
  inferInstanceAs (Decidable (_ ∧ _ ∧ _))

instance (w : Wallet) (engines : PolicyId → DefaultPolicyEngine) (p : WalletPool)
    (c : WalletCall) : Decidable ((w.ruled engines Toy.keys).admits p c) :=
  inferInstanceAs (Decidable True)

/-- Calls of one contract, with a limited value. -/
def Toy.strict : DefaultPolicyEngine := .new [.targetAllowlist {9}, .spendLimit 5]

theorem Toy.strict_targets : ∀ q ∈ Toy.strict.policies, q.Targets {9} := by
  intro q hq
  rcases List.mem_pair.mp hq with rfl | rfl
  · exact Policy.targetAllowlist_targets {9}
  · exact (Policy.spendLimit_guards 5).targets {9}

/-- The answers of that engine at a time. -/
def Toy.strictly (t : Nat) : World → (o : Op) → Option o.Reply := World.serve fun
  | .evaluate _ request => some (Toy.strict.evaluate t request)
  | o => Toy.calm o

/-- A send, and two ticks that bump it: the second one under the approval of the first. -/
def strictBumps (t : Nat) : WalletPool :=
  System.played (S := Toy.wallet.ruled (fun _ => Toy.strict) Toy.keys) Client.start
    [.spawn (.send Toy.intent), .moves 0 20 t (Toy.strictly t), .spawn .tick,
      .moves 1 40 t (Toy.strictly t), .spawn .tick, .moves 2 60 t (Toy.strictly t)]

/-- The bytes of a bump that goes out when an approval has been taken from the cache. -/
def cachedBump? (log : List PortEvent) : Option (Bytes × SubmissionOpts × TxHandle) :=
  (log.dropWhile fun
    | ⟨.approvalsGet _ _, r⟩ => (r : Option PolicyApproval).isNone
    | _ => true).findSome? fun
      | ⟨.submit rlp opts (.bump g), _⟩ => some (rlp, opts, g)
      | _ => none

theorem mem_of_cachedBump? {log : List PortEvent} {rlp : Bytes} {opts : SubmissionOpts}
    {g : TxHandle} (h : cachedBump? log = some (rlp, opts, g)) :
    ∃ r, ev (.submit rlp opts (.bump g)) r ∈ log := by
  obtain ⟨e, he, hbump⟩ := List.exists_of_findSome?_eq_some h
  have hmem := (List.dropWhile_sublist _).subset he
  split at hbump
  · cases hbump
    exact ⟨_, hmem⟩
  · cases hbump

theorem broadcast_by_rules_cached : ∃ rlp opts g,
    cachedBump? (strictBumps 100).world.log = some (rlp, opts, g) ∧
    ∃ tx signature, rlp = encoded2718 tx signature ∧
      Ruled Toy.strict (strictBumps 100).world.log tx ∧ tx.value ≤ 5 ∧
      ((∃ a ∈ ({9} : Finset Address), tx.to = .call a) ∨
        ∃ a, RecordedFor (strictBumps 100).world.log a ∧ tx.to = .call a ∧ tx.value = 0 ∧
          tx.input = []) := by
  have hreach : (Toy.wallet.ruled (fun _ => Toy.strict) Toy.keys).Reaches Client.start
      (strictBumps 100) := System.reaches_played _ _
  have hrun : (cachedBump? (strictBumps 100).world.log).isSome := by decide +kernel
  obtain ⟨⟨rlp, opts, g⟩, hbump⟩ := Option.isSome_iff_exists.mp hrun
  obtain ⟨r, he⟩ := mem_of_cachedBump? hbump
  obtain ⟨gate, -, tx, _, _, _, signature, hrlp, -, hruled, hvalue, htarget⟩ :=
    broadcast_by_rules Toy.builder hreach he
  exact ⟨rlp, opts, g, hbump, tx, signature, hrlp, hruled, hvalue 5 (.tail _ (.head _)),
    htarget {9} Toy.strict_targets⟩

end Strict

end WalletKit
