import WalletKit.Adapters.GasOracle
import WalletKit.Runtime.Bumps
import WalletKit.Safety.Approvals

/-!
# The ladder of bodies

A bump decodes the stored body, asks the oracle for a price above that of the body and builds the
same transaction again. So the bodies that a handle records differ in their fees alone, each is
priced above the one before, and the envelope that bounds all of them bounds their number. The
oracle's increment is a plain addition: at the end of `u128` it wraps around in a build without
overflow checks, and the next rung is below the last.
-/
namespace WalletKit

open Machine Signing

/-- A transaction with its signature. -/
structure Body where
  tx : TxEip1559
  signature : Signature
  deriving DecidableEq

namespace Body

def fees (b : Body) : Eip1559Estimation := ⟨b.tx.maxFeePerGas, b.tx.maxPriorityFeePerGas⟩

/-- A signer has signed it. -/
def SignedIn (log : List PortEvent) (b : Body) : Prop :=
  ∃ signer intentHash approval now,
    ev (.signTransaction signer b.tx intentHash approval now) (.ok b.signature) ∈ log

/-- Both fees are below those of the other. -/
def Below (b b' : Body) : Prop :=
  b.tx.maxFeePerGas < b'.tx.maxFeePerGas ∧ b.tx.maxPriorityFeePerGas < b'.tx.maxPriorityFeePerGas

theorem SignedIn.mono {log log' : List PortEvent} {b : Body} (h : b.SignedIn log)
    (hsub : ∀ e ∈ log, e ∈ log') : b.SignedIn log' := by
  obtain ⟨signer, intentHash, approval, now, hs⟩ := h
  exact ⟨signer, intentHash, approval, now, hsub _ hs⟩

variable [Alloy]

def rlp (b : Body) : Bytes := encoded2718 b.tx b.signature

def hash (b : Body) : TxHash := keccak256 b.rlp

end Body

section Ladder

variable [Alloy]

/-- The bodies that a handle records: one transaction at rising fees, within the envelope of the
handle and, but for the first, within the ceiling of the oracle. The last one is stored. -/
structure Ladder (ceiling : Nat) (log : List PortEvent) (h : TxHandle) (bodies : List Body) :
    Prop where
  recorded : h.broadcasts = bodies.map Body.hash
  current : ∃ b, bodies.getLast? = some b ∧ h.signed = b.rlp
  signed : ∀ b ∈ bodies, b.SignedIn log
  same : ∃ gasLimit, ∀ b ∈ bodies, b.tx = buildTx h.intent h.nonce gasLimit b.fees
  rising : bodies.Pairwise Body.Below
  enveloped : ∀ b ∈ bodies, h.envelope.admits b.tx.maxFeePerGas b.tx.maxPriorityFeePerGas
  capped : ∀ b ∈ bodies.tail, b.tx.maxFeePerGas ≤ ceiling ∧ b.tx.maxPriorityFeePerGas ≤ ceiling

/-- Encoding a transaction loses nothing of it. -/
def DecodesBodies : Prop := ∀ b : Body, decode2718 b.rlp = some (.eip1559 b.tx)

variable {ceiling : Nat} {log log' : List PortEvent} {h h' : TxHandle} {bodies : List Body}
  {b : Body}

theorem Ladder.mono (hl : Ladder ceiling log h bodies) (hsub : ∀ e ∈ log, e ∈ log') :
    Ladder ceiling log' h bodies :=
  { hl with signed := fun b hb => (hl.signed b hb).mono hsub }

/-- A version of a record that is no replacement has the same ladder. -/
theorem Ladder.restated (hl : Ladder ceiling log h bodies)
    (hbroadcasts : h'.broadcasts = h.broadcasts) (hsigned : h'.signed = h.signed)
    (hintent : h'.intent = h.intent) (hnonce : h'.nonce = h.nonce)
    (henvelope : h'.envelope = h.envelope) : Ladder ceiling log h' bodies where
  recorded := hbroadcasts.trans hl.recorded
  current := by rw [hsigned]; exact hl.current
  signed := hl.signed
  same := by rw [hintent, hnonce]; exact hl.same
  rising := hl.rising
  enveloped := by rw [henvelope]; exact hl.enveloped
  capped := hl.capped

theorem ladder_first (hrecorded : h.broadcasts = [b.hash]) (hsigned : h.signed = b.rlp)
    (hb : b.SignedIn log) {gasLimit : Nat} (htx : b.tx = buildTx h.intent h.nonce gasLimit b.fees)
    (hfees : h.envelope.admits b.tx.maxFeePerGas b.tx.maxPriorityFeePerGas) :
    Ladder ceiling log h [b] where
  recorded := hrecorded
  current := ⟨b, rfl, hsigned⟩
  signed := by simpa using hb
  same := ⟨gasLimit, by simpa using htx⟩
  rising := List.pairwise_singleton _ _
  enveloped := by simpa using hfees
  capped := by simp

/-- What is decoded from the stored body are the fees and the gas limit of the last rung. -/
theorem Ladder.decodeFees (hl : Ladder ceiling log h bodies) (hdecode : DecodesBodies)
    {current : SignedFees} (hc : Signing.decodeFees h.signed = some current) :
    ∃ b, bodies.getLast? = some b ∧ current = ⟨b.fees, b.tx.gasLimit⟩ := by
  obtain ⟨b, hlast, hsigned⟩ := hl.current
  refine ⟨b, hlast, ?_⟩
  rw [Signing.decodeFees, hsigned, hdecode b] at hc
  exact (Option.some.inj hc).symm

/-- A higher body goes on top. -/
theorem Ladder.snoc (hl : Ladder ceiling log h bodies) {last : Body}
    (hlast : bodies.getLast? = some last) (hbelow : last.Below b) (hb : b.SignedIn log)
    (htx : b.tx = buildTx h.intent h.nonce last.tx.gasLimit b.fees)
    (hfees : h.envelope.admits b.tx.maxFeePerGas b.tx.maxPriorityFeePerGas)
    (hcap : b.tx.maxFeePerGas ≤ ceiling ∧ b.tx.maxPriorityFeePerGas ≤ ceiling)
    (hbroadcasts : h'.broadcasts = h.broadcasts ++ [b.hash]) (hsigned : h'.signed = b.rlp)
    (hintent : h'.intent = h.intent) (hnonce : h'.nonce = h.nonce)
    (henvelope : h'.envelope = h.envelope) : Ladder ceiling log h' (bodies ++ [b]) where
  recorded := by rw [hbroadcasts, hl.recorded]; simp
  current := ⟨b, by simp, hsigned⟩
  signed b' hb' := by
    rcases List.mem_append.mp hb' with hb' | hb'
    · exact hl.signed b' hb'
    · rwa [List.mem_singleton.mp hb']
  same := by
    obtain ⟨gasLimit, hsame⟩ := hl.same
    have hgas : last.tx.gasLimit = gasLimit := by
      rw [hsame last (List.mem_of_getLast? hlast)]
      rfl
    refine ⟨gasLimit, fun b' hb' => ?_⟩
    rw [hintent, hnonce]
    rcases List.mem_append.mp hb' with hb' | hb'
    · exact hsame b' hb'
    · rw [List.mem_singleton.mp hb', ← hgas]
      exact htx
  rising := by
    refine List.pairwise_append.mpr ⟨hl.rising, List.pairwise_singleton _ _,
      fun b₁ hb₁ b₂ hb₂ => ?_⟩
    rw [List.mem_singleton.mp hb₂]
    obtain ⟨init, rfl⟩ := List.getLast?_eq_some_iff.mp hlast
    rcases List.mem_append.mp hb₁ with hb₁ | hb₁
    · obtain ⟨hmax, htip⟩ := (List.pairwise_append.mp hl.rising).2.2 b₁ hb₁ last (by simp)
      exact ⟨hmax.trans hbelow.1, htip.trans hbelow.2⟩
    · rwa [List.mem_singleton.mp hb₁]
  enveloped b' hb' := by
    rw [henvelope]
    rcases List.mem_append.mp hb' with hb' | hb'
    · exact hl.enveloped b' hb'
    · rwa [List.mem_singleton.mp hb']
  capped b' hb' := by
    have hne : bodies ≠ [] := by rintro rfl; cases hlast
    rw [List.tail_append_of_ne_nil hne] at hb'
    rcases List.mem_append.mp hb' with hb' | hb'
    · exact hl.capped b' hb'
    · rwa [List.mem_singleton.mp hb']

omit [Alloy] in
/-- Rising numbers up to a bound are no more than there are. -/
theorem length_le_of_rising {α : Type} {f : α → Nat} {l : List α} {bound : Nat}
    (hrising : l.Pairwise fun a a' => f a < f a') (hle : ∀ a ∈ l, f a ≤ bound) :
    l.length ≤ bound + 1 := by
  have hnodup : (l.map f).Nodup := List.pairwise_map.mpr (hrising.imp fun h => h.ne)
  have hsub : (l.map f).toFinset ⊆ Finset.range (bound + 1) := by
    intro n hn
    obtain ⟨a, ha, rfl⟩ := List.mem_map.mp (List.mem_toFinset.mp hn)
    exact Finset.mem_range.mpr (Nat.lt_succ_of_le (hle a ha))
  have hcard := Finset.card_le_card hsub
  rwa [List.toFinset_card_of_nodup hnodup, List.length_map, Finset.card_range] at hcard

/-- The envelope bounds the number of bodies. -/
theorem Ladder.length_le (hl : Ladder ceiling log h bodies) :
    h.broadcasts.length ≤ h.envelope.maxFeeCap + 1 ∧
      h.broadcasts.length ≤ h.envelope.maxPriorityCap + 1 := by
  have admitted : ∀ b ∈ bodies, b.tx.maxFeePerGas ≤ h.envelope.maxFeeCap ∧
      b.tx.maxPriorityFeePerGas ≤ h.envelope.maxPriorityCap := fun b hb => by
    simpa [GasEnvelope.admits] using hl.enveloped b hb
  rw [hl.recorded, List.length_map]
  exact ⟨length_le_of_rising (hl.rising.imp And.left) fun b hb => (admitted b hb).1,
    length_le_of_rising (hl.rising.imp And.right) fun b hb => (admitted b hb).2⟩

end Ladder

section Programs

variable [Alloy]

/-- This body replaces the stored one of a handle, at the price that the oracle gave for it. -/
def Repriced (past : List PortEvent) (h : TxHandle) (rlp : Bytes) : Prop :=
  ∃ current, ∃ b : Body, decodeFees h.signed = some current ∧
    ev (.gasBump current.fees) (.ok b.fees) ∈ past ∧
    h.envelope.admits b.tx.maxFeePerGas b.tx.maxPriorityFeePerGas ∧
    b.tx = buildTx h.intent h.nonce current.gasLimit b.fees ∧ b.SignedIn past ∧ rlp = b.rlp

/-- Bumps are recorded with bodies that are repriced. -/
def PriceOwes (past : List PortEvent) : Op → Prop
  | .putHandle h' (.bump h) => Repriced past h h'.signed
  | _ => True

namespace AccountExecutor

variable {e : AccountExecutor} {past : List PortEvent} {handle : TxHandle} {now : Nat}

theorem submitBump_priced {current : SignedFees} {fees : Eip1559Estimation}
    {approval : PolicyApproval} (hcurrent : decodeFees handle.signed = some current)
    (hprice : ev (.gasBump current.fees) (.ok fees) ∈ past)
    (hfees : handle.envelope.admits fees.maxFeePerGas fees.maxPriorityFeePerGas) :
    (e.submitBump handle current.gasLimit fees approval now).run.wp (.history PriceOwes)
      (fun _ _ => True) past := by
  unfold submitBump signEncode
  simp only [Prog.wp_run_bind, Prog.wp_run_lift, Prog.wp_run_orThrow, Prog.wp_run_pure,
    Signer.wp_signTransaction, Submission.wp_submit, asks_history, Prog.forall_except,
    Except.mapError]
  refine ⟨trivial, fun _ => trivial, fun sig => ?_⟩
  set tx := buildTx handle.intent handle.nonce current.gasLimit fees
  have record : ∀ r, (e.recordBump { handle with submission := ⟨bumpRoute handle⟩ } handle
      (.of tx sig) approval now).run.wp (.history PriceOwes) (fun _ _ => True)
      (past ++ [ev (.signTransaction e.signer tx handle.intentHash approval now) (.ok sig)] ++
        [ev (.submit (SignedTx.of tx sig).rlp ⟨bumpRoute handle⟩ (.bump handle)) r]) := by
    intro r
    unfold recordBump
    simp only [Prog.wp_run_bind, Prog.wp_run_lift, Prog.wp_run_orThrow, StateStore.wp_putHandle,
      ExecutorMemory.wp_insertApproval, asks_history, Prog.forall_except, Except.mapError]
    refine ⟨⟨current, ⟨tx, sig⟩, hcurrent, ?_, hfees, rfl, ?_, rfl⟩, fun _ => trivial, fun _ =>
      ⟨trivial, fun _ => trivial⟩⟩
    · exact List.mem_append_left _ (List.mem_append_left _ hprice)
    · exact ⟨e.signer, handle.intentHash, approval, now, by simp⟩
  refine ⟨trivial, fun err => ?_, fun _ => record _⟩
  split
  · exact record _
  · trivial

omit [Alloy] in
theorem bumpApproval_bumpsNothing (e : AccountExecutor) (handle : TxHandle)
    (fees : Eip1559Estimation) (now : Nat) :
    (e.bumpApproval handle fees now).run.Ops BumpsNothing := by
  refine .tryBind (.bind ⟨trivial, fun _ => trivial⟩ fun _ => trivial) fun cached => ?_
  split
  · trivial
  · refine .tryBind (Prog.ops_orThrow ⟨trivial, fun _ => trivial⟩) fun decision => ?_
    split <;> trivial

theorem bumpsNothing_priced {o : Op} (ho : BumpsNothing o) (past : List PortEvent) :
    PriceOwes past o := by
  cases o with
  | putHandle g site =>
    cases site with
    | bump => cases ho
    | _ => trivial
  | _ => trivial

theorem bump_priced (handle : TxHandle) (now : Nat) :
    (e.bump handle now).run.Meets (.history PriceOwes) := by
  intro past
  unfold bump
  simp only [Prog.wp_run_bind, Prog.wp_run_orThrow, Rpc.wp_txCount, asks_history,
    Prog.forall_except, Except.mapError]
  refine ⟨trivial, fun _ => trivial, fun mined => ?_⟩
  split
  · trivial
  split
  · trivial
  rename_i current hcurrent
  simp only [Prog.wp_run_bind, Prog.wp_run_lift, GasOracle.wp_bump, asks_history,
    Prog.forall_except]
  refine ⟨trivial, fun err => ?_, fun fees => ?_⟩
  · cases err <;> trivial
  split
  · trivial
  rename_i hfees
  have hprice := Prog.wp_of_ops (σ := .history PriceOwes)
    (P := (ev (.gasBump current.fees) (.ok fees) ∈ ·))
    (e.bumpApproval_bumpsNothing handle fees now) (fun _ past ho _ => bumpsNothing_priced ho past)
    (fun _ _ => trivial) (fun _ _ _ _ _ hv hs => hs ▸ List.mem_append_left _ hv)
    (w := past ++ [ev (.txCount e.account) (.ok mined)] ++ [ev (.gasBump current.fees) (.ok fees)])
    (by simp)
  refine Prog.wp_run_bind.mpr (Prog.wp_mono hprice ?_)
  rintro (err | _ | approval) past hmem
  · trivial
  · trivial
  · exact submitBump_priced hcurrent hmem (by simpa using hfees)

theorem escalate_priced : e.escalate.run.Meets (.history PriceOwes) := by
  have idle : ∀ {α : Type} {x : Io α}, x.Ops BumpsNothing → x.Meets (.history PriceOwes) :=
    fun hx => .of_ops hx (fun _ past ho => bumpsNothing_priced ho past) fun _ => trivial
  refine .tryBind (idle (.bind ⟨trivial, fun _ => trivial⟩ fun _ => trivial)) fun now =>
    .tryBind (idle (Prog.ops_orThrow ⟨trivial, fun _ => trivial⟩)) fun handles =>
    .bind (.forM _ fun handle _ => ?_) fun _ => Prog.meets_ret _
  unfold escalateHandle
  split
  · exact .bind (bump_priced handle now) fun _ => Prog.meets_ret _
  · exact Prog.meets_ret _

end AccountExecutor

theorem Call.body_priced : ∀ c : Call, (client.body c).Meets (.history PriceOwes) :=
  body_meets (fun past _ ho => AccountExecutor.bumpsNothing_priced ho past) fun _ =>
    AccountExecutor.escalate_priced

end Programs

section Law

variable [Alloy]

/-- Bumps are priced by the oracle, with this answer of the node for its base fee, and signatures
given by local signers. -/
def PricedBy (checks : Bool) (oracle : RpcGasOracle) (keys : Address → LocalSigner)
    (baseFee : Except RpcError Nat) : PortEvent → Prop
  | ⟨.gasBump prev, r⟩ => oracle.bump checks prev baseFee = some r
  | e => SignedLocally keys e

/-- The increments of the oracle do not wrap around. -/
def incrementsFit (checks : Bool) : Op → Bool
  | .gasBump prev =>
    checks || (prev.maxFeePerGas < maxU128 && prev.maxPriorityFeePerGas < maxU128)
  | _ => true

/-- Calls in any interleaving over such an oracle and such signers. -/
def pricedCalls (checks : Bool) (oracle : RpcGasOracle) (keys : Address → LocalSigner)
    (fits : Op → Bool) : System ports World Call CallResult where
  Choice := Except RpcError Nat
  body := Call.client.body
  admits _ _ := True
  allow p _ baseFee o r := p.world.can ⟨o, r⟩ ∧ PricedBy checks oracle keys baseFee ⟨o, r⟩ ∧ fits o
  next w _ o r := w.apply ⟨o, r⟩

variable {checks : Bool} {oracle : RpcGasOracle} {keys : Address → LocalSigner} {fits : Op → Bool}
  {p : CallPool}

theorem pricedCalls_runs : Call.client.Runs (pricedCalls checks oracle keys fits) id where
  can ha := ha.1
  next _ := rfl
  body := rfl

section Run

variable (h : (pricedCalls checks oracle keys fits).Reaches Client.start p)
include h

theorem log_priced {e : PortEvent} (he : e ∈ p.world.log) :
    ∃ baseFee, PricedBy checks oracle keys baseFee e ∧ fits e.op := by
  obtain ⟨l, l', hl⟩ := List.append_of_mem he
  exact pricedCalls_runs.log_answered
    (K := fun _ e => ∃ baseFee, PricedBy checks oracle keys baseFee e ∧ fits e.op)
    Client.fresh_start (fun {_ _ baseFee _ _} ha => ⟨baseFee, ha.2⟩) h l e l' hl

/-- What was signed is within the envelope of its approval. -/
theorem signed_admitted {signer : Address} {tx : TxEip1559} {intentHash : B256}
    {approval : PolicyApproval} {now : Nat} {signature : Signature}
    (hs : ev (.signTransaction signer tx intentHash approval now) (.ok signature) ∈ p.world.log) :
    approval.gasEnvelope.admits tx.maxFeePerGas tx.maxPriorityFeePerGas := by
  obtain ⟨_, hsigned, -⟩ := log_priced h hs
  exact (LocalSigner.signTransaction_ok (Eq.symm hsigned)).2.2

/-- A bump that is recorded is the next rung. -/
theorem ladder_of_bump (hdecode : DecodesBodies) (hfits : fits = incrementsFit checks)
    {th : CallThread} (hth : th ∈ p.threads) {g g' : TxHandle}
    {k : Except StateStoreError Unit → Io CallResult}
    (hprog : th.prog = .call (.putHandle g' (.bump g)) k) {bodies : List Body}
    (hl : Ladder oracle.ceilingMaxFee p.world.log g bodies) {rlp : Bytes} {now : Nat}
    (hg' : g' = { g with
      submission := ⟨AccountExecutor.bumpRoute g⟩
      signed := rlp
      broadcasts := g.broadcasts ++ [keccak256 rlp]
      lastBroadcastAt := now }) :
    ∃ bodies, Ladder oracle.ceilingMaxFee p.world.log g' bodies := by
  have logged : ∀ e ∈ th.past, e ∈ p.world.log := fun e =>
    pricedCalls_runs.mem_log Client.fresh_start h hth
  have hist := System.Reaches.history h (fun c => c.body_priced []) rfl th hth
  rw [hprog] at hist
  obtain ⟨current, b, hcurrent, hprice, hfees, htx, hb, hrlp⟩ := (Prog.wp_history_call.mp hist).1
  obtain ⟨last, hlast, rfl⟩ := hl.decodeFees hdecode hcurrent
  obtain ⟨baseFee, hbump, hfit⟩ := log_priced h (logged _ hprice)
  have hanswer : oracle.bump checks last.fees baseFee = some (.ok b.fees) := hbump
  obtain ⟨hmax, htip, hcap, hcap'⟩ := bump_rises hanswer (by
    simpa [hfits, incrementsFit, ev] using hfit)
  subst hg'
  obtain rfl : rlp = b.rlp := hrlp
  exact ⟨bodies ++ [b], hl.snoc hlast ⟨hmax, htip⟩ (hb.mono logged) htx hfees ⟨hcap, hcap'⟩ rfl rfl
    rfl rfl rfl⟩

theorem exists_ladder (hdecode : DecodesBodies) (hfits : fits = incrementsFit checks) {g : TxHandle}
    (hg : p.world.store.handle g.id = some g) :
    ∃ bodies, Ladder oracle.ceilingMaxFee p.world.log g bodies := by
  have mono : ∀ (l : List PortEvent) e g, (∃ bodies, Ladder oracle.ceilingMaxFee l g bodies) →
      ∃ bodies, Ladder oracle.ceilingMaxFee (l ++ [e]) g bodies := fun l e g ⟨bodies, hl⟩ =>
    ⟨bodies, hl.mono fun _ he => List.mem_append_left _ he⟩
  refine (pricedCalls_runs.handles
    (P := fun l g => ∃ bodies, Ladder oracle.ceilingMaxFee l g bodies)
    Client.fresh_start mono (fun {p th h' site k role} hreach hth hprog hrole howes hknown =>
      mono _ _ _ ?_) h).1 g hg
  have logged : ∀ e ∈ th.past, e ∈ p.world.log := fun e =>
    pricedCalls_runs.mem_log Client.fresh_start hreach hth
  cases hb : site.basis with
  | some g =>
    obtain ⟨bodies, hl⟩ := hknown g (howes.known hb)
    cases id (howes.version hb) with
    | sent | rejected | marked | unmarked | advanced | relayFailed =>
      exact ⟨bodies, hl.restated rfl rfl rfl rfl rfl⟩
    | included x =>
      -- only a handle without broadcasts is polled
      obtain ⟨e, -, -, hawaiting, -⟩ := howes
      obtain ⟨b, hlast, -⟩ := hl.current
      have hempty : g.broadcasts = [] := by
        unfold isAwaitingRelay at hawaiting
        simp_all
      rw [hl.recorded, List.map_eq_nil_iff] at hempty
      simp [hempty] at hlast
    | bumped rlp now => exact ladder_of_bump hreach hdecode hfits hth hprog hl rfl
  | none =>
    obtain ⟨origin, rfl⟩ | ⟨marked, rfl⟩ := Call.new_site hrole howes hb
    · obtain ⟨m, -, ⟨intent, nonce, gasLimit, fees, approval, now, signed, opts, context, -, -,
        ⟨-, sig, hsig, hrlp⟩, hhash, rfl⟩, -⟩ := howes
      refine ⟨[⟨buildTx intent nonce gasLimit fees, sig⟩], ladder_first ?_ hrlp ?_ rfl ?_⟩
      · simp [walHandle, hhash, hrlp, Body.hash, Body.rlp]
      · exact ⟨m.signer, intent.hash, approval, now, logged _ hsig⟩
      · exact signed_admitted hreach (logged _ hsig)
    · obtain ⟨m, approval, now, signed, -, rfl, hhash, -, fees, -, sig, hsig, hrlp⟩ := howes
      refine ⟨[⟨buildTx (cancelIntent marked.intent.chainId marked.account) marked.nonce
        TransactionManager.cancelGasLimit fees, sig⟩], ladder_first ?_ hrlp ?_ rfl ?_⟩
      · simp [cancelHandle, hhash, hrlp, Body.hash, Body.rlp]
      · exact ⟨m.signer, _, approval, now, logged _ hsig⟩
      · exact signed_admitted hreach (logged _ hsig)

end Run

/-- **The bump ladder.** Whatever calls are made, every stored handle records a ladder of bodies,
and its envelope bounds the number of its bumps, as long as no fee at the end of `u128` is bumped in
a build without overflow checks. -/
theorem recorded_bodies_are_ladder (hdecode : DecodesBodies)
    (h : (pricedCalls checks oracle keys (incrementsFit checks)).Reaches Client.start p)
    {g : TxHandle} (hg : p.world.store.handle g.id = some g) :
    (∃ bodies, Ladder oracle.ceilingMaxFee p.world.log g bodies) ∧
      g.broadcasts.length ≤ g.envelope.maxFeeCap + 1 ∧
      g.broadcasts.length ≤ g.envelope.maxPriorityCap + 1 := by
  obtain ⟨bodies, hl⟩ := exists_ladder h hdecode rfl hg
  exact ⟨⟨bodies, hl⟩, hl.length_le⟩

end Law

section Runs

namespace Toy

/-- The digits of a number to the base 255, the least first. -/
def digits : Nat → Nat → Bytes
  | 0, _ => []
  | fuel + 1, n => if n = 0 then [] else UInt8.ofNat (n % 255) :: digits fuel (n / 255)

/-- A number of any size; 255 ends it. -/
def packed (n : Nat) : Bytes := digits n n ++ [255]

/-- The numbers that bytes spell, of which the first has been read to this value so far. -/
def unpacked (weight value : Nat) : Bytes → List Nat
  | [] => []
  | b :: bytes =>
    if b = 255 then value :: unpacked 1 0 bytes
    else unpacked (255 * weight) (value + weight * b.toNat) bytes

theorem unpacked_digits {fuel n : Nat} (hfuel : n ≤ fuel) (weight value : Nat) (rest : Bytes) :
    unpacked weight value (digits fuel n ++ 255 :: rest) =
      (value + weight * n) :: unpacked 1 0 rest := by
  induction fuel generalizing n weight value with
  | zero =>
    obtain rfl : n = 0 := by omega
    simp [digits, unpacked]
  | succ fuel ih =>
    unfold digits
    split
    · rename_i hn
      simp [hn, unpacked]
    · have hdigit : (UInt8.ofNat (n % 255)).toNat = n % 255 := by
        rw [UInt8.toNat_ofNat']
        omega
      have hne : UInt8.ofNat (n % 255) ≠ 255 := by
        intro heq
        rw [heq] at hdigit
        have : n % 255 = 255 := hdigit.symm
        omega
      have hsum : weight * (n % 255) + 255 * weight * (n / 255) = weight * n :=
        calc weight * (n % 255) + 255 * weight * (n / 255)
            = weight * (n % 255 + 255 * (n / 255)) := by ring
          _ = weight * n := by rw [Nat.mod_add_div]
      rw [List.cons_append, unpacked, if_neg hne, ih (by omega), hdigit, Nat.add_assoc, hsum]

theorem unpacked_packed (ns : List Nat) : unpacked 1 0 (ns.flatMap packed) = ns := by
  induction ns with
  | nil => rfl
  | cons n ns ih =>
    rw [List.flatMap_cons, packed, List.append_assoc, List.singleton_append,
      unpacked_digits (le_refl n), ih]
    simp

def kindNumber : TxKind → Nat
  | .create => 0
  | .call a => a.toNat + 1

def kindOf : Nat → TxKind
  | 0 => .create
  | a + 1 => .call (BitVec.ofNat 160 a)

/-- All fields of a transaction, then the signature. -/
def encodeAll (tx : TxEip1559) (signature : Signature) : Bytes :=
  ([tx.chainId, tx.nonce, tx.gasLimit, tx.maxFeePerGas, tx.maxPriorityFeePerGas, kindNumber tx.to,
    tx.value, tx.input.length] ++ tx.input.map UInt8.toNat ++
    signature.map UInt8.toNat).flatMap packed

def decodeAll (bytes : Bytes) : Option TxEnvelope :=
  match unpacked 1 0 bytes with
  | chainId :: nonce :: gasLimit :: maxFee :: tip :: kind :: value :: length :: rest =>
    some (.eip1559 ⟨chainId, nonce, gasLimit, maxFee, tip, kindOf kind, value,
      (rest.take length).map UInt8.ofNat⟩)
  | _ => none

/-- As before, with an encoding that loses nothing. -/
@[reducible] def lossless : Alloy :=
  { alloy with encoded2718 := encodeAll, decode2718 := decodeAll }

attribute [local instance] lossless

theorem lossless_decodes : DecodesBodies := by
  rintro ⟨tx, signature⟩
  have hkind : kindOf (kindNumber tx.to) = tx.to := by
    cases tx.to with
    | create => rfl
    | call a => simp [kindNumber, kindOf]
  have hinput : (((tx.input.map UInt8.toNat ++ signature.map UInt8.toNat).take
      tx.input.length).map UInt8.ofNat) = tx.input := by
    rw [List.take_left' (by simp), List.map_map]
    simp [Function.comp_def]
  change decodeAll (encodeAll tx signature) = _
  simp only [decodeAll, encodeAll, unpacked_packed, List.cons_append, List.nil_append, hkind,
    hinput]

/-- Bumps are priced by an oracle, and the engine sets no bound to the fees. -/
def priced (checks : Bool) (oracle : RpcGasOracle) (estimate : Eip1559Estimation) :
    (o : Op) → Option o.Reply
  | .gasEstimate => some (.ok estimate)
  | .gasBump prev => oracle.bump checks prev (.ok 1)
  | .evaluate _ (.transaction i) => some (.ok (.allow ⟨i.hash, ⟨maxU128, maxU128⟩, 1000⟩))
  | o => calm o

end Toy

attribute [local instance] Toy.lossless

instance decidablePricedBy (checks : Bool) (oracle : RpcGasOracle) (keys : Address → LocalSigner)
    (baseFee : Except RpcError Nat) (e : PortEvent) :
    Decidable (PricedBy checks oracle keys baseFee e) := by
  unfold PricedBy
  split <;> infer_instance

instance (checks : Bool) (oracle : RpcGasOracle) (fits : Op → Bool) (p : CallPool) (i : Nat)
    (baseFee : (pricedCalls checks oracle Toy.keys fits).Choice) (o : ports.Op)
    (r : ports.Reply o) :
    Decidable ((pricedCalls checks oracle Toy.keys fits).allow p i baseFee o r) :=
  haveI := decidablePricedBy checks oracle Toy.keys baseFee ⟨o, r⟩
  inferInstanceAs (Decidable (_ ∧ _ ∧ _))

instance (checks : Bool) (oracle : RpcGasOracle) (fits : Op → Bool) (p : CallPool) (c : Call) :
    Decidable ((pricedCalls checks oracle Toy.keys fits).admits p c) :=
  inferInstanceAs (Decidable True)

/-- A send at this estimate, and a tick that bumps it. -/
def sentAndBumpedOver (oracle : RpcGasOracle) (estimate : Eip1559Estimation) (fits : Op → Bool) :
    CallPool :=
  System.played (S := pricedCalls false oracle Toy.keys fits) Client.start
    [.spawn (.send Toy.manager Toy.intent .default none),
      .moves 0 20 (.ok 1) (World.serve (Toy.priced false oracle estimate)),
      .spawn (.tick Toy.executor),
      .moves 1 40 (.ok 1) (World.serve (Toy.priced false oracle estimate))]

theorem recorded_bodies_are_ladder_bumped : ∃ g bodies, g.broadcasts.length = 2 ∧
    Ladder 100 (sentAndBumpedOver ⟨100⟩ ⟨10, 1⟩ (incrementsFit false)).world.log g bodies := by
  have hreach : (pricedCalls false ⟨100⟩ Toy.keys (incrementsFit false)).Reaches Client.start
      (sentAndBumpedOver ⟨100⟩ ⟨10, 1⟩ (incrementsFit false)) := System.reaches_played _ _
  have hstored : (sentAndBumpedOver ⟨100⟩ ⟨10, 1⟩ (incrementsFit false)).world.store.has
      (·.broadcasts.length = 2) := by decide +kernel
  obtain ⟨g, hg, hlength⟩ := Store.exists_of_has hstored
  obtain ⟨⟨bodies, hl⟩, -⟩ := recorded_bodies_are_ladder Toy.lossless_decodes hreach hg
  exact ⟨g, bodies, of_decide_eq_true hlength, hl⟩

/-- The transaction of that send, at these fees. -/
def Toy.bodyAt (fees : Eip1559Estimation) : Body := ⟨buildTx Toy.intent 4 25200 fees, [1]⟩

/-- Without overflow checks, a bump from the end of `u128` goes through at a hundredth of the
fee. -/
theorem bump_falls_at_the_end : ∃ p g, ∃ b b' : Body,
    (pricedCalls false ⟨maxU128⟩ Toy.keys fun _ => true).Reaches Client.start p ∧
    p.world.store.handle g.id = some g ∧ g.broadcasts = [b.hash, b'.hash] ∧ g.signed = b'.rlp ∧
    b.tx.maxFeePerGas = maxU128 ∧ b'.tx.maxFeePerGas < b.tx.maxFeePerGas := by
  let p := sentAndBumpedOver ⟨maxU128⟩ ⟨maxU128, 1⟩ fun _ => true
  let b := Toy.bodyAt ⟨maxU128, 1⟩
  let b' := Toy.bodyAt ⟨maxU128 / 100 + 1, 2⟩
  have hreach : (pricedCalls false ⟨maxU128⟩ Toy.keys fun _ => true).Reaches Client.start p :=
    System.reaches_played _ _
  have hstored : p.world.store.has fun g =>
      g.broadcasts = [b.hash, b'.hash] && g.signed = b'.rlp := by decide +kernel
  obtain ⟨g, hg, hboth⟩ := Store.exists_of_has hstored
  rw [Bool.and_eq_true] at hboth
  exact ⟨p, g, b, b', hreach, hg, of_decide_eq_true hboth.1, of_decide_eq_true hboth.2, rfl,
    by decide⟩

end Runs

end WalletKit
