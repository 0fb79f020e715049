import WalletKit.Runtime.Chain
import WalletKit.Runtime.Wallet
import WalletKit.Safety.Burial
import WalletKit.Safety.Evidence

/-!
# A settled outcome stays on the chain

The nodes behind the RPC may lag: every read but that of a block's hash may be answered from any
chain that was ever canonical, so a cycle can mix heads, finalized tags and receipts of different
forks. What is assumed of the chain is that it never drops a block once that was finalized or as
deep as the wallet requires, and that a block's hash determines what the block holds. Comparing a
receipt's block hash with the canonical one is then enough: what is stored as confirmed is on the
canonical chain with that outcome, and remains there.
-/
namespace WalletKit

open Machine

section Chains

/-- The block is so many blocks below the head, itself counted, or it is finalized. -/
def Chain.Deep (k : Nat) (c : Chain) (b : Nat) : Prop :=
  b ≤ c.head ∧ (k ≤ c.head - b + 1 ∨ c.finalized.any (b ≤ ·))

/-- `c` may be canonical after `d`: what was deep stays, and equal hashes are of equal blocks. -/
structure Chain.Follows (k : Nat) (c d : Chain) : Prop where
  deep : ∀ b, d.Deep k b → b ≤ c.head ∧ c.hashes b = d.hashes b
  bound : ∀ t : Inclusion, t.block ≤ c.head → t.block ≤ d.head →
    c.hashes t.block = d.hashes t.block → (t ∈ c.txs ↔ t ∈ d.txs)

/-- The transaction is on the newest of these chains, in a block that was deep on some of them and
is still the same. -/
def Rooted (k : Nat) (cs : List Chain) (t : Inclusion) : Prop :=
  ∃ c ∈ cs.head?, t ∈ c.txs ∧ ∃ d ∈ cs, d.Deep k t.block ∧ c.hashes t.block = d.hashes t.block

variable {k : Nat} {c : Chain} {cs newer : List Chain} {t : Inclusion}

theorem Rooted.cons (h : Rooted k cs t) (hc : ∀ d ∈ cs, c.Follows k d) : Rooted k (c :: cs) t := by
  obtain ⟨c', hhead, ht, d, hd, hdeep, hsame⟩ := h
  have hmem : c' ∈ cs := List.mem_of_head? hhead
  obtain ⟨hle, hkept⟩ := (hc d hd).deep _ hdeep
  refine ⟨c, rfl, ?_, d, List.mem_cons_of_mem _ hd, hdeep, hkept⟩
  exact ((hc c' hmem).bound t hle (c'.bounded t ht) (hkept.trans hsame.symm)).mpr ht

/-- What is rooted stays so, whatever chains follow. -/
theorem Rooted.append (h : Rooted k cs t) (hcs : (newer ++ cs).Pairwise (Chain.Follows k)) :
    Rooted k (newer ++ cs) t := by
  induction newer with
  | nil => exact h
  | cons c newer ih =>
    obtain ⟨hc, hrest⟩ := List.pairwise_cons.mp hcs
    exact (ih hrest).cons hc

theorem Chain.eq_of_receipt {x : TxHash} {rc : TransactionReceipt} (h : c.receipt x = some rc) :
    ∃ t ∈ c.txs, t.hash = x ∧
      rc = ⟨some t.block, some (c.hashes t.block), t.succeeded, t.logs⟩ := by
  obtain ⟨t, hfind, rfl⟩ := Option.map_eq_some_iff.mp h
  exact ⟨t, List.mem_of_find?_eq_some hfind, by simpa using List.find?_some hfind, rfl⟩

/-- The transaction ran, and so did the request it carries for a forwarder. -/
def Inclusion.Executed [Alloy] (t : Inclusion) (g : TxHandle) : Prop :=
  t.succeeded ∧ ∀ context, g.meta = some context → context.task = none →
    context.innerSucceeded t.logs

theorem executed_iff [Alloy] {rc : TransactionReceipt} {g : TxHandle} (hs : rc.status = t.succeeded)
    (hl : rc.logs = t.logs) : outcomeOf rc g = .executed ↔ t.Executed g := by
  unfold Inclusion.Executed
  rw [← hs, ← hl]
  refine ⟨executed_of_outcomeOf, fun ⟨hok, hinner⟩ => ?_⟩
  cases hm : g.meta with
  | none => simp [outcomeOf, hm, hok]
  | some context =>
    cases ht : context.task with
    | none => simp [outcomeOf, hm, hok, ht, hinner context hm ht]
    | some task => simp [outcomeOf, hm, hok, ht]

end Chains

/-- The wallet's world, the canonical chain, and those that were canonical before it. -/
structure Forks where
  world : World
  chain : Chain
  older : List Chain

namespace Forks

/-- All chains that were ever canonical, newest first. -/
def chains (w : Forks) : List Chain := w.chain :: w.older

/-- A block's hash is told as it now is; any other read may be of an older chain. -/
def Told (w : Forks) (c : Chain) : PortEvent → Prop
  | ⟨.blockHash b, r⟩ => c.tells ⟨.blockHash b, r⟩
  | e => ∃ d ∈ c :: w.chains, d.tells e

theorem Told.exists {w : Forks} {c : Chain} {e : PortEvent} (h : w.Told c e) :
    ∃ d ∈ c :: w.chains, d.tells e := by
  obtain ⟨o, r⟩ := e
  cases o with
  | blockHash b => exact ⟨c, by simp, h⟩
  | _ => exact h

/-- What a call has read was told by these chains. -/
def Sees (cs : List Chain) (past : List PortEvent) : Prop := ∀ e ∈ past, ∃ c ∈ cs, c.tells e

/-- Each of a call's anchors was told by the chain of its moment, and whatever the call had read
before by that chain or an older one. -/
structure Anchors (w : Forks) (past : List PortEvent) : Prop where
  sees : Sees w.chains past
  anchored : ∀ before b bh after, past = before ++ ev (.blockHash b) (.ok (some bh)) :: after →
    ∃ newer c old, w.chains = newer ++ c :: old ∧ c.blockHash b = some bh ∧ Sees (c :: old) before

end Forks

section Runs

variable [Alloy] {C α : Type}

/-- The calls of a client on a chain that keeps what is `k` deep, through nodes that lag. -/
def Client.onForks (cl : Client C α) (k : Nat) : System ports Forks C α where
  Choice := Chain
  body := cl.body
  admits _ _ := True
  allow p _ c o r := p.world.world.can ⟨o, r⟩ ∧ (∀ d ∈ p.world.chains, c.Follows k d) ∧
    p.world.Told c ⟨o, r⟩
  next w c o r := ⟨w.world.apply ⟨o, r⟩, c, w.chains⟩

/-- Nothing has been called yet, and the chain is this one. -/
def Client.startFrom (c : Chain) : Pool ports Forks C α := ⟨⟨.initial, c, []⟩, []⟩

variable {cl : Client C α} {k : Nat} {c₀ : Chain} {p q : Pool ports Forks C α}

theorem Client.onForks_runs : cl.Runs (cl.onForks k) Forks.world where
  can ha := ha.1
  next _ := rfl
  body := rfl

omit [Alloy] in
theorem Client.fresh_startFrom :
    Backed.Fresh Forks.world (Client.startFrom c₀ : Pool ports Forks C α) := ⟨rfl, rfl⟩

/-- Every chain follows all those before it. -/
theorem follows_of_reaches (h : (cl.onForks k).Reaches (Client.startFrom c₀) p) :
    p.world.chains.Pairwise (Chain.Follows k) := by
  refine h.invariant (I := fun p => p.world.chains.Pairwise (Chain.Follows k))
    (List.pairwise_singleton _ _) fun p p' hp hs => ?_
  cases hs with
  | spawn c _ => exact hp
  | @move i th o k x r hi hprog ha => exact List.pairwise_cons.mpr ⟨ha.2.1, hp⟩

theorem chains_suffix (h : (cl.onForks k).Reaches p q) : p.world.chains <:+ q.world.chains := by
  refine h.invariant (I := fun q => p.world.chains <:+ q.world.chains)
    (List.suffix_refl _) fun q q' hq hs => ?_
  cases hs with
  | spawn c _ => exact hq
  | @move i th o k x r hi hprog ha => exact hq.trans (List.suffix_cons _ _)

theorem anchors_of_reaches (h : (cl.onForks k).Reaches (Client.startFrom c₀) p) :
    ∀ th ∈ p.threads, Forks.Anchors p.world th.past := by
  have later : ∀ {cs : List Chain} {past : List PortEvent} {c : Chain}, Forks.Sees cs past →
      Forks.Sees (c :: cs) past := by
    intro cs past c hsees e he
    obtain ⟨d, hd, htells⟩ := hsees e he
    exact ⟨d, List.mem_cons_of_mem _ hd, htells⟩
  have kept : ∀ {w : Forks} {past : List PortEvent} {c : Chain} {v : World}, w.Anchors past →
      Forks.Anchors ⟨v, c, w.chains⟩ past := by
    intro w past c v hw
    refine ⟨later hw.sees, fun before b bh after hpast => ?_⟩
    obtain ⟨newer, d, old, hchains, hrest⟩ := hw.anchored before b bh after hpast
    exact ⟨c :: newer, d, old, by simp [Forks.chains, ← hchains], hrest⟩
  refine h.gathered (K := Forks.Anchors) rfl (fun w => ⟨by simp [Forks.Sees], by simp⟩)
    (fun _ hw => kept hw) fun {p i th c o r} _ _ ha hw => ⟨fun e he => ?_, ?_⟩
  · rcases List.mem_append.mp he with he | he
    · exact later hw.sees e he
    · cases List.mem_singleton.mp he
      exact ha.2.2.exists
  · intro before b bh after hpast
    rcases List.eq_nil_or_concat after with rfl | ⟨after, e', rfl⟩
    · -- the anchor is this very answer
      obtain ⟨rfl, he⟩ := List.append_inj' hpast rfl
      cases he
      have htold : Chain.tells c ⟨.blockHash b, .ok (some bh)⟩ := ha.2.2
      refine ⟨[], c, p.world.chains, rfl, ?_, later hw.sees⟩
      simpa [Chain.tells, Except.toOption, eq_comm] using htold
    · rw [List.concat_eq_append, ← List.cons_append, ← List.append_assoc] at hpast
      exact (kept hw).anchored before b bh after (List.append_inj' hpast rfl).1

omit [Alloy] in
/-- Final for a cycle means deep on a chain it has read, or on any that has the block at all. -/
theorem deep_of_isFinal {before : List PortEvent} {e : AccountExecutor} {cycle : Cycle} {b : Nat}
    {cs : List Chain} {c : Chain} (hcycle : InCycle before e cycle)
    (hk : k ≤ e.requiredConfirmations) (hsees : Forks.Sees (c :: cs) before) (hb : b ≤ c.head)
    (hf : isFinal b cycle.view cycle.finality) : ∃ d ∈ c :: cs, d.Deep k b := by
  obtain ⟨pre, last, tag, after, rfl, -, hcfg, hfin, -, hle⟩ := hcycle
  obtain ⟨d, hd, hhead⟩ := hsees (ev .blockNumber (.ok cycle.view.latest)) (by simp [cycleReads])
  obtain ⟨d', hd', htag⟩ := hsees (ev .finalizedBlock (.ok tag)) (by simp [cycleReads])
  have hlatest : cycle.view.latest = d.head := by
    simpa [Chain.tells, ev, Except.toOption] using hhead
  cases tag with
  | some f =>
    have hfinal : b ≤ f := by
      have : cycle.view.finalized = f := by simpa using hfin
      simpa [isFinal, hcfg, this] using hf
    have hfinalized : d'.finalized = some f := by
      simpa [Chain.tells, ev, Except.toOption, eq_comm] using htag
    have hbelow := d'.finalized_le
    simp only [hfinalized, Option.all_some, decide_eq_true_eq] at hbelow
    exact ⟨d', hd', hfinal.trans hbelow, .inr (by simpa [hfinalized] using hfinal)⟩
  | none =>
    have hdepth : e.requiredConfirmations ≤ d.head - b + 1 := by
      simpa [isFinal, hcfg, ← hlatest] using hf
    by_cases hle : b ≤ d.head
    · exact ⟨d, hd, hle, .inl (hk.trans hdepth)⟩
    · -- a block above the head that was read counts as one deep
      exact ⟨c, by simp, hb, .inl (by omega)⟩

/-- What an outcome rests on: a broadcast of the handle that is rooted, and ran or did not. -/
structure Grounded (k : Nat) (cs : List Chain) (g : TxHandle) : Prop where
  confirmed : ∀ b, g.status = .confirmed b →
    ∃ t, Rooted k cs t ∧ t.hash ∈ g.broadcasts ∧ t.block = b ∧ t.Executed g
  failed : ∀ reason, g.status = .failed reason →
    ∃ t, Rooted k cs t ∧ t.hash ∈ g.broadcasts ∧ ¬t.Executed g

theorem Evidence.grounded {w : Forks} {past : List PortEvent} {e : AccountExecutor}
    {h h' : TxHandle} (hev : Evidence past e h h') (hk : k ≤ e.requiredConfirmations)
    (hw : w.Anchors past) (hcs : w.chains.Pairwise (Chain.Follows k)) :
    Grounded k w.chains h' := by
  obtain ⟨before, scan, cycle, event, next, rfl, hcycle, -, -, hscan, hnext, rfl⟩ := hev
  obtain ⟨-, -, ⟨-, rfl, -⟩ | ⟨b, bh, o, rfl, ⟨hfinal, rfl⟩ | ⟨-, rfl⟩⟩ |
    ⟨-, ⟨l, -, -, rfl⟩ | ⟨-, rfl⟩⟩⟩ := transition_cases hnext
  · exact ⟨by simp [AccountExecutor.settleStatus], by simp [AccountExecutor.settleStatus]⟩
  · cases hscan with
    | @anchored older newer x rc _ _ hbroadcasts hblock hhash =>
      -- the receipt is of a chain that the anchoring one follows, or of that one itself
      obtain ⟨later, c, old, hchains, hcanon, hsees⟩ := hw.anchored
        (before ++ noReceipts newer.reverse ++ [ev (.receipt x) (.ok (some rc))]) b bh [] (by simp)
      rw [hchains] at hcs ⊢
      have hold : (c :: old).Pairwise (Chain.Follows k) := (List.pairwise_append.mp hcs).2.1
      obtain ⟨hb, rfl⟩ : b ≤ c.head ∧ c.hashes b = bh := by
        simpa [Chain.blockHash] using hcanon
      obtain ⟨d, hd, hreceipt⟩ := hsees (ev (.receipt x) (.ok (some rc))) (by simp)
      have htold : d.receipt x = some rc := by
        simpa [Chain.tells, ev, Except.toOption, eq_comm] using hreceipt
      obtain ⟨t, ht, rfl, rfl⟩ := Chain.eq_of_receipt htold
      obtain rfl : t.block = b := by simpa using hblock
      have hsame : c.hashes t.block = d.hashes t.block := by simpa using hhash.symm
      have hmem : t ∈ c.txs := by
        rcases List.mem_cons.mp hd with rfl | hd
        · exact ht
        · exact (((List.pairwise_cons.mp hold).1 d hd).bound t hb (d.bounded t ht) hsame).mpr ht
      obtain ⟨d', hd', hdeep⟩ := deep_of_isFinal hcycle hk
        (fun e he => hsees e (by simp [he])) hb hfinal
      have hkept : c.hashes t.block = d'.hashes t.block := by
        rcases List.mem_cons.mp hd' with rfl | hd'
        · rfl
        · exact (((List.pairwise_cons.mp hold).1 d' hd').deep _ hdeep).2
      have hrooted : Rooted k (later ++ c :: old) t :=
        Rooted.append ⟨c, rfl, hmem, d', hd', hdeep, hkept⟩ hcs
      have hown : t.hash ∈ h.broadcasts := by simp [hbroadcasts]
      have hexecuted : outcomeOf ⟨some t.block, some (d.hashes t.block), t.succeeded, t.logs⟩ h =
          .executed ↔ t.Executed h := executed_iff rfl rfl
      refine ⟨fun b hs => ?_, fun reason hs => ?_⟩
      · cases ho : outcomeOf ⟨some t.block, some (d.hashes t.block), t.succeeded, t.logs⟩ h with
        | executed =>
          rw [ho] at hs
          have hblock : t.block = b := by
            simpa [AccountExecutor.settleStatus, Outcome.settled] using hs
          exact ⟨t, hrooted, hown, hblock, hexecuted.mp ho⟩
        | reverted =>
          rw [ho] at hs
          simp [AccountExecutor.settleStatus, Outcome.settled] at hs
      · cases ho : outcomeOf ⟨some t.block, some (d.hashes t.block), t.succeeded, t.logs⟩ h with
        | executed =>
          rw [ho] at hs
          simp [AccountExecutor.settleStatus, Outcome.settled] at hs
        | reverted =>
          refine ⟨t, hrooted, hown, fun hran => ?_⟩
          rw [hexecuted.mpr hran] at ho
          cases ho
  · exact ⟨by simp [AccountExecutor.settleStatus], by simp [AccountExecutor.settleStatus]⟩
  · unfold AccountExecutor.settleStatus
    constructor <;> intro _ hs <;> dsimp only at hs <;> split at hs <;> cases hs
  · exact ⟨by simp [AccountExecutor.settleStatus], by simp [AccountExecutor.settleStatus]⟩

/-- Whatever `confirm` writes is grounded when it is written. -/
theorem grounded_of_advance (h : (cl.onForks k).Reaches (Client.startFrom c₀) p)
    (hk : ∀ c e, cl.Plays c (.executor e) → k ≤ e.requiredConfirmations)
    {th : Thread ports C α} (hth : th ∈ p.threads) {role : Role} (hrole : cl.Plays th.call role)
    {g h' : TxHandle} (howes : PutOwes role th.past h' (.advance g)) :
    Grounded k p.world.chains h' := by
  obtain ⟨e, rfl, hev⟩ := howes
  exact hev.grounded (hk _ _ hrole) (anchors_of_reaches h th hth) (follows_of_reaches h)

theorem Grounded.cons {c : Chain} {cs : List Chain} {g : TxHandle} (h : Grounded k cs g)
    (hc : ∀ d ∈ cs, c.Follows k d) : Grounded k (c :: cs) g := by
  refine ⟨fun b hs => ?_, fun reason hs => ?_⟩
  · obtain ⟨t, ht, hrest⟩ := h.confirmed b hs
    exact ⟨t, ht.cons hc, hrest⟩
  · obtain ⟨t, ht, hrest⟩ := h.failed reason hs
    exact ⟨t, ht.cons hc, hrest⟩

/-- Whatever `confirm` has written is grounded ever after. -/
theorem advances_grounded (h : (cl.onForks k).Reaches (Client.startFrom c₀) p)
    (hk : ∀ c e, cl.Plays c (.executor e) → k ≤ e.requiredConfirmations) :
    ∀ h' g, ev (.putHandle h' (.advance g)) (.ok ()) ∈ p.world.world.log →
      Grounded k p.world.chains h' := by
  induction h with
  | refl => exact fun _ _ he => absurd he List.not_mem_nil
  | @tail p p' hreach hs ih =>
    cases hs with
    | spawn c _ => exact ih
    | @move i th o rest c r hi hprog ha =>
      intro h' g he
      refine Grounded.cons ?_ ha.2.1
      rcases List.mem_append.mp he with he | he
      · exact ih h' g he
      · cases List.mem_singleton.mp he
        have hth := List.mem_of_getElem? hi
        obtain ⟨role, hrole, howes⟩ :=
          Client.onForks_runs.owes Client.fresh_startFrom hreach hth hprog
        exact grounded_of_advance hreach hk hth hrole howes

/-- Only `confirm` stores a handle as confirmed. -/
theorem PutOwes.advance_of_confirmed (hS : cl.Runs (cl.onForks k) Forks.world)
    (h : (cl.onForks k).Reaches (Client.startFrom c₀) p) {th : Thread ports C α}
    (hth : th ∈ p.threads) {role : Role} {h' : TxHandle} {site : PutSite}
    (howes : PutOwes role th.past h' site) {n : Nat} (hs : h'.status = .confirmed n) :
    ∃ g, site = .advance g := by
  cases hb : site.basis with
  | none =>
    cases site with
    | wal =>
      obtain ⟨m, -, ⟨_, _, _, _, _, _, _, _, _, -, -, -, -, rfl⟩, -⟩ := howes
      cases hs
    | cancelNew => obtain ⟨m, approval, now, signed, -, rfl, -⟩ := howes; cases hs
    | task => obtain ⟨-, intent, nonce, now, context, rfl⟩ := howes; cases hs
    | _ => cases hb
  | some g =>
    have hlive := hS.basis_live Client.fresh_startFrom h hth howes hb
    cases howes.version hb with
    | advanced next => exact ⟨g, rfl⟩
    | sent | rejected | included | relayFailed => cases hs
    | marked | unmarked | bumped =>
      rw [show g.status = .confirmed n from hs] at hlive
      cases hlive

theorem confirmed_grounded (h : (cl.onForks k).Reaches (Client.startFrom c₀) p)
    (hk : ∀ c e, cl.Plays c (.executor e) → k ≤ e.requiredConfirmations) {g : TxHandle}
    (hg : p.world.world.store.handle g.id = some g) {n : Nat} (hs : g.status = .confirmed n) :
    ∃ t, Rooted k p.world.chains t ∧ t.hash ∈ g.broadcasts ∧ t.block = n ∧ t.Executed g := by
  have hS : cl.Runs (cl.onForks k) Forks.world := Client.onForks_runs
  refine (hS.handles_in (P := fun w g => ∀ n, g.status = .confirmed n → ∃ t, Rooted k w.chains t ∧
    t.hash ∈ g.broadcasts ∧ t.block = n ∧ t.Executed g) Client.fresh_startFrom
    (fun ha hg n hn => ?_) (fun hreach hth _ ha hrole howes _ n hn => ?_) h).1 g hg n hs
  · obtain ⟨t, ht, hrest⟩ := hg n hn
    exact ⟨t, ht.cons ha.2.1, hrest⟩
  · obtain ⟨g, rfl⟩ := howes.advance_of_confirmed hS hreach hth hn
    exact ((grounded_of_advance hreach hk hth hrole howes).cons ha.2.1).confirmed n hn

/-- What is rooted now is on the canonical chain ever after. -/
theorem Rooted.stays {t : Inclusion} (ht : Rooted k p.world.chains t)
    (h : (cl.onForks k).Reaches (Client.startFrom c₀) p) (hq : (cl.onForks k).Reaches p q) :
    t ∈ q.world.chain.txs := by
  obtain ⟨newer, hnewer⟩ := chains_suffix hq
  have hfollows := follows_of_reaches (h.trans hq)
  rw [← hnewer] at hfollows
  have hroot := ht.append hfollows
  rw [hnewer] at hroot
  obtain ⟨c, hc, hmem, -⟩ := hroot
  cases hc
  exact hmem

end Runs

section Wallets

variable [Alloy]

namespace WalletBuilder

/-- What a wallet counts as deep. -/
def depth (b : WalletBuilder) : Nat := b.confirmations.getD defaultRequiredConfirmations

/-- The calls of the wallet that a builder builds, on a chain that keeps what the wallet counts as
deep, through nodes that lag. -/
abbrev callsOnForks (b : WalletBuilder) : System ports Forks WalletCall WalletResult :=
  b.build.client.onForks b.depth

variable {b : WalletBuilder}

/-- Both executors of a wallet count alike. -/
theorem depth_of_plays {c : WalletCall} {e : AccountExecutor}
    (h : b.build.client.Plays c (.executor e)) : b.depth ≤ e.requiredConfirmations := by
  have hbuild : b.build.executor.requiredConfirmations = b.depth ∧
      ∀ runtime, b.build.gasless = some (.selfRelay runtime) →
        runtime.executor.requiredConfirmations = b.depth := by
    unfold build
    dsimp only
    generalize (if b.refillOnReplaced = true then some b.manager else none) = refill
    split <;> exact ⟨rfl, by rintro _ ⟨⟩ <;> rfl⟩
  cases c with
  | tick =>
    rcases h with h | ⟨runtime, hruntime, h⟩
    · cases h
      exact hbuild.1.ge
    · cases h
      exact (hbuild.2 runtime hruntime).ge
  | sendGasless => rcases h with ⟨-, h⟩ | ⟨runtime, -, h⟩ <;> cases h
  | _ => cases h

end WalletBuilder

variable {b : WalletBuilder} {c₀ : Chain} {p : Pool ports Forks WalletCall WalletResult}

/-- **Settled outcomes are final.** A stored `Confirmed` names the block of one of the handle's
broadcasts, which ran there and is on the canonical chain from now on; and of a handle that
`confirm` stored as failed, a broadcast that did not run is there from now on. -/
theorem settled_outcome_stays (h : b.callsOnForks.Reaches (Client.startFrom c₀) p) :
    (∀ g n, p.world.world.store.handle g.id = some g → g.status = .confirmed n →
      ∃ t : Inclusion, t.hash ∈ g.broadcasts ∧ t.block = n ∧ t.Executed g ∧
        ∀ q, b.callsOnForks.Reaches p q → t ∈ q.world.chain.txs) ∧
    ∀ g h reason, ev (.putHandle g (.advance h)) (.ok ()) ∈ p.world.world.log →
      g.status = .failed reason → ∃ t : Inclusion, t.hash ∈ g.broadcasts ∧ ¬t.Executed g ∧
        ∀ q, b.callsOnForks.Reaches p q → t ∈ q.world.chain.txs := by
  have hk : ∀ c e, b.build.client.Plays c (.executor e) → b.depth ≤ e.requiredConfirmations :=
    fun _ _ => WalletBuilder.depth_of_plays
  refine ⟨fun g n hg hs => ?_, fun g h' reason he hs => ?_⟩
  · obtain ⟨t, ht, hown, hblock, hran⟩ := confirmed_grounded h hk hg hs
    exact ⟨t, hown, hblock, hran, fun q hq => ht.stays h hq⟩
  · obtain ⟨t, ht, hown, hran⟩ := (advances_grounded h hk g h' he).failed reason hs
    exact ⟨t, hown, hran, fun q hq => ht.stays h hq⟩

end Wallets

section ForkedRun

attribute [local instance] Toy.alloy

instance (k : Nat) (c : Chain) (b : Nat) : Decidable (c.Deep k b) :=
  inferInstanceAs (Decidable (_ ∧ _))

instance Chain.decidableFollows (k : Nat) (c d : Chain) : Decidable (c.Follows k d) :=
  decidable_of_iff ((∀ b < d.head + 1, d.Deep k b → b ≤ c.head ∧ c.hashes b = d.hashes b) ∧
      ∀ t ∈ c.txs ++ d.txs, t.block ≤ c.head → t.block ≤ d.head →
        c.hashes t.block = d.hashes t.block → (t ∈ c.txs ↔ t ∈ d.txs)) <| by
    refine ⟨fun h => ⟨fun b hb => h.1 b (Nat.lt_succ_of_le hb.1) hb, fun t hc hd hsame => ?_⟩,
      fun h => ⟨fun b _ => h.deep b, fun t _ => h.bound t⟩⟩
    by_cases ht : t ∈ c.txs ++ d.txs
    · exact h.2 t ht hc hd hsame
    · simp only [List.mem_append, not_or] at ht
      simp [ht]

instance Forks.decidableTold (w : Forks) (c : Chain) (e : PortEvent) : Decidable (w.Told c e) := by
  unfold Forks.Told
  split <;> infer_instance

instance (b : WalletBuilder) (p : Pool ports Forks WalletCall WalletResult) (i : Nat)
    (c : b.callsOnForks.Choice) (o : ports.Op) (r : ports.Reply o) :
    Decidable (b.callsOnForks.allow p i c o r) :=
  have := Chain.decidableFollows b.depth c
  have := p.world.decidableTold c ⟨o, r⟩
  inferInstanceAs (Decidable (_ ∧ (∀ d ∈ p.world.chains, Chain.Follows b.depth c d) ∧ _))

instance (b : WalletBuilder) (p : Pool ports Forks WalletCall WalletResult) (c : WalletCall) :
    Decidable (b.callsOnForks.admits p c) := inferInstanceAs (Decidable True)

/-- The chain up to block 10, without any transaction. -/
def Toy.unforked : Chain where
  head := 10
  hashes _ := 1
  txs := []
  finalized := none
  bounded := by decide
  ordered := by decide
  distinct := by decide
  finalized_le := rfl

/-- The wallet's first transaction, as it is on the chain in this block. -/
def Toy.firstMined (block : Nat) : Inclusion :=
  ⟨Toy.account, 0, Toy.hash (Toy.encode ⟨1, 0, 26250, 10, 1, .create, 0, []⟩ [1]), block, true, []⟩

/-- It is mined in block 11 of a fork that does not last. -/
def Toy.shortFork : Chain where
  head := 11
  hashes b := if b ≤ 10 then 1 else 5
  txs := [Toy.firstMined 11]
  finalized := none
  bounded := by decide
  ordered := by decide
  distinct := by decide
  finalized_le := rfl

/-- It is mined again in block 12 of the fork that takes over. -/
def Toy.longFork : Chain where
  head := 14
  hashes b := if b ≤ 10 then 1 else 6
  txs := [Toy.firstMined 12]
  finalized := none
  bounded := by decide
  ordered := by decide
  distinct := by decide
  finalized_le := rfl

/-- A node on this chain that has the receipts of another one. -/
def Chain.asksReceipts (c d : Chain) (w : Forks) : (o : Op) → Option o.Reply
  | .receipt x => some (.ok (d.receipt x))
  | .pendingNonce a => some (.ok (c.count a))
  | o => World.serve c.asked w.world o

/-- A send, a tick that finds its receipt on a fork already given up, and one that finds it on the
canonical chain, three deep. -/
def forkedSend : Pool ports Forks WalletCall WalletResult :=
  System.played (S := Toy.builder.callsOnForks) (Client.startFrom Toy.unforked)
    [.spawn (.send Toy.intent), .moves 0 40 Toy.unforked (Toy.unforked.asksReceipts Toy.unforked),
      .spawn .tick, .moves 1 1 Toy.shortFork (Toy.shortFork.asksReceipts Toy.shortFork),
      .moves 1 40 Toy.longFork (Toy.longFork.asksReceipts Toy.shortFork),
      .spawn .tick, .moves 2 40 Toy.longFork (Toy.longFork.asksReceipts Toy.longFork)]

theorem settled_outcome_stays_forked : ∃ g : TxHandle,
    forkedSend.world.world.store.handle g.id = some g ∧ g.status = .confirmed 12 ∧
      ∃ t ∈ forkedSend.world.chain.txs, t.hash ∈ g.broadcasts ∧ t.block = 12 ∧ t.Executed g := by
  have hreach : Toy.builder.callsOnForks.Reaches (Client.startFrom Toy.unforked) forkedSend :=
    System.reaches_played _ _
  have hrun : forkedSend.world.world.store.has (·.status = .confirmed 12) := by decide +kernel
  obtain ⟨g, hg, hs⟩ := Store.exists_of_has hrun
  have hstatus : g.status = .confirmed 12 := of_decide_eq_true hs
  obtain ⟨t, hown, hblock, hran, hstays⟩ := (settled_outcome_stays hreach).1 g 12 hg hstatus
  exact ⟨g, hg, hstatus, t, hstays forkedSend .refl, hown, hblock, hran⟩

end ForkedRun

end WalletKit
