import WalletKit.Runtime.Toy
import WalletKit.Runtime.Wallet

/-!
# Which key signs

A wallet has one or two accounts: the user's, and that of the relayer that submits for them.
Their handles share one store. Sends check that the signer is the account of the intent and
an executor is wired to its own account, but a cancel signs with the user's key whatever
account its target is on.
-/
namespace WalletKit

open Machine Signing

section Signatures

variable [Alloy]

/-- The key of this account has signed these bytes. -/
def signs (account : Address) (rlp : Bytes) : PortEvent → Bool
  | ⟨.signTransaction signer tx _ _ _, r⟩ =>
    match (r : Except SignerError Signature) with
    | .ok signature => signer = account && rlp = encoded2718 tx signature
    | .error _ => false
  | _ => false

theorem SignedBy.signs {past log : List PortEvent} {signer : Address} {tx : TxEip1559}
    {intentHash : B256} {approval : PolicyApproval} {now : Nat} {rlp : Bytes}
    (hs : SignedBy past signer tx intentHash approval now rlp) (hlog : ∀ e ∈ past, e ∈ log) :
    log.any (signs signer rlp) := by
  obtain ⟨-, signature, hsigned, rfl⟩ := hs
  exact List.any_eq_true.mpr ⟨_, hlog _ hsigned, by simp [ev, WalletKit.signs]⟩

/-- What a handle has to broadcast was signed by the key of its account. -/
def KeyHolds (log : List PortEvent) (h : TxHandle) : Prop :=
  h.signed = [] ∨ log.any (signs h.account h.signed)

theorem KeyHolds.mono {log : List PortEvent} {h : TxHandle} (hk : KeyHolds log h)
    (e : PortEvent) : KeyHolds (log ++ [e]) h := hk.imp_right fun hs => by simp [hs]

end Signatures

section Wiring

/-- An executor that signs for its own account. -/
def Role.wired : Role → Prop
  | .executor e => e.signer = e.account
  | _ => True

theorem WalletBuilder.build_wired (b : WalletBuilder) {c : WalletCall} {role : Role}
    (h : c.Plays b.build role) : role.wired := by
  have hbuild : b.build.executor.signer = b.build.executor.account ∧
      ∀ runtime, b.build.gasless = some (.selfRelay runtime) →
        runtime.executor.signer = runtime.executor.account := by
    unfold WalletBuilder.build
    dsimp only
    generalize (if b.refillOnReplaced = true then some b.manager else none) = refill
    split <;> exact ⟨rfl, by rintro _ ⟨⟩ <;> rfl⟩
  cases c with
  | tick =>
    obtain rfl | ⟨runtime, hgasless, rfl⟩ := h
    · exact hbuild.1
    · exact hbuild.2 runtime hgasless
  | sendGasless => obtain ⟨-, rfl⟩ | ⟨runtime, -, rfl⟩ := h <;> trivial
  | _ => obtain rfl := h; trivial

end Wiring

section Law

variable [Alloy]

/-- A cancel finds a handle of the wallet's own account. -/
def ownTarget (w : Wallet) : WalletCall → PortEvent → Bool
  | .cancel _, ⟨.handle _, r⟩ =>
    match (r : Except StateStoreError (Option TxHandle)) with
    | .ok (some target) => target.account = w.manager.signer
    | _ => true
  | _, _ => true

/-- The calls of a wallet in which no cancel is of a handle of the relayer's account. -/
abbrev ownCancels (w : Wallet) : System ports World WalletCall WalletResult :=
  w.client.system fun p i e => p.threads[i]?.all fun th => ownTarget w th.call e

variable {b : WalletBuilder} {p : WalletPool}

/-- A cancel under way is one of the wallet's manager, on its own account. -/
theorem cancelling_own (h : (ownCancels b.build).Reaches Client.start p) {th : WalletThread}
    (hth : th ∈ p.threads) {m : TransactionManager} {marked : TxHandle}
    {approval : PolicyApproval} (hc : Cancelling th.past m marked approval)
    (hrole : th.call.Plays b.build (.manager m)) : m.signer = marked.account := by
  have hruns := b.build.client.system_runs fun p i e =>
    p.threads[i]?.all fun th => ownTarget b.build th.call e
  obtain ⟨target, rfl, -, -, -, hstored⟩ := hc
  obtain ⟨before, after, hpast⟩ := List.append_of_mem hstored
  -- only a cancel marks, and it marks what it read
  obtain ⟨id, hid, hread⟩ := hruns.settled b.build.client_settles Client.fresh_start h hth hpast
  have hcall : th.call = .cancel id := by
    cases hcall : th.call with
    | cancel i => simpa [hcall, WalletCall.errand] using hid
    | _ => simp [hcall, WalletCall.errand] at hid
  have hown := h.answered (K := fun c e => ownTarget b.build c e)
    (fun hi ha => by simpa [hi] using ha.2) rfl th hth _
    (hpast ▸ List.mem_append_left _ hread)
  rw [hcall] at hown hrole
  obtain ⟨⟨⟩⟩ : Role.manager m = .manager b.build.manager := hrole
  exact (of_decide_eq_true hown).symm

/-- Every record was signed by the key of its account, or has nothing signed. -/
theorem keys_hold (h : (ownCancels b.build).Reaches Client.start p) {th : WalletThread}
    (hth : th ∈ p.threads) {g : TxHandle} (hg : Known th.past g) : KeyHolds p.world.log g := by
  have hruns := b.build.client.system_runs fun p i e =>
    p.threads[i]?.all fun th => ownTarget b.build th.call e
  refine (hruns.handles (P := KeyHolds) Client.fresh_start (fun log e g hk => hk.mono e)
    (fun {p th h' site k role} hreach hth hprog hrole howes hknown => ?_) h).2 th hth g hg
  have hlog : ∀ e ∈ th.past, e ∈ p.world.log := fun e =>
    hruns.mem_log Client.fresh_start hreach hth
  refine KeyHolds.mono ?_ _
  cases hb : site.basis with
  | none =>
    cases site with
    | wal origin =>
      obtain ⟨m, -, ⟨_, _, _, _, _, _, _, _, _, hm, -, hsigned, -, rfl⟩, -⟩ := howes
      rw [hm] at hsigned
      exact .inr (hsigned.signs hlog)
    | cancelNew marked =>
      obtain ⟨m, approval, now, signed, rfl, rfl, -, hc, fees, hsigned⟩ := howes
      rw [cancelling_own hreach hth hc hrole] at hsigned
      exact .inr (hsigned.signs hlog)
    | task =>
      obtain ⟨-, intent, nonce, now, context, rfl⟩ := howes
      exact .inl rfl
    | _ => cases hb
  | some g =>
    have hk : KeyHolds _ g := hknown g (howes.known hb)
    cases id (howes.version hb) with
    | bumped =>
      obtain ⟨e, approval, now, rlp, rfl, he, ⟨hseen, -, -, gasLimit, fees, -, hsigned⟩, -⟩ := howes
      have hwired : e.signer = e.account := b.build_wired hrole
      rw [hwired, ← (hruns.pending_live Client.fresh_start hreach hth hseen).1] at hsigned
      rw [he]
      exact .inr (hsigned.signs hlog)
    | _ => exact hk

/-- **The right key for the account**, as long as no cancel is of a handle of the relayer's
account: in any interleaving of the calls of a wallet, the bytes of every broadcast were
signed by the key of their handle's account, which is the account of its intent. -/
theorem broadcast_signed_by_account (h : (ownCancels b.build).Reaches Client.start p) {i : Nat}
    {rlp : Bytes} {opts : SubmissionOpts} {site : SubmitSite}
    (hs : p.next? i = some (.submit rlp opts site)) :
    p.world.log.any (signs site.handle.account rlp) ∧
      site.handle.intent.account = site.handle.account := by
  have hruns := b.build.client.system_runs fun p i e =>
    p.threads[i]?.all fun th => ownTarget b.build th.call e
  obtain ⟨th, hth, k, hprog⟩ := Pool.exists_thread_of_next? hs
  obtain ⟨role, hrole, howes⟩ := hruns.owes Client.fresh_start h hth hprog
  have hlog : ∀ e ∈ th.past, e ∈ p.world.log := fun e => hruns.mem_log Client.fresh_start h hth
  have hcoherent : ∀ g, Known th.past g → g.intent.account = g.account := fun g hg =>
    ((hruns.coherent Client.fresh_start h).2 th hth g hg).account.symm
  cases site with
  | send origin wal =>
    obtain ⟨m, -, ⟨_, _, _, _, _, _, _, _, _, hm, -, hsigned, -, rfl⟩, rfl, -, -⟩ := howes
    rw [hm] at hsigned
    exact ⟨hsigned.signs hlog, rfl⟩
  | recover g =>
    obtain ⟨e, -, rfl, -, -, hne, before, hs, after, hpast, hmem, -⟩ := howes
    have hknown : Known th.past g :=
      ⟨ev (.pendingHandles e.account) (.ok hs), by simp [hpast], .inl ⟨hs, rfl, hmem⟩⟩
    exact ⟨(keys_hold h hth hknown).resolve_left hne, hcoherent g hknown⟩
  | cancel marked =>
    obtain ⟨m, approval, now, rfl, -, hc, fees, hsigned⟩ := howes
    rw [cancelling_own h hth hc hrole] at hsigned
    obtain ⟨target, -, -, -, -, hstored⟩ := hc
    exact ⟨hsigned.signs hlog, hcoherent marked hstored.known⟩
  | bump g =>
    obtain ⟨e, approval, now, rfl, -, hseen, -, -, gasLimit, fees, -, hsigned⟩ := howes
    have hwired : e.signer = e.account := b.build_wired hrole
    rw [hwired, ← (hruns.pending_live Client.fresh_start h hth hseen).1] at hsigned
    exact ⟨hsigned.signs hlog, hcoherent g hseen.known⟩

end Law

section KeyRuns

attribute [local instance] Toy.alloy

/-- The account's wallet with a relayer at another account. -/
def Toy.relayerBuilder : WalletBuilder :=
  { Toy.builder with relayer := some 8, forwarder := some 9 }

def Toy.relayerSend : WalletCall := .sendGasless Toy.intent ⟨.selfRelay .default, 60⟩

/-- The place of the broadcast that call `i` is about to make, and whether the key of the
account signed for it. -/
def keyOf? (p : WalletPool) (i : Nat) : Option (SubmitSite × Bool) :=
  match p.next? i with
  | some (.submit rlp _ site) => some (site, p.world.log.any (signs site.handle.account rlp))
  | _ => none

theorem exists_of_keyOf? {p : WalletPool} {i : Nat} {site : SubmitSite} {signed : Bool}
    (h : keyOf? p i = some (site, signed)) : ∃ rlp opts,
      p.next? i = some (.submit rlp opts site) ∧
      p.world.log.any (signs site.handle.account rlp) = signed := by
  unfold keyOf? at h
  split at h
  · cases h
    exact ⟨_, _, ‹_›, rfl⟩
  · cases h

/-- A relayed send, and a restarted wallet that is about to broadcast it again. -/
def relayedRecover : WalletPool :=
  System.played (S := ownCancels Toy.relayerBuilder.build) Client.start
    [.spawn Toy.relayerSend, .moves 0 40 () (World.serve (Toy.relaying .pending Toy.calm)),
      .spawn .tick, .moves 1 40 () (Toy.heldAt fun site => site.handle.account = 8)]

theorem broadcast_signed_by_account_relayed : ∃ rlp opts site,
    relayedRecover.next? 1 = some (.submit rlp opts site) ∧ site.handle.account = 8 ∧
    relayedRecover.world.log.any (signs site.handle.account rlp) ∧
      site.handle.intent.account = site.handle.account := by
  have hreach : (ownCancels Toy.relayerBuilder.build).Reaches Client.start relayedRecover :=
    System.reaches_played _ _
  have hnext : (keyOf? relayedRecover 1).any fun k => k.1.handle.account = 8 := by
    decide +kernel
  obtain ⟨⟨site, signed⟩, hk, haccount⟩ := (Option.any_eq_true _ _).mp hnext
  obtain ⟨rlp, opts, hs, -⟩ := exists_of_keyOf? hk
  exact ⟨rlp, opts, site, hs, of_decide_eq_true haccount, broadcast_signed_by_account hreach hs⟩

/-- A cancel of the relayer's transaction, about to be broadcast. -/
def relayedCancel : WalletPool :=
  System.played (S := Toy.relayerBuilder.build.calls) Client.start
    [.spawn Toy.relayerSend, .moves 0 40 () (World.serve (Toy.relaying .pending Toy.calm)),
      .spawn (.cancel (.new (Wallet.outerIntent ⟨Toy.relayerBuilder.managerOf 8 0 25,
          Toy.relayerBuilder.executorOf 1 8 0 none false, 9⟩ Toy.intent
          ⟨⟨7, 9, 5, 21000, 0, 160, []⟩, ⟨7, [1]⟩, 9, 1⟩).hash 4)),
      .moves 1 40 () (Toy.heldAt fun _ => true)]

theorem cancel_signs_with_users_key : ∃ p i rlp opts site,
    Toy.relayerBuilder.build.calls.Reaches Client.start p ∧
    p.next? i = some (.submit rlp opts site) ∧ site.handle.account = 8 ∧
    ¬p.world.log.any (signs site.handle.account rlp) := by
  have hreach : Toy.relayerBuilder.build.calls.Reaches Client.start relayedCancel :=
    System.reaches_played _ _
  have hnext : (keyOf? relayedCancel 1).any fun k => k.1.handle.account = 8 && !k.2 := by
    decide +kernel
  obtain ⟨⟨site, signed⟩, hk, hfalse⟩ := (Option.any_eq_true _ _).mp hnext
  obtain ⟨rlp, opts, hs, rfl⟩ := exists_of_keyOf? hk
  simp only [Bool.and_eq_true, decide_eq_true_eq, Bool.not_eq_true'] at hfalse
  exact ⟨_, 1, rlp, opts, site, hreach, hs, hfalse.1, by simp [hfalse.2]⟩

end KeyRuns

end WalletKit
