import WalletKit.Safety.Routes

/-!
# Managed-relay tasks

The handle of a relay task carries the forwarder's nonce, not the account's, and gets a hash
only from the relay. Once it has one it is tracked like any other handle: if its receipt is
not there yet and the account has moved on, it is taken for displaced and sent again. It is
never displaced as long as no hash that the relay has reported is read without a receipt.
-/
namespace WalletKit

open Machine Signing

/-- On the way to another outcome than the handle's own. -/
def TxStatus.displaced : TxStatus → Bool
  | .replacing _ | .replaced | .dropped => true
  | _ => false

/-- The relay reports this hash for a task. -/
def reportsHash (x : TxHash) : PortEvent → Bool
  | ⟨.poll _, r⟩ => (r : Except RelayError RelayStatus) = .ok (.included x)
  | _ => false

/-- A hash that the relay has reported is not read without a receipt. -/
def receiptReady (w : World) : PortEvent → Bool
  | ⟨.receipt x, r⟩ =>
    (r : Except RpcError (Option TransactionReceipt)) ≠ .ok none || !w.log.any (reportsHash x)
  | _ => true

section Tasks

variable [Alloy] {W C α : Type} {cl : Client C α} {S : System ports W C α} {view : W → World}
  {p₀ p : Pool ports W C α} {errand : C → Errand}

/-- Nothing of a task's handle but its hash comes from elsewhere: it has no bytes of the
wallet's own, and its hashes are those the relay has reported. -/
structure Relayed (log : List PortEvent) (h : TxHandle) : Prop where
  unsigned : h.signed = []
  reported : ∀ x ∈ h.broadcasts, log.any (reportsHash x)

/-- No send carries the context of a task. -/
def Taskless (errand : C → Errand) : Prop :=
  ∀ c context, (errand c).carries context → context.bind (·.task) = none

omit [Alloy] in
theorem Relayed.mono {log : List PortEvent} {h : TxHandle} (hr : Relayed log h) (e : PortEvent) :
    Relayed (log ++ [e]) h :=
  ⟨hr.unsigned, fun x hx => by simp [hr.reported x hx]⟩

/-- Only a relayed send makes a record with a task. -/
theorem SettleOwes.fresh {e : Errand} {role : Role} {past : List PortEvent} {h' : TxHandle}
    {site : PutSite} (hset : SettleOwes e past (.putHandle h' site))
    (htaskless : ∀ context, e.carries context → context.bind (·.task) = none)
    (hput : PutOwes role past h' site) (hb : site.basis = none) {t : TaskId}
    (ht : h'.task? = some t) : h'.signed = [] ∧ h'.broadcasts = [] ∧ h'.status = .sent := by
  cases site with
  | wal origin =>
    cases origin with
    | direct =>
      have hnone : h'.task? = none := htaskless _ hset
      simp [hnone] at ht
    | refill d =>
      obtain ⟨-, -, -, hmeta, -⟩ := hset
      simp [TxHandle.task?, hmeta] at ht
  | cancelNew marked =>
    obtain ⟨m, approval, now, signed, -, rfl, -⟩ := hput
    cases ht
  | task =>
    obtain ⟨-, intent, nonce, now, context, rfl⟩ := hput
    exact ⟨rfl, rfl, rfl⟩
  | _ => cases hb

theorem Client.Runs.relayed (hS : cl.Runs S view) (hset : cl.Settles errand)
    (htaskless : Taskless errand) (hempty : decode2718 [] = none) (h₀ : Backed.Fresh view p₀)
    (h : S.Reaches p₀ p) {th : Thread ports C α} (hth : th ∈ p.threads) {g : TxHandle}
    (hg : Known th.past g) {t : TaskId} (ht : g.task? = some t) :
    Relayed (view p.world).log g := by
  refine (hS.handles (P := fun log g => ∀ t, g.task? = some t → Relayed log g) h₀
    (fun log e g hr t ht => (hr t ht).mono e) (fun {p th h' site k role} hreach hth hprog _ howes
      hknown t ht => ?_) h).2 th hth g hg t ht
  have hsettles := hS.settles hset h₀ hreach hth hprog
  refine Relayed.mono ?_ _
  cases hb : site.basis with
  | none =>
    obtain ⟨hsigned, hbroadcasts, -⟩ := hsettles.fresh (htaskless _) howes hb ht
    exact ⟨hsigned, by simp [hbroadcasts]⟩
  | some g =>
    have hr : g.task? = some t → Relayed _ g := hknown g (howes.known hb) t
    cases howes.version hb with
    | included x =>
      obtain ⟨task, -, ⟨hash, hpoll, he⟩ | ⟨reason, -, he⟩⟩ := hsettles
      · have hlog : (view p.world).log.any (reportsHash hash) :=
          List.any_eq_true.mpr ⟨_, hS.mem_log h₀ hreach hth hpoll, by simp [ev, reportsHash]⟩
        obtain rfl : x = hash := by simpa using congrArg TxHandle.broadcasts he
        obtain ⟨hunsigned, hreported⟩ := hr ht
        refine ⟨hunsigned, fun y hy => ?_⟩
        rcases List.mem_append.mp hy with hy | hy
        · exact hreported y hy
        · rwa [List.mem_singleton.mp hy]
      · cases congrArg TxHandle.status he
    | bumped rlp now =>
      -- a handle without bytes is not bumped
      have hfees : (decodeFees g.signed).isSome := hsettles
      rw [(hr ht).unsigned] at hfees
      simp [decodeFees, hempty] at hfees
    | _ => exact ⟨(hr ht).unsigned, (hr ht).reported⟩

/-- A hash of a task was never read without a receipt after its handle was known. -/
theorem Client.Runs.receipt_found (hS : cl.Runs S view) (hset : cl.Settles errand)
    (htaskless : Taskless errand) (hempty : decode2718 [] = none) (h₀ : Backed.Fresh view p₀)
    (hready : ∀ {p i x o r}, S.allow p i x o r → receiptReady (view p.world) ⟨o, r⟩)
    (h : S.Reaches p₀ p) {th : Thread ports C α} (hth : th ∈ p.threads)
    {before after : List PortEvent} {x : TxHash}
    (hpast : th.past = before ++ ev (.receipt x) (.ok none) :: after) {g : TxHandle}
    (hg : Known before g) {t : TaskId} (ht : g.task? = some t) : x ∉ g.broadcasts := by
  refine h.invariant (I := fun p => S.Reaches p₀ p ∧ ∀ th ∈ p.threads, ∀ before after,
    th.past = before ++ ev (.receipt x) (.ok none) :: after → Known before g → x ∉ g.broadcasts)
    ⟨.refl, by simp [h₀.1]⟩ (fun p p' hp hs => ⟨hp.1.tail hs, ?_⟩) |>.2 th hth before after hpast hg
  obtain ⟨hreach, hp⟩ := hp
  cases hs with
  | spawn c _ =>
    intro th hth before after hpast hg
    rcases Pool.mem_spawn.mp hth with hth | rfl
    · exact hp th hth before after hpast hg
    · simp at hpast
  | @move i th o k c r hi hprog ha =>
    intro th' hth' before after hpast hg
    rcases Pool.mem_answer hth' with hth' | rfl
    · exact hp th' hth' before after hpast hg
    have hth := List.mem_of_getElem? hi
    rcases List.eq_nil_or_concat after with rfl | ⟨after, e', rfl⟩
    · obtain ⟨rfl, he⟩ := List.append_inj' hpast rfl
      cases he
      intro hx
      have hreported := (hS.relayed hset htaskless hempty h₀ hreach hth hg ht).reported x hx
      have hanswer := hready ha
      simp [receiptReady, hreported] at hanswer
    · rw [List.concat_eq_append, ← List.cons_append, ← List.append_assoc] at hpast
      exact hp th hth before after (List.append_inj' hpast rfl).1 hg

/-- A scan that takes a handle for displaced found no receipt for any of its hashes. -/
theorem Scanned.no_receipt {g : TxHandle} {mined : Nat} {scan : List PortEvent}
    (hscan : Scanned g mined scan .replaced) {x : TxHash} (hx : x ∈ g.broadcasts) :
    ev (.receipt x) (.ok none) ∈ scan := by
  cases hscan with
  | consumed _ => exact List.mem_map.mpr ⟨x, List.mem_reverse.mpr hx, rfl⟩

omit [Alloy] in
theorem Known.append {past : List PortEvent} {g : TxHandle} (hg : Known past g)
    (t : List PortEvent) : Known (past ++ t) g := by
  obtain ⟨e, he, hr⟩ := hg
  exact ⟨e, List.mem_append_left t he, hr⟩

theorem Client.Runs.task_undisplaced (hS : cl.Runs S view) (hset : cl.Settles errand)
    (htaskless : Taskless errand) (hempty : decode2718 [] = none) (h₀ : Backed.Fresh view p₀)
    (hready : ∀ {p i x o r}, S.allow p i x o r → receiptReady (view p.world) ⟨o, r⟩)
    (h : S.Reaches p₀ p) :
    (∀ g, (view p.world).store.handle g.id = some g → g.task?.isSome →
      g.status.displaced = false) ∧
    ∀ th ∈ p.threads, ∀ g, Known th.past g → g.task?.isSome → g.status.displaced = false := by
  refine hS.handles (P := fun _ g => g.task?.isSome → g.status.displaced = false) h₀
    (fun _ _ _ hg => hg) (fun {p th h' site k role} hreach hth hprog _ howes hknown htask => ?_) h
  obtain ⟨t, ht⟩ := Option.isSome_iff_exists.mp htask
  cases hb : site.basis with
  | none =>
    obtain ⟨-, -, hsent⟩ := (hS.settles hset h₀ hreach hth hprog).fresh (htaskless _) howes hb ht
    rw [hsent]
    rfl
  | some g =>
    have hg : g.task?.isSome → g.status.displaced = false := hknown g (howes.known hb)
    cases id (howes.version hb) with
    | marked | unmarked | bumped => exact hg htask
    | sent | rejected | included | relayFailed => rfl
    | advanced next =>
      obtain ⟨e, -, before, scan, cycle, event, next, hpast, -, hpending, hrelay, hscan,
        hnext, he⟩ := howes
      rw [he]
      -- the handle has a hash, and whatever receipt it found is its own
      have hevent : event ≠ .replaced := by
        rintro rfl
        obtain ⟨x, hx⟩ := List.exists_mem_of_ne_nil g.broadcasts fun hnil => by
          have hmeta : (g.meta.bind (·.task)).isSome := htask
          cases hm : g.meta with
          | none => simp [hm] at hmeta
          | some context => simp_all [isAwaitingRelay]
        obtain ⟨pre, post, rfl⟩ := List.append_of_mem (hscan.no_receipt hx)
        exact hS.receipt_found hset htaskless hempty h₀ hready hreach hth
          (hpast.trans (List.append_assoc ..).symm) (hpending.seen.known.append pre) ht hx
      obtain ⟨-, -, ⟨-, rfl, -⟩ | ⟨b, bh, o, -, ⟨-, rfl⟩ | ⟨-, rfl⟩⟩ | ⟨rfl, -⟩⟩ :=
        transition_cases hnext
      · rfl
      · cases o <;> rfl
      · rfl
      · exact absurd rfl hevent

end Tasks

section TaskLaw

variable [Alloy]

/-- The calls of a wallet over an RPC that has the receipt of every hash the relay reported. -/
abbrev receiptReadyCalls (w : Wallet) : System ports World WalletCall WalletResult :=
  w.client.system fun p _ e => receiptReady p.world e

omit [Alloy] in
theorem WalletCall.taskless : Taskless WalletCall.errand := by
  intro c context hc
  cases c with
  | cancel id => cases hc
  | _ => exact hc

/-- **Relay tasks never read the account nonce**, as long as the receipt of a reported hash is
there when it is asked for: in any interleaving of the wallet's calls, no handle of a task is
displaced or dropped, and no refill re-sends one. -/
theorem task_handle_never_displaced (w : Wallet) (hempty : decode2718 [] = none)
    {p : WalletPool} (h : (receiptReadyCalls w).Reaches Client.start p) :
    (∀ g, p.world.store.handle g.id = some g → g.task?.isSome → g.status.displaced = false) ∧
    ∀ displaced child opts, SubmitsRefill p displaced child opts → displaced.task? = none := by
  have hruns := w.client.system_runs fun p _ e => receiptReady p.world e
  obtain ⟨hstored, hknown⟩ := hruns.task_undisplaced w.client_settles WalletCall.taskless hempty
    Client.fresh_start (fun ha => ha.2) h
  refine ⟨hstored, fun displaced child opts hs => ?_⟩
  obtain ⟨-, th, hth, before, hpast, hrefills⟩ :=
    hruns.refill_settled w.client_settles Client.fresh_start h hs
  obtain ⟨g, l, l', hbefore, -⟩ := hrefills.once
  by_contra htask
  have hdisplaced := hknown th hth displaced
    ⟨ev (.putHandle displaced (.advance g)) (.ok ()), by simp [hpast, hbefore], .inr rfl⟩
    (Option.isSome_iff_ne_none.mpr htask)
  rw [hrefills.settled] at hdisplaced
  cases hdisplaced

end TaskLaw

section TaskRuns

attribute [local instance] Toy.strictAlloy

def Toy.relaySend : WalletCall := .sendGasless { Toy.intent with value := 0 } ⟨.gelato, 60⟩

/-- A task that the relay reports as included, with its receipt at once. -/
def taskConfirmed : WalletPool :=
  System.played (S := receiptReadyCalls Toy.relayWallet) Client.start
    [.spawn Toy.relaySend, .moves 0 40 () (World.serve (Toy.relaying .pending Toy.calm)),
      .spawn .tick, .moves 1 40 () (World.serve (Toy.relaying (.included 5) Toy.calm)),
      .spawn .tick, .moves 2 40 () (World.serve (Toy.chain 20 5 (some Toy.receipt)))]

theorem task_handle_never_displaced_confirmed :
    (∃ g, taskConfirmed.world.store.handle g.id = some g ∧ g.task?.isSome ∧
      g.status = .confirmed 10) ∧
    (∀ g, taskConfirmed.world.store.handle g.id = some g → g.task?.isSome →
      g.status.displaced = false) ∧
    ∀ displaced child opts, SubmitsRefill taskConfirmed displaced child opts →
      displaced.task? = none := by
  have hreach : (receiptReadyCalls Toy.relayWallet).Reaches Client.start taskConfirmed :=
    System.reaches_played _ _
  have hstored : taskConfirmed.world.store.has fun g =>
      g.task?.isSome && g.status = .confirmed 10 := by decide +kernel
  obtain ⟨g, hg, hf⟩ := Store.exists_of_has hstored
  simp only [Bool.and_eq_true, decide_eq_true_eq] at hf
  exact ⟨⟨g, hg, hf⟩, task_handle_never_displaced Toy.relayWallet rfl hreach⟩

/-- The receipt of the reported hash is late, and the account has sent elsewhere: two cycles
take the task for displaced, and its intent is about to be sent again. -/
def taskRefilled : WalletPool :=
  System.played (S := Toy.relayWallet.calls) Client.start
    [.spawn Toy.relaySend, .moves 0 40 () (World.serve (Toy.relaying .pending Toy.calm)),
      .spawn .tick, .moves 1 40 () (World.serve (Toy.relaying (.included 5) Toy.calm)),
      .spawn .tick, .moves 2 40 () (World.serve (Toy.chain 10 5 none)),
      .spawn .tick, .moves 3 60 () (untilRefill (Toy.chain 20 5 none))]

theorem late_receipt_displaces_task : decode2718 [] = none ∧ ∃ p,
    Toy.relayWallet.calls.Reaches Client.start p ∧
    (∃ g, p.world.store.handle g.id = some g ∧ g.task?.isSome ∧ g.status = .replaced) ∧
    ∃ displaced child opts, SubmitsRefill p displaced child opts ∧ displaced.task?.isSome := by
  have hreach : Toy.relayWallet.calls.Reaches Client.start taskRefilled :=
    System.reaches_played _ _
  have hstored : taskRefilled.world.store.has fun g =>
      g.task?.isSome && g.status = .replaced := by decide +kernel
  have hrefill : (refill? taskRefilled 3).any (·.1.task?.isSome) := by decide +kernel
  obtain ⟨g, hg, hf⟩ := Store.exists_of_has hstored
  obtain ⟨⟨displaced, child, opts⟩, hr, htask⟩ := (Option.any_eq_true _ _).mp hrefill
  simp only [Bool.and_eq_true, decide_eq_true_eq] at hf
  exact ⟨rfl, taskRefilled, hreach, ⟨g, hg, hf⟩, displaced, child, opts,
    submitsRefill_of_refill? hr, htask⟩

end TaskRuns

end WalletKit
