import WalletKit.Runtime.Toy
import WalletKit.Runtime.Wallet

/-!
# Lost updates

`put_handle` overwrites by id, without a version. A call that writes what it computed from
an older record undoes what others wrote meanwhile. The laws below hold in any interleaving
of a wallet's calls in which every write replaces the very record it was computed from, and
fail without that: each has a run in which one call's write is lost.
-/
namespace WalletKit

open Machine

/-- Settled by the chain: mined for good, displaced, dropped or reverted. -/
def TxStatus.onChain : TxStatus → Bool
  | .confirmed _ | .replaced | .dropped => true
  | .failed reason => reason = "reverted on-chain"
  | _ => false

/-- A record of an attempt that failed before it was on chain. -/
def TxHandle.failedAttempt (h : TxHandle) : Bool :=
  match h.status with
  | .failed reason => reason ≠ "reverted on-chain"
  | _ => false

/-- A write that goes through replaces the record it was computed from. A new record replaces
nothing, or a record that is `spent`. -/
def upToDate (spent : TxHandle → Bool) (w : World) : PortEvent → Bool
  | ⟨.putHandle h site, r⟩ =>
    match (r : Except StateStoreError Unit), site.basis with
    | .error _, _ => true
    | .ok _, some g => w.store.handle h.id = some g
    | .ok _, none => (w.store.handle h.id).all spent
  | _ => true

theorem TxStatus.onChain_isTerminal {s : TxStatus} (h : s.onChain) : s.isTerminal := by
  cases s <;> first | rfl | cases h

theorem TxHandle.failedAttempt_not_onChain {h : TxHandle} (hf : h.failedAttempt) :
    h.status.onChain = false := by
  cases hs : h.status <;> simp_all [failedAttempt, TxStatus.onChain]

section Laws

variable [Alloy] {W C α : Type} {cl : Client C α} {S : System ports W C α} {view : W → World}
  {p₀ p : Pool ports W C α} {spent : TxHandle → Bool}

/-- What a logged write replaced, and what it was made from. -/
structure Replaces (spent : TxHandle → Bool) (w : World) (h' : TxHandle) (site : PutSite) :
    Prop where
  owes : ∃ role past, PutOwes role past h' site
  basis : ∀ g, site.basis = some g → w.store.handle h'.id = some g ∧ g.status.isTerminal = false
  fresh : site.basis = none → ∀ g, w.store.handle h'.id = some g → spent g

/-- Every write of every run from `p₀` is up to date. -/
def WritesUpToDate (S : System ports W C α) (view : W → World) (p₀ : Pool ports W C α)
    (spent : TxHandle → Bool) : Prop :=
  ∀ {p i th x o k r}, S.Reaches p₀ p → p.threads[i]? = some th → th.prog = .call o k →
    S.allow p i x o r → upToDate spent (view p.world) ⟨o, r⟩

theorem Client.Runs.replaces (hS : cl.Runs S view) (h₀ : Backed.Fresh view p₀)
    (hwrites : WritesUpToDate S view p₀ spent)
    (h : S.Reaches p₀ p) {l l' : List PortEvent} {h' : TxHandle} {site : PutSite}
    (hlog : (view p.world).log = l ++ ev (.putHandle h' site) (.ok ()) :: l') :
    Replaces spent (.replay l) h' site := by
  refine hS.log_moved (K := fun w e => ∀ h' site, e = ev (.putHandle h' site) (.ok ()) →
    Replaces spent w h' site) h₀ (fun hreach hi hprog ha h' site he => ?_) h l _ l' hlog h' site rfl
  cases he
  have hth := List.mem_of_getElem? hi
  obtain ⟨role, -, howes⟩ := hS.owes h₀ hreach hth hprog
  have hup := hwrites hreach hi hprog ha
  refine ⟨⟨role, _, howes⟩, fun g hb => ?_, fun hb g hg => ?_⟩
  · simp only [upToDate, hb, decide_eq_true_eq] at hup
    exact ⟨hup, hS.basis_live h₀ hreach hth howes hb⟩
  · simpa only [upToDate, hb, hg, Option.all_some] using hup

/-- No write replaces a record that the chain has settled. -/
theorem Replaces.live {w : World} {h' g : TxHandle} {site : PutSite}
    (hr : Replaces TxHandle.failedAttempt w h' site) (hg : w.store.handle h'.id = some g) :
    g.status.onChain = false := by
  cases hb : site.basis with
  | none => exact TxHandle.failedAttempt_not_onChain (hr.fresh hb g hg)
  | some g' =>
    obtain ⟨hg', hlive⟩ := hr.basis g' hb
    obtain rfl : g' = g := Option.some.inj (hg'.symm.trans hg)
    by_contra hon
    simp [TxStatus.onChain_isTerminal (by simpa using hon)] at hlive

theorem World.settled_apply {w : World} {e : PortEvent} {id : HandleId} {g : TxHandle}
    (hput : ∀ h' site, e = ev (.putHandle h' site) (.ok ()) →
      Replaces TxHandle.failedAttempt w h' site)
    (hg : w.store.handle id = some g) (hon : g.status.onChain) :
    (w.apply e).store.handle id = some g := by
  rw [World.handle_apply]
  cases hw : wrote e with
  | none => exact hg
  | some h' =>
    obtain ⟨site, rfl⟩ := wrote_eq_some hw
    dsimp only
    split
    · rename_i hid
      exact absurd hon (by simp [(hput h' site rfl).live (hid ▸ hg)])
    · exact hg

end Laws

section Settled

/-- The status that an event reports for a handle id, if it is a read of it. -/
def statusRead (id : HandleId) : PortEvent → Option (Option TxStatus)
  | ⟨.handle i, r⟩ =>
    match (r : Except StateStoreError (Option TxHandle)) with
    | .ok found => if i = id then some (found.map (·.status)) else none
    | .error _ => none
  | ⟨.pendingHandles _, r⟩ =>
    match (r : Except StateStoreError (List TxHandle)) with
    | .ok hs => (hs.find? (·.id = id)).map fun h => some h.status
    | .error _ => none
  | _ => none

/-- The statuses that were read of a handle id, in order. -/
def statusReads (id : HandleId) (log : List PortEvent) : List (Option TxStatus) :=
  log.filterMap (statusRead id)

/-- A read reports the status of what is stored. -/
theorem statusRead_can {w : World} {e : PortEvent} {id : HandleId} {found : Option TxStatus}
    (hcan : w.can e) (hr : statusRead id e = some found) :
    (w.store.handle id).map (·.status) = found := by
  obtain ⟨o, r⟩ := e
  cases o with
  | handle i =>
    match r, hr with
    | .ok h, hr =>
      simp only [statusRead, Option.ite_none_right_eq_some, Option.some.injEq] at hr
      obtain ⟨rfl, rfl⟩ := hr
      have hfound : h = w.store.handle i := of_decide_eq_true hcan
      rw [hfound]
  | pendingHandles a =>
    match r, hr with
    | .ok hs, hr =>
      obtain ⟨g, hg, rfl⟩ := Option.map_eq_some_iff.mp hr
      have hid : g.id = id := by simpa using List.find?_some hg
      have hstored : w.store.handle g.id = some g :=
        stored_of_reads (e := ev (.pendingHandles a) (.ok hs))
          ⟨hs, rfl, List.mem_of_find?_eq_some hg⟩ hcan
      rw [← hid, hstored]
      rfl
  | _ => cases hr

/-- Once a read reports a status settled by the chain, later reads report the same. -/
def SettledIsFinal (reads : List (Option TxStatus)) : Prop :=
  reads.Pairwise fun earlier later => earlier.any TxStatus.onChain → later = earlier

variable [Alloy] {W C α : Type} {cl : Client C α} {S : System ports W C α} {view : W → World}
  {p₀ p : Pool ports W C α}

theorem Client.Runs.reads_final (hS : cl.Runs S view) (h₀ : Backed.Fresh view p₀)
    (hwrites : WritesUpToDate S view p₀ TxHandle.failedAttempt)
    (h : S.Reaches p₀ p) (id : HandleId) : SettledIsFinal (statusReads id (view p.world).log) := by
  -- the settled statuses read so far are the stored one
  let I : World → Prop := fun v => SettledIsFinal (statusReads id v.log) ∧
    ∀ s, some s ∈ statusReads id v.log → s.onChain →
      ∃ g, v.store.handle id = some g ∧ g.status = s
  have hI : I (.replay (view p.world).log) := by
    refine World.replay_keeps (l := []) (fun l e l' hlog hl => ?_) rfl
      ⟨List.Pairwise.nil, by simp [statusReads, World.initial]⟩
    obtain ⟨hfinal, hstored⟩ := hl
    rw [World.replay_log] at hfinal hstored
    have hcan : (World.replay l).can e :=
      hS.log_answered (K := fun w e => w.can e) h₀ hS.can h l e l' hlog
    have hkept : ∀ g, (World.replay l).store.handle id = some g → g.status.onChain →
        ((World.replay l).apply e).store.handle id = some g := fun g hg hon =>
      World.settled_apply (fun h' site he => hS.replaces h₀ hwrites h (he ▸ hlog)) hg hon
    have hstored' : ∀ s, some s ∈ statusReads id l → s.onChain →
        ∃ g, ((World.replay l).apply e).store.handle id = some g ∧ g.status = s := by
      intro s hs hon
      obtain ⟨g, hg, rfl⟩ := hstored s hs hon
      exact ⟨g, hkept g hg hon, rfl⟩
    simp only [I, World.apply_log, World.replay_log, statusReads, List.filterMap_append]
    cases hr : statusRead id e with
    | none =>
      rw [List.filterMap_cons_none hr, List.filterMap_nil, List.append_nil]
      exact ⟨hfinal, hstored'⟩
    | some found =>
      have hfound := statusRead_can hcan hr
      rw [List.filterMap_cons_some hr, List.filterMap_nil]
      refine ⟨List.pairwise_append.mpr ⟨hfinal, List.pairwise_singleton _ _, ?_⟩, ?_⟩
      · rintro earlier hearlier later hlater hon
        obtain rfl := List.mem_singleton.mp hlater
        obtain ⟨s, rfl, hs⟩ := (Option.any_eq_true _ _).mp hon
        obtain ⟨g, hg, rfl⟩ := hstored s hearlier hs
        rw [← hfound, hg]
        rfl
      · rintro s hs hon
        rcases List.mem_append.mp hs with hs | hs
        · exact hstored' s hs hon
        · rw [← List.mem_singleton.mp hs] at hfound
          obtain ⟨g, hg, rfl⟩ := Option.map_eq_some_iff.mp hfound
          exact ⟨g, hkept g hg hon, rfl⟩
  simpa using hI.1

/-- Interleaved calls of a wallet whose writes are up to date. -/
abbrev upToDateCalls (w : Wallet) (spent : TxHandle → Bool) :
    System ports World WalletCall WalletResult :=
  w.client.system fun p _ e => upToDate spent p.world e

/-- **Settled is final in the store**: whatever calls are interleaved, once a read of a handle
returns a status settled by the chain, every later read returns that status. -/
theorem settled_is_final (w : Wallet) {p : WalletPool}
    (h : (upToDateCalls w TxHandle.failedAttempt).Reaches Client.start p) (id : HandleId) :
    SettledIsFinal (statusReads id p.world.log) :=
  (w.client.system_runs _).reads_final Client.fresh_start (fun _ _ _ ha => ha.2) h id

end Settled

section SettledRuns

attribute [local instance] Toy.alloy

instance (reads : List (Option TxStatus)) : Decidable (SettledIsFinal reads) :=
  inferInstanceAs (Decidable (reads.Pairwise _))

/-- A send, a tick that confirms it, and two reads. -/
def confirmedThenRead : WalletPool :=
  System.played (S := upToDateCalls Toy.wallet TxHandle.failedAttempt) Client.start
    [.spawn (.send Toy.intent), .moves 0 40 () (World.serve Toy.calm),
      .spawn .tick, .moves 1 40 () (World.serve (Toy.chain 20 5 (some Toy.receipt))),
      .spawn (.handle Toy.sentId), .moves 2 40 () (World.serve Toy.calm),
      .spawn (.status Toy.sentId), .moves 3 40 () (World.serve Toy.calm)]

theorem settled_is_final_confirmed :
    statusReads Toy.sentId confirmedThenRead.world.log =
      [some .sent, some .sent, some (.confirmed 10), some (.confirmed 10)] ∧
    SettledIsFinal (statusReads Toy.sentId confirmedThenRead.world.log) := by
  have hreach : (upToDateCalls Toy.wallet TxHandle.failedAttempt).Reaches Client.start
      confirmedThenRead := System.reaches_played _ _
  exact ⟨by decide +kernel, settled_is_final Toy.wallet hreach _⟩

/-- A cancel has read its target when a tick confirms it and a caller reads that; then the
cancel marks what it had read, and a second read finds the handle sent again. -/
def unsettledByCancel : WalletPool :=
  System.played (S := Toy.wallet.calls) Client.start
    [.spawn (.send Toy.intent), .moves 0 40 () (World.serve Toy.calm),
      .spawn (.cancel Toy.sentId), .moves 1 2 () (World.serve Toy.calm),
      .spawn .tick, .moves 2 40 () (World.serve (Toy.chain 20 5 (some Toy.receipt))),
      .spawn (.handle Toy.sentId), .moves 3 40 () (World.serve Toy.calm),
      .moves 1 1 () (World.serve Toy.calm),
      .spawn (.handle Toy.sentId), .moves 4 40 () (World.serve Toy.calm)]

theorem stale_cancel_unsettles : ∃ p id, Toy.wallet.calls.Reaches Client.start p ∧
    ¬SettledIsFinal (statusReads id p.world.log) := by
  have hreach : Toy.wallet.calls.Reaches Client.start unsettledByCancel :=
    System.reaches_played _ _
  exact ⟨unsettledByCancel, Toy.sentId, hreach, by decide +kernel⟩

end SettledRuns

section Refills

/-- A tick stores a handle as replaced. -/
def settlesReplaced (id : HandleId) : PortEvent → Bool
  | ⟨.putHandle d (.advance _), r⟩ =>
    d.id = id && d.status = .replaced && (r : Except StateStoreError Unit).isOk
  | _ => false

/-- A refill of this handle logs its write-ahead record, or broadcasts. -/
def refillLogged (id : HandleId) : PortEvent → Bool
  | ⟨.putHandle _ (.wal (.refill d)), _⟩ => d.id = id
  | _ => false

def refillSubmitted (id : HandleId) : PortEvent → Bool
  | ⟨.submit _ _ (.send (.refill d) _), _⟩ => d.id = id
  | _ => false

theorem settlesReplaced_iff {id : HandleId} {e : PortEvent} : settlesReplaced id e ↔
    ∃ d g, e = ev (.putHandle d (.advance g)) (.ok ()) ∧ d.id = id ∧ d.status = .replaced := by
  constructor
  · intro h
    obtain ⟨o, r⟩ := e
    cases o with
    | putHandle d site =>
      cases site with
      | advance g =>
        match r, h with
        | .ok (), h =>
          simp only [settlesReplaced, Bool.and_eq_true, decide_eq_true_eq] at h
          exact ⟨d, g, rfl, h.1⟩
        | .error _, h => simp [settlesReplaced, Except.isOk, Except.toBool] at h
      | _ => cases h
    | _ => cases h
  · rintro ⟨d, g, rfl, hid, hs⟩
    simp [settlesReplaced, ev, hid, hs, Except.isOk, Except.toBool]

theorem refillLogged_iff {id : HandleId} {e : PortEvent} : refillLogged id e ↔
    ∃ wal d, e.op = .putHandle wal (.wal (.refill d)) ∧ d.id = id := by
  constructor
  · intro h
    unfold refillLogged at h
    split at h
    · exact ⟨_, _, rfl, of_decide_eq_true h⟩
    · cases h
  · rintro ⟨wal, d, he, rfl⟩
    obtain ⟨o, r⟩ := e
    obtain rfl : o = .putHandle wal (.wal (.refill d)) := he
    exact decide_eq_true rfl

theorem refillSubmitted_iff {id : HandleId} {e : PortEvent} : refillSubmitted id e ↔
    ∃ rlp opts wal d, e.op = .submit rlp opts (.send (.refill d) wal) ∧ d.id = id := by
  constructor
  · intro h
    unfold refillSubmitted at h
    split at h
    · exact ⟨_, _, _, _, rfl, of_decide_eq_true h⟩
    · cases h
  · rintro ⟨rlp, opts, wal, d, he, rfl⟩
    obtain ⟨o, r⟩ := e
    obtain rfl : o = .submit rlp opts (.send (.refill d) wal) := he
    exact decide_eq_true rfl

variable [Alloy] {W C α : Type} {cl : Client C α} {S : System ports W C α} {view : W → World}
  {p₀ p : Pool ports W C α}

/-- Each of its calls re-sends a handle at most once for each time it stores it as replaced. -/
theorem Client.Runs.refillLogged_le (hS : cl.Runs S view) {errand : C → Errand}
    (hset : cl.Settles errand) (h₀ : Backed.Fresh view p₀) (h : S.Reaches p₀ p) (id : HandleId)
    {th : Thread ports C α} (hth : th ∈ p.threads) :
    th.past.countP (refillLogged id) ≤ th.past.countP (settlesReplaced id) := by
  refine System.countP_le_of_enabled
    (fun past => ∃ d, d.id = id ∧ d.status = .replaced ∧ JustReplaced past d) ?_
    (fun before e after hpast hq => ?_) fun before e henabled => ?_
  · rintro ⟨d, -, -, g, before, after, hnil, -⟩
    simp at hnil
  · obtain ⟨wal, d, he, hid⟩ := refillLogged_iff.mp hq
    have howes := hS.settled hset h₀ h hth hpast
    rw [he] at howes
    exact ⟨d, hid, howes.settled, howes.once⟩
  · obtain ⟨d, hid, hs, g, before', after, hpast, hafter⟩ := henabled
    rcases List.eq_nil_or_concat after with rfl | ⟨after, x, rfl⟩
    · obtain ⟨-, he⟩ := List.append_inj' hpast rfl
      cases he
      exact .inl (settlesReplaced_iff.mpr ⟨d, g, rfl, hid, hs⟩)
    · rw [List.concat_eq_append, ← List.cons_append, ← List.append_assoc] at hpast
      obtain ⟨rfl, he⟩ := List.append_inj' hpast rfl
      cases he
      refine .inr ⟨⟨d, hid, hs, g, before', after, rfl, fun y hy => hafter y (by simp [hy])⟩, ?_⟩
      by_contra hq
      obtain ⟨wal, d', he, -⟩ := refillLogged_iff.mp (by simpa using hq)
      exact hafter e (by simp) wal (.refill d') he

/-- A refill broadcasts at most once for each record it has logged. -/
theorem Client.Runs.refillSubmitted_le (hS : cl.Runs S view) (h₀ : Backed.Fresh view p₀)
    (h : S.Reaches p₀ p) (id : HandleId) {th : Thread ports C α} (hth : th ∈ p.threads) :
    th.past.countP (refillSubmitted id) ≤ th.past.countP (refillLogged id) := by
  refine System.countP_le_of_enabled (fun past => ∃ e, past.getLast? = some e ∧ refillLogged id e)
    (by simp) (fun before e after hpast hq => ?_) fun before e henabled => ?_
  · obtain ⟨rlp, opts, wal, d, he, hid⟩ := refillSubmitted_iff.mp hq
    obtain ⟨role, -, howes⟩ := hS.owed h₀ h hth hpast
    rw [he] at howes
    obtain ⟨m, -, -, -, -, hlast⟩ := howes
    exact ⟨_, hlast, refillLogged_iff.mpr ⟨wal, d, rfl, hid⟩⟩
  · obtain ⟨x, hlast, hx⟩ := henabled
    rw [List.getLast?_concat] at hlast
    cases hlast
    exact .inl hx

/-- A handle is stored as replaced at most once: after that nothing replaces it. -/
theorem Client.Runs.settlesReplaced_once (hS : cl.Runs S view) (h₀ : Backed.Fresh view p₀)
    (hwrites : WritesUpToDate S view p₀ TxHandle.failedAttempt)
    (h : S.Reaches p₀ p) (id : HandleId) :
    (view p.world).log.countP (settlesReplaced id) = 0 ∨
      (view p.world).log.countP (settlesReplaced id) = 1 ∧
        ∃ g, (view p.world).store.handle id = some g ∧ g.status = .replaced := by
  rw [hS.replay h₀ h]
  refine World.replay_keeps (l := []) (I := fun v => v.log.countP (settlesReplaced id) = 0 ∨
    v.log.countP (settlesReplaced id) = 1 ∧ ∃ g, v.store.handle id = some g ∧ g.status = .replaced)
    (fun l e l' hlog hl => ?_) rfl (.inl rfl)
  have hput : ∀ h' site, e = ev (.putHandle h' site) (.ok ()) →
      Replaces TxHandle.failedAttempt (.replay l) h' site := fun h' site he =>
    hS.replaces h₀ hwrites h (he ▸ hlog)
  simp only [World.apply_log, World.replay_log, List.countP_append, List.countP_singleton] at hl ⊢
  by_cases hsettles : settlesReplaced id e
  · obtain ⟨d, g, rfl, rfl, hd⟩ := settlesReplaced_iff.mp hsettles
    rw [if_pos hsettles]
    refine .inr ⟨?_, d, Store.handle_putHandle_self _ _, hd⟩
    rcases hl with h0 | ⟨-, g', hg', hs'⟩
    · rw [h0]
    · exact absurd ((hput d (.advance g) rfl).live hg') (by simp [hs', TxStatus.onChain])
  · rw [if_neg hsettles, Nat.add_zero]
    refine hl.imp_right fun ⟨h1, g, hg, hs⟩ => ⟨h1, g, ?_, hs⟩
    exact World.settled_apply hput hg (by simp [hs, TxStatus.onChain])

/-- The refills of a handle are at most as many as the times it was stored as replaced. -/
theorem Client.Runs.refills_le (hS : cl.Runs S view) {errand : C → Errand}
    (hset : cl.Settles errand) (h₀ : Backed.Fresh view p₀) (h : S.Reaches p₀ p) (id : HandleId) :
    (view p.world).log.countP (refillLogged id) ≤ (view p.world).log.countP (settlesReplaced id) ∧
      (view p.world).log.countP (refillSubmitted id) ≤
        (view p.world).log.countP (settlesReplaced id) := by
  have hlogged := hS.countP_log_le h₀ h fun th hth => hS.refillLogged_le hset h₀ h id hth
  have hsubmitted := hS.countP_log_le h₀ h fun th hth => hS.refillSubmitted_le h₀ h id hth
  exact ⟨hlogged, hsubmitted.trans hlogged⟩

/-- **One displacement, one refill**: whatever ticks and other calls are interleaved and
whichever writes fail, a handle is stored as replaced at most once, and at most one refill
of it is logged and broadcast. -/
theorem one_displacement_one_refill (w : Wallet) {p : WalletPool}
    (h : (upToDateCalls w TxHandle.failedAttempt).Reaches Client.start p) (id : HandleId) :
    p.world.log.countP (settlesReplaced id) ≤ 1 ∧ p.world.log.countP (refillLogged id) ≤ 1 ∧
      p.world.log.countP (refillSubmitted id) ≤ 1 := by
  have hruns := w.client.system_runs fun p _ e => upToDate TxHandle.failedAttempt p.world e
  have hsettled : p.world.log.countP (settlesReplaced id) ≤ 1 := by
    rcases hruns.settlesReplaced_once Client.fresh_start (fun _ _ _ ha => ha.2) h id with h0 | h1
    · exact h0.trans_le (Nat.zero_le 1)
    · exact h1.1.le
  obtain ⟨hlogged, hsubmitted⟩ := hruns.refills_le w.client_settles Client.fresh_start h id
  exact ⟨hsettled, hlogged.trans hsettled, hsubmitted.trans hsettled⟩

end Refills

section RefillRuns

attribute [local instance] Toy.alloy

/-- A send whose nonce was consumed by a foreign transaction, one tick ago. -/
def displacedSend {S : System ports World WalletCall WalletResult} (x : S.Choice) :
    List (System.Action S) :=
  [.spawn (.send Toy.intent), .moves 0 40 x (World.serve Toy.calm),
    .spawn .tick, .moves 1 40 x (World.serve (Toy.chain 10 5 none))]

/-- Two ticks after each other. -/
def refilledOnce : WalletPool :=
  System.played (S := upToDateCalls Toy.wallet TxHandle.failedAttempt) Client.start
    (displacedSend () ++ [.spawn .tick, .moves 2 60 () (World.serve (Toy.chain 20 5 none)),
      .spawn .tick, .moves 3 60 () (World.serve (Toy.chain 21 5 none))])

theorem one_displacement_one_refill_ticks :
    refilledOnce.world.log.countP (refillSubmitted Toy.sentId) = 1 ∧
    refilledOnce.world.log.countP (settlesReplaced Toy.sentId) ≤ 1 ∧
    refilledOnce.world.log.countP (refillLogged Toy.sentId) ≤ 1 ∧
    refilledOnce.world.log.countP (refillSubmitted Toy.sentId) ≤ 1 := by
  have hreach : (upToDateCalls Toy.wallet TxHandle.failedAttempt).Reaches Client.start
      refilledOnce := System.reaches_played _ _
  exact ⟨by decide +kernel, one_displacement_one_refill Toy.wallet hreach _⟩

/-- Nothing is put before the handles of the cycle were read. -/
def untilAdvance (others : (o : Op) → Option o.Reply) (w : World) : (o : Op) → Option o.Reply
  | .putHandle _ (.advance _) => none
  | o => World.serve others w o

/-- Two ticks that read the handle as displaced before either of them settles it. -/
def refilledTwice : WalletPool :=
  System.played (S := Toy.wallet.calls) Client.start
    (displacedSend () ++ [.spawn .tick, .moves 2 60 () (untilAdvance (Toy.chain 20 5 none)),
      .spawn .tick, .moves 3 60 () (World.serve (Toy.chain 20 5 none)),
      .moves 2 60 () (World.serve (Toy.chain 20 5 none))])

theorem concurrent_ticks_refill_twice : ∃ p id, Toy.wallet.calls.Reaches Client.start p ∧
    1 < p.world.log.countP (refillSubmitted id) := by
  have hreach : Toy.wallet.calls.Reaches Client.start refilledTwice := System.reaches_played _ _
  exact ⟨refilledTwice, Toy.sentId, hreach, by decide +kernel⟩

end RefillRuns

section CancelAndTick

/-- A new record replaces nothing at all. -/
def nothingSpent : TxHandle → Bool := fun _ => false

variable [Alloy] {W C α : Type} {cl : Client C α} {S : System ports W C α} {view : W → World}
  {p₀ p : Pool ports W C α}

/-- A record stays under its id, as a later version of itself. -/
theorem World.version_apply {w : World} {e : PortEvent} {id : HandleId} {g : TxHandle}
    (hput : ∀ h' site, e = ev (.putHandle h' site) (.ok ()) → Replaces nothingSpent w h' site)
    (hg : w.store.handle id = some g) :
    (w.apply e).store.handle id = some g ∨ ∃ h' site, e = ev (.putHandle h' site) (.ok ()) ∧
      h'.id = id ∧ (w.apply e).store.handle id = some h' ∧ site.basis = some g ∧
      ∃ role past, PutOwes role past h' site := by
  rw [World.handle_apply]
  cases hw : wrote e with
  | none => exact .inl hg
  | some h' =>
    obtain ⟨site, rfl⟩ := wrote_eq_some hw
    have hr := hput h' site rfl
    by_cases hid : id = h'.id
    · subst hid
      refine .inr ⟨h', site, rfl, rfl, if_pos rfl, ?_, hr.owes⟩
      cases hb : site.basis with
      | none => exact absurd (hr.fresh hb g hg) (by simp [nothingSpent])
      | some g' => rw [← hg, (hr.basis g' hb).1]
    · exact .inl (by simpa only [if_neg hid] using hg)

/-- A hash that was stored for a handle is still stored for it. -/
theorem Client.Runs.broadcasts_kept (hS : cl.Runs S view) (h₀ : Backed.Fresh view p₀)
    (hwrites : WritesUpToDate S view p₀ nothingSpent)
    (h : S.Reaches p₀ p) {q : Pool ports W C α} (hq : S.Reaches p q) {id : HandleId}
    {g : TxHandle} (hg : (view p.world).store.handle id = some g) {x : TxHash}
    (hx : x ∈ g.broadcasts) :
    ∃ g', (view q.world).store.handle id = some g' ∧ x ∈ g'.broadcasts := by
  obtain ⟨l, hlog⟩ := hS.log_prefix hq
  have hreach : S.Reaches p₀ q := h.trans hq
  rw [hS.replay h₀ h] at hg
  rw [hS.replay h₀ hreach]
  refine World.replay_keeps
    (I := fun v => ∃ g', v.store.handle id = some g' ∧ x ∈ g'.broadcasts)
    (fun l e l' hlog ⟨g, hg, hx⟩ => ?_) hlog.symm ⟨g, hg, hx⟩
  rcases World.version_apply (e := e)
    (fun h' site he => hS.replaces h₀ hwrites hreach (he ▸ hlog)) hg with
      hg' | ⟨h', site, -, -, hg', hb, role, past, howes⟩
  · exact ⟨g, hg', hx⟩
  · exact ⟨h', hg', howes.broadcasts hb x hx⟩

/-- A cancel unmarks only the handle it was called for. -/
theorem Client.Runs.undo_by_cancel (hS : cl.Runs S view) {errand : C → Errand}
    (hset : cl.Settles errand) (h₀ : Backed.Fresh view p₀) (h : S.Reaches p₀ p)
    {h' marked : TxHandle} {r : Except StateStoreError Unit}
    (he : ev (.putHandle h' (.cancelUndo marked)) r ∈ (view p.world).log) :
    ∃ th ∈ p.threads, ev (.putHandle h' (.cancelUndo marked)) r ∈ th.past ∧
      (errand th.call).cancels = some h'.id := by
  obtain ⟨th, hth, hmem⟩ := hS.exists_thread_of_mem_log h₀ h he
  refine ⟨th, hth, hmem, ?_⟩
  obtain ⟨before, after, hpast⟩ := List.append_of_mem hmem
  obtain ⟨role, -, howes⟩ := hS.owed h₀ h hth hpast
  obtain ⟨target, rfl, id, hid, hread⟩ := hS.settled hset h₀ h hth hpast
  obtain ⟨m, approval, -, rfl, -⟩ := howes
  have hkey : target.id = id := hS.read_id h₀ h hth (by
    rw [hpast]
    exact List.mem_append_left _ hread)
  rw [hid, ← hkey]

/-- The mark of a cancel that returned stays, unless another cancel of that handle is made. -/
theorem Client.Runs.mark_kept (hS : cl.Runs S view) {errand : C → Errand}
    (hset : cl.Settles errand) (h₀ : Backed.Fresh view p₀)
    (hwrites : WritesUpToDate S view p₀ nothingSpent)
    (h : S.Reaches p₀ p) {th : Thread ports C α} (hth : th ∈ p.threads) {id : HandleId}
    {c : TxHandle} (hends : TransactionManager.CancelEnds id (.ok c) th.past)
    (honly : ∀ th' ∈ p.threads, (errand th'.call).cancels = some id → th' = th) :
    ∃ g, (view p.world).store.handle id = some g ∧ g.cancelled := by
  obtain ⟨hundo, target, hread, hmark⟩ := hends.2 c rfl
  have hid : target.id = id := hS.read_id h₀ h hth hread
  obtain ⟨l, l', hlog⟩ := List.append_of_mem (hS.mem_log h₀ h hth hmark)
  have hsplit : (view p.world).log = l ++ [ev (.putHandle { target with cancelled := true }
      (.cancelMark target)) (.ok ())] ++ l' := by rw [hlog]; simp
  rw [hS.replay h₀ h]
  refine World.replay_keeps (I := fun v => ∃ g, v.store.handle id = some g ∧ g.cancelled)
    (fun l e l' hlog ⟨g, hg, hc⟩ => ?_) hsplit ?_
  · rcases World.version_apply (e := e) (fun h' site he => hS.replaces h₀ hwrites h (he ▸ hlog)) hg
      with hg' | ⟨h', site, he, hid', hg', hb, role, past, howes⟩
    · exact ⟨g, hg', hc⟩
    · refine ⟨h', hg', howes.cancelled hb ?_ hc⟩
      rintro rfl
      -- an unmarking would be one of this cancel's own, and it has made none
      have hput : ev (.putHandle h' (.cancelUndo g)) (.ok ()) ∈ (view p.world).log := by
        rw [hlog, he]; simp
      obtain ⟨th', hth', hmem, hcancels⟩ := hS.undo_by_cancel hset h₀ h hput
      rw [hid'] at hcancels
      rw [honly th' hth' hcancels] at hmem
      exact hundo _ hmem h' g rfl
  · rw [World.replay_snoc, ← hid]
    exact ⟨_, Store.handle_putHandle_self _ _, rfl⟩

/-- A hash stored for a handle in the first store is gone from it in the second. -/
def hashLost (s s' : Store) (id : HandleId) : Bool :=
  (s.handle id).any fun g => g.broadcasts.any fun x =>
    (s'.handle id).all fun g' => !g'.broadcasts.contains x

/-- The only cancel of this handle, and it has returned. -/
structure OnlyCancel (p : WalletPool) (id : HandleId) (th : WalletThread) : Prop where
  mem : th ∈ p.threads
  call : th.call = .cancel id
  returned : ∃ c, th.prog = .ret (.sent (.ok c))
  only : ∀ th' ∈ p.threads, th'.call = .cancel id → th' = th

/-- **No lost update between cancel and the executor**: however the calls of a wallet are
interleaved, a hash stored for a handle in one state is stored for it in every later state;
and when the only cancel of a handle has returned, the handle is marked. -/
theorem no_lost_update (w : Wallet) {p q : WalletPool}
    (h : (upToDateCalls w nothingSpent).Reaches Client.start p)
    (hq : (upToDateCalls w nothingSpent).Reaches p q) (id : HandleId) :
    ¬hashLost p.world.store q.world.store id ∧
    ∀ th, OnlyCancel q id th → ∃ g, q.world.store.handle id = some g ∧ g.cancelled := by
  have hruns := w.client.system_runs fun p _ e => upToDate nothingSpent p.world e
  constructor
  · intro hlost
    obtain ⟨g, hg, hg'⟩ := (Option.any_eq_true _ _).mp hlost
    obtain ⟨x, hx, hgone⟩ := List.any_eq_true.mp hg'
    obtain ⟨g', hg', hx'⟩ :=
      hruns.broadcasts_kept Client.fresh_start (fun _ _ _ ha => ha.2) h hq hg hx
    have hstored : q.world.store.handle id = some g' := hg'
    simp [hstored, hx'] at hgone
  · rintro th ⟨hth, hcall, ⟨c, hprog⟩, honly⟩
    refine hruns.mark_kept w.client_settles Client.fresh_start (fun _ _ _ ha => ha.2)
      (h.trans hq) hth
      ((hruns.ended Client.fresh_start (h.trans hq) hth hprog).2 id c hcall rfl)
      fun th' hth' hcancels => ?_
    cases hc : th'.call with
    | cancel id' =>
      rw [hc] at hcancels
      exact honly th' hth' (by rw [hc, Option.some.inj hcancels])
    | _ => rw [hc] at hcancels; cases hcancels

end CancelAndTick

section CancelRuns

attribute [local instance] Toy.alloy

def WalletCall.isCancelOf (id : HandleId) : WalletCall → Bool
  | .cancel i => i = id
  | _ => false

/-- The newest call is the only cancel of this handle, and it has returned. -/
def cancelledLast (p : WalletPool) (id : HandleId) : Bool :=
  (p.threads.dropLast.all fun th => !th.call.isCancelOf id) &&
    p.threads.getLast?.any fun th =>
      match th.call, th.prog with
      | .cancel i, .ret (.sent (.ok _)) => i = id
      | _, _ => false

theorem exists_onlyCancel {p : WalletPool} {id : HandleId} (h : cancelledLast p id) :
    ∃ th, OnlyCancel p id th := by
  obtain ⟨hrest, hlast⟩ := Bool.and_eq_true_iff.mp h
  obtain ⟨th, hth, hret⟩ := (Option.any_eq_true _ _).mp hlast
  have hret' : th.call = .cancel id ∧ ∃ c, th.prog = .ret (.sent (.ok c)) := by
    split at hret
    · rename_i hcall hprog
      obtain rfl := of_decide_eq_true hret
      exact ⟨hcall, _, hprog⟩
    · cases hret
  refine ⟨th, List.mem_of_getLast? hth, hret'.1, hret'.2, fun th' hth' hcall => ?_⟩
  obtain ⟨before, hbefore⟩ := List.getLast?_eq_some_iff.mp hth
  rw [hbefore, List.dropLast_concat, List.all_eq_true] at hrest
  rw [hbefore] at hth'
  rcases List.mem_append.mp hth' with hmem | hmem
  · have := hrest th' hmem
    simp [hcall, WalletCall.isCancelOf] at this
  · exact List.mem_singleton.mp hmem

/-- A second send of the account. -/
def nextIntent : TxIntent := { Toy.intent with value := 2 }

def nextId : HandleId := .new nextIntent.hash 5

/-- Two sends, and a tick that has bumped the second and is about to bump the first. -/
def bumpedNext : WalletPool :=
  System.played (S := upToDateCalls Toy.wallet nothingSpent) Client.start
    [.spawn (.send Toy.intent), .moves 0 40 () (World.serve Toy.calm),
      .spawn (.send nextIntent), .moves 1 40 () (World.serve Toy.calm),
      .spawn .tick,
      .moves 2 60 () (Toy.heldAt fun site => isBumpSite site && site.handle.nonce = 4)]

/-- A cancel of the second send in the midst of that tick, which then goes on. -/
def cancelledNext : WalletPool :=
  System.played (S := upToDateCalls Toy.wallet nothingSpent) bumpedNext
    [.spawn (.cancel nextId), .moves 3 40 () (World.serve Toy.calm),
      .moves 2 40 () (World.serve Toy.calm)]

theorem no_lost_update_cancelled :
    (bumpedNext.world.store.handle nextId).any (·.broadcasts.length = 2) ∧
    ¬hashLost bumpedNext.world.store cancelledNext.world.store nextId ∧
    (∃ th, OnlyCancel cancelledNext nextId th) ∧
    ∃ g, cancelledNext.world.store.handle nextId = some g ∧ g.cancelled := by
  have hreach : (upToDateCalls Toy.wallet nothingSpent).Reaches Client.start bumpedNext :=
    System.reaches_played _ _
  have hcancel : (upToDateCalls Toy.wallet nothingSpent).Reaches bumpedNext cancelledNext :=
    System.reaches_played _ _
  obtain ⟨th, hth⟩ : ∃ th, OnlyCancel cancelledNext nextId th :=
    exists_onlyCancel (by decide +kernel)
  obtain ⟨hkept, hmarked⟩ := no_lost_update Toy.wallet hreach hcancel nextId
  exact ⟨by decide +kernel, hkept, ⟨th, hth⟩, hmarked th hth⟩

/-- A cancel has read its target when a tick bumps it. -/
def bumpedMeanwhile : WalletPool :=
  System.played (S := Toy.wallet.calls) Client.start
    [.spawn (.send Toy.intent), .moves 0 40 () (World.serve Toy.calm),
      .spawn (.cancel Toy.sentId), .moves 1 2 () (World.serve Toy.calm),
      .spawn .tick, .moves 2 40 () (World.serve Toy.calm)]

/-- The cancel marks what it had read, which does not have the new hash. -/
def bumpLost : WalletPool :=
  System.played (S := Toy.wallet.calls) bumpedMeanwhile [.moves 1 1 () (World.serve Toy.calm)]

/-- A tick has read the handle when a cancel of it runs; the tick's write drops the mark. -/
def markLost : WalletPool :=
  System.played (S := Toy.wallet.calls) Client.start
    [.spawn (.send Toy.intent), .moves 0 40 () (World.serve Toy.calm),
      .spawn .tick, .moves 1 40 () (untilAdvance (Toy.chain 10 5 (some Toy.receipt))),
      .spawn (.cancel Toy.sentId), .moves 2 40 () (World.serve Toy.calm),
      .moves 1 1 () (World.serve (Toy.chain 10 5 (some Toy.receipt)))]

theorem concurrent_cancel_loses_updates :
    (∃ p q id, Toy.wallet.calls.Reaches Client.start p ∧ Toy.wallet.calls.Reaches p q ∧
      hashLost p.world.store q.world.store id) ∧
    ∃ p id th g, Toy.wallet.calls.Reaches Client.start p ∧ OnlyCancel p id th ∧
      p.world.store.handle id = some g ∧ g.status.isTerminal = false ∧ g.cancelled = false := by
  constructor
  · have hreach : Toy.wallet.calls.Reaches Client.start bumpedMeanwhile :=
      System.reaches_played _ _
    have hlost : Toy.wallet.calls.Reaches bumpedMeanwhile bumpLost := System.reaches_played _ _
    exact ⟨bumpedMeanwhile, bumpLost, Toy.sentId, hreach, hlost, by decide +kernel⟩
  · have hreach : Toy.wallet.calls.Reaches Client.start markLost := System.reaches_played _ _
    have hrun : cancelledLast markLost Toy.sentId ∧
        (markLost.world.store.handle Toy.sentId).any fun g =>
          !g.status.isTerminal && !g.cancelled := by decide +kernel
    obtain ⟨hlast, hg⟩ := hrun
    obtain ⟨th, hth⟩ := exists_onlyCancel hlast
    obtain ⟨g, hstored, hflags⟩ := (Option.any_eq_true _ _).mp hg
    simp only [Bool.and_eq_true, Bool.not_eq_true'] at hflags
    exact ⟨markLost, Toy.sentId, th, g, hreach, hth, hstored, hflags⟩

end CancelRuns

end WalletKit
