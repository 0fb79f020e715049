import WalletKit.Runtime.Cancels
import WalletKit.Safety.Tasks

/-!
# New records and live ones

A handle's id is the hash of its intent and its nonce, but nonces come from three places: the
account's allocator, the target of a cancel, and the relay's forwarder. A new record then can
have the id of a live one: a second cancel at a nonce, a cancel of a cancel, a second relayed
send of an intent. Apart from these, and with calls made one at a time, it never does.
-/
namespace WalletKit

open Machine Signing

section Conditions

/-- A new record takes the place of a live one with other bytes or of another task. -/
def overwritesLive (w : World) : PortEvent → Bool
  | ⟨.putHandle h site, r⟩ =>
    site.basis.isNone && (r : Except StateStoreError Unit).isOk &&
      (w.store.handle h.id).any fun g =>
        !g.status.isTerminal && (g.signed ≠ h.signed || g.task? ≠ h.task?)
  | _ => false

theorem exists_of_overwritesLive {w : World} {e : PortEvent} (h : overwritesLive w e) :
    ∃ h' site g, e = ev (.putHandle h' site) (.ok ()) ∧ site.basis = none ∧
      w.store.handle h'.id = some g ∧ g.status.isTerminal = false := by
  unfold overwritesLive at h
  split at h
  · rename_i h' site r
    simp only [Bool.and_eq_true, Option.any_eq_true, Bool.not_eq_true',
      Option.isNone_iff_eq_none] at h
    obtain ⟨⟨hb, hr⟩, g, hg, hlive, -⟩ := h
    match r, hr with
    | .ok (), _ => exact ⟨h', site, g, rfl, hb, hg, hlive⟩
  · cases h

/-- Nothing live has the intent of a relayed send, and no live task that of another one. -/
def oneIntent (w : World) : PortEvent → Bool
  | ⟨.putHandle h .task, _⟩ => !w.store.has fun g => !g.status.isTerminal && g.intent = h.intent
  | ⟨.putHandle h (.wal _), _⟩ | ⟨.putHandle h (.cancelNew _), _⟩ =>
    !w.store.has fun g => !g.status.isTerminal && g.intent = h.intent && g.task?.isSome
  | _ => true

theorem oneIntent_live {w : World} {h' g : TxHandle} {site : PutSite}
    {r : Except StateStoreError Unit} (h : oneIntent w (ev (.putHandle h' site) r))
    (hb : site.basis = none) (hg : w.store.handle g.id = some g) (hi : g.intent = h'.intent)
    (hlive : g.status.isTerminal = false) : site ≠ .task ∧ g.task? = none := by
  cases site with
  | task =>
    have hhas : w.store.has fun g => !g.status.isTerminal && g.intent = h'.intent :=
      Store.has_of_stored hg (by simp [hlive, hi])
    simp [ev, oneIntent, hhas] at h
  | wal | cancelNew =>
    refine ⟨by simp, ?_⟩
    by_contra htask
    have hhas : w.store.has fun g =>
        !g.status.isTerminal && g.intent = h'.intent && g.task?.isSome :=
      Store.has_of_stored hg (by simp [hlive, hi, Option.isSome_iff_ne_none.mpr htask])
    simp [ev, oneIntent, hhas] at h
  | _ => cases hb

end Conditions

section Law

/-- The live records with transactions of the wallet's own. -/
def Kind.own : Kind where
  of s t := s.isTerminal = false ∧ t = none
  live hs h := ⟨hs, h.2⟩
  rejected _ _ := by simp [TxStatus.isTerminal]

variable [Alloy]

/-- Calls of a wallet one at a time, in which the records of rejections are written, ids do not
collide, cancels find a target that no cancel has dealt with, and an intent is not relayed while
it is live. -/
abbrev distinctCalls (w : Wallet) : System ports World WalletCall WalletResult :=
  w.client.system fun p i e => i + 1 = p.threads.length ∧ rejectWritten e ∧
    distinctIds p.world e ∧ freshCancel e ∧ oneIntent p.world e

variable {w : Wallet} {p : WalletPool} {th : WalletThread}

theorem distinctCalls_runs (w : Wallet) : w.client.Runs (distinctCalls w) id :=
  w.client.system_runs _

/-- A target that is being cancelled has no task: it has transaction bytes. -/
theorem marked_own (hempty : decode2718 [] = none)
    (h : (distinctCalls w).Reaches Client.start p) (hth : th ∈ p.threads) {h' marked : TxHandle}
    {k : Except StateStoreError Unit → Io WalletResult}
    (hprog : th.prog = .call (.putHandle h' (.cancelNew marked)) k) : marked.Is .own := by
  have hruns := distinctCalls_runs w
  obtain ⟨-, hfees⟩ : SoleOwes th.past (.putHandle h' (.cancelNew marked)) :=
    hruns.sole_owes w.client_settles w.client_sole Client.fresh_start h hth hprog
  obtain ⟨role, -, m, approval, now, signed, -, -, -, ⟨target, rfl, hlive, -, -, hstored⟩, -⟩ :=
    hruns.owes Client.fresh_start h hth hprog
  refine ⟨hlive, ?_⟩
  by_contra htask
  obtain ⟨t, ht⟩ := Option.ne_none_iff_exists'.mp htask
  have hunsigned := (hruns.relayed w.client_settles WalletCall.taskless hempty Client.fresh_start h
    hth hstored.known ht).unsigned
  rw [hunsigned] at hfees
  simp [decodeFees, hempty] at hfees

theorem distinctCalls_orderly (w : Wallet) (hempty : decode2718 [] = none) :
    w.client.Orderly (distinctCalls w) id Client.start WalletCall.errand .own where
  runs := distinctCalls_runs w
  sequential := fun _ _ _ _ _ ha => ha.2.1
  fresh := Client.fresh_start
  settles := w.client_settles
  sole := w.client_sole
  written ha := ha.2.2.1
  distinct ha := ha.2.2.2.1
  relayed _ _ _ _ ht := by cases ht.2
  cancels hreach hth hprog := marked_own hempty hreach hth hprog
  others {p i x h' origin} ha g hg hother := by
    -- what is live here and not of the wallet's own would be a task with this intent
    obtain ⟨-, -, -, hdistinct, -, hone⟩ := ha
    by_contra hlive
    rw [Bool.not_eq_true] at hlive
    have hintent := (same_of_distinctIds hdistinct rfl hg).1
    have hid : g.id = h'.id := Table.key_of_get hg
    exact hother ⟨hlive, (oneIntent_live hone rfl (hid ▸ hg) hintent hlive).2⟩

/-- **A fresh handle never overwrites a live one**, as long as calls are made one at a time,
rejections are recorded, a cancel finds a target that no cancel has dealt with, and an intent is
not relayed while it is live: no new record of the run took the place of a live one with other
bytes or of another task. -/
theorem fresh_handle_overwrites_no_live (w : Wallet) (hempty : decode2718 [] = none)
    {p : WalletPool} (h : (distinctCalls w).Reaches Client.start p) :
    ∀ l e l', p.world.log = l ++ e :: l' → overwritesLive (.replay l) e = false := by
  have hS := distinctCalls_orderly w hempty
  refine hS.runs.log_moved (K := fun w e => overwritesLive w e = false) hS.fresh
    (fun {p i th x o k r} hreach hi hprog ha => ?_) h
  by_contra hover
  rw [Bool.not_eq_false] at hover
  obtain ⟨h', site, g, he, hb, hg, hlive⟩ := exists_of_overwritesLive hover
  cases he
  have hlast : p.threads.getLast? = some th := hS.sequential.last hi ha
  have hid : g.id = h'.id := Table.key_of_get hg
  obtain ⟨hintent, -⟩ := same_of_distinctIds (hS.distinct ha) hb hg
  obtain ⟨hsite, htask⟩ := oneIntent_live ha.2.2.2.2.2 hb (hid ▸ hg) hintent hlive
  exact hS.put_new (fun ha => ha.2.2.2.2.1) hreach hlast hprog ha hb hsite hg ⟨hlive, htask⟩

end Law

section CollisionRuns

attribute [local instance] Toy.strictAlloy

/-- A send, its cancel, and a relayed send of another intent. -/
def freshRun : WalletPool :=
  System.played (S := distinctCalls Toy.relayWallet) Client.start
    [.spawn (.send Toy.intent), .moves 0 40 () (World.serve Toy.calm),
      .spawn (.cancel (.new Toy.intent.hash 4)), .moves 1 40 () (World.serve Toy.calm),
      .spawn Toy.relaySend, .moves 2 40 () (World.serve (Toy.relaying .pending Toy.calm))]

theorem fresh_handle_overwrites_no_live_run :
    freshRun.world.store.handles.rows.length = 3 ∧
    ∀ l e l', freshRun.world.log = l ++ e :: l' → overwritesLive (.replay l) e = false := by
  have hreach : (distinctCalls Toy.relayWallet).Reaches Client.start freshRun :=
    System.reaches_played _ _
  exact ⟨by decide +kernel, fresh_handle_overwrites_no_live Toy.relayWallet rfl hreach⟩

/-- Calls one at a time over a store that writes the records of rejections, with ids that do
not collide. -/
abbrev soundCalls (w : Wallet) : System ports World WalletCall WalletResult :=
  w.client.system fun p i e => i + 1 = p.threads.length ∧ rejectWritten e ∧ distinctIds p.world e

/-- Everything is answered but the write of a new record over a live one. -/
def untilOverwrite (others : (o : Op) → Option o.Reply) (w : World) : (o : Op) → Option o.Reply
  | .putHandle h site =>
    if overwritesLive w (ev (.putHandle h site) (.ok ())) then none else some (.ok ())
  | o => World.serve others w o

/-- What call `i` is about to write, if it is a new record over a live one. -/
def overwrite? (p : WalletPool) (i : Nat) : Option (TxHandle × PutSite) :=
  match p.next? i with
  | some (.putHandle h site) =>
    let e := ev (.putHandle h site) (.ok ())
    if overwritesLive p.world e ∧ i + 1 = p.threads.length ∧ rejectWritten e ∧
      distinctIds p.world e then some (h, site) else none
  | _ => none

theorem overwrites_of_overwrite? {p : WalletPool} {i : Nat}
    (hreach : (soundCalls Toy.relayWallet).Reaches Client.start p) {h : TxHandle} {site : PutSite}
    (ho : overwrite? p i = some (h, site)) : ∃ p' l e,
      (soundCalls Toy.relayWallet).Reaches Client.start p' ∧ p'.world.log = l ++ [e] ∧
      overwritesLive (.replay l) e ∧ e.op = .putHandle h site := by
  have hruns := Toy.relayWallet.client.system_runs fun p i e =>
    i + 1 = p.threads.length ∧ rejectWritten e ∧ distinctIds p.world e
  unfold overwrite? at ho
  split at ho
  · rename_i h' site' hnext
    dsimp only at ho
    split at ho
    · rename_i hover
      cases ho
      obtain ⟨th, hi, hprog⟩ := Option.bind_eq_some_iff.mp hnext
      obtain ⟨k, hprog⟩ := Prog.exists_call_of_next? hprog
      have hallow : (soundCalls Toy.relayWallet).allow p i () (.putHandle h site) (.ok ()) :=
        ⟨rfl, hover.2⟩
      have hstep := System.Step.move (S := soundCalls Toy.relayWallet) () _ hi hprog hallow
      refine ⟨_, p.world.log, ev (.putHandle h site) (.ok ()), hreach.tail hstep, rfl, ?_, rfl⟩
      exact hruns.replay Client.fresh_start hreach ▸ hover.1
    · cases ho
  · cases ho

/-- A second cancel of a send, at a higher bid, about to be recorded. -/
def secondCancel : WalletPool :=
  System.played (S := soundCalls Toy.relayWallet) Client.start
    [.spawn (.send Toy.intent), .moves 0 40 () (World.serve Toy.calm),
      .spawn (.cancel (.new Toy.intent.hash 4)), .moves 1 40 () (World.serve Toy.calm),
      .spawn (.cancel (.new Toy.intent.hash 4)), .moves 2 40 () (untilOverwrite fun
        | .gasBump _ => some (.ok ⟨30, 3⟩)
        | o => Toy.calm o)]

/-- A second relayed send of an intent, taken by the relay as another task. -/
def secondTask : WalletPool :=
  System.played (S := soundCalls Toy.relayWallet) Client.start
    [.spawn Toy.relaySend, .moves 0 40 () (World.serve (Toy.relaying .pending Toy.calm)),
      .spawn Toy.relaySend, .moves 1 40 () (untilOverwrite fun
        | .gelatoSubmit _ _ => some (.ok "other task")
        | o => Toy.relaying .pending Toy.calm o)]

/-- The record of a cancel that is a transaction of its own. -/
def PutSite.isCancelNew : PutSite → Bool
  | .cancelNew _ => true
  | _ => false

theorem second_cancel_overwrites_live_cancel : decode2718 [] = none ∧
    (∃ p l e, (soundCalls Toy.relayWallet).Reaches Client.start p ∧ p.world.log = l ++ [e] ∧
      overwritesLive (.replay l) e ∧ ∃ h marked, e.op = .putHandle h (.cancelNew marked)) ∧
    ∃ p l e, (soundCalls Toy.relayWallet).Reaches Client.start p ∧ p.world.log = l ++ [e] ∧
      overwritesLive (.replay l) e ∧ ∃ h, e.op = .putHandle h .task := by
  have hcancel : (overwrite? secondCancel 2).any fun x => x.2.isCancelNew := by decide +kernel
  have htask : (overwrite? secondTask 1).any fun x => x.2 = .task := by decide +kernel
  have reached : ∀ script, (soundCalls Toy.relayWallet).Reaches Client.start
      (System.played Client.start script) := System.reaches_played _
  refine ⟨rfl, ?_, ?_⟩
  · obtain ⟨⟨h, site⟩, ho, hsite⟩ := (Option.any_eq_true _ _).mp hcancel
    obtain ⟨p, l, e, hreach, hlog, hover, he⟩ := overwrites_of_overwrite? (reached _) ho
    cases site with
    | cancelNew marked => exact ⟨p, l, e, hreach, hlog, hover, h, marked, he⟩
    | _ => cases hsite
  · obtain ⟨⟨h, site⟩, ho, hsite⟩ := (Option.any_eq_true _ _).mp htask
    obtain ⟨p, l, e, hreach, hlog, hover, he⟩ := overwrites_of_overwrite? (reached _) ho
    obtain rfl : site = .task := of_decide_eq_true hsite
    exact ⟨p, l, e, hreach, hlog, hover, h, he⟩

end CollisionRuns

end WalletKit
