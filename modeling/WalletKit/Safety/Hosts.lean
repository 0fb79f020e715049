import WalletKit.Runtime.Wallet
import WalletKit.Safety.Chains

/-!
# Wallets of different accounts over one store

A host runs any number of wallets, no two of them for the same account, over one state store. Each
has its own process memory. What a wallet does to the store stays within its accounts: the nonce
states are those of its accounts, and so are the records it lists, computes from and writes. As long
as ids do not collide across accounts, and a wallet is asked only for ids of its own records and to
relay only intents of its own accounts, each wallet therefore does what it would do over a store of
its own. `send_gelato` does not check the last: the record of a task goes under the account of its
intent, and the wallet of that account finds it among its own.
-/
namespace WalletKit

open Machine Signing

section Footprint

/-- The nonce states and the listings are of these accounts, and so is the record of a new task. -/
def Within (A : List Address) : Op → Prop
  | .loadNonceState scope | .casNonceState scope _ _ _ _ => scope.account ∈ A
  | .pendingHandles account => account ∈ A
  | .putHandle h .task => h.account ∈ A
  | _ => True

variable {A : List Address} {a : Address}

namespace LocalNonceManager

variable (m : LocalNonceManager)

theorem allocate_within (ha : a ∈ A) : (m.allocate a).run.Ops (Within A) := by
  have hloop : (m.allocate a).run.wp (.history fun _ => Within A) (fun _ _ => True) [] :=
    allocateLoop_history (P := fun _ => True) (fun _ _ _ => ⟨ha, trivial⟩)
      (fun _ _ _ => ⟨trivial, trivial⟩)
      (fun _ _ _ _ _ _ _ _ => ⟨ha, fun _ _ => trivial, trivial⟩) (fun _ _ _ => trivial) _ trivial
  exact Prog.ops_of_history hloop fun _ _ ho => ho

theorem release_within (ha : a ∈ A) (n : Nat) : (m.release a n).run.Ops (Within A) := by
  have hloop : (m.release a n).run.wp (.history fun _ => Within A) (fun _ _ => True) [] :=
    releaseLoop_history (P := fun _ => True) (fun _ _ _ => ⟨ha, trivial⟩)
      (fun _ _ _ _ _ => ⟨ha, fun _ _ => trivial, trivial⟩) (fun _ _ _ _ => trivial)
      (fun _ _ _ _ _ => trivial) _ trivial
  exact Prog.ops_of_history hloop fun _ _ ho => ho

theorem reset_within (ha : a ∈ A) (c : Nat) : (m.reset a c).run.Ops (Within A) := by
  have hloop : (m.reset a c).run.wp (.history fun _ => Within A) (fun _ _ => True) [] :=
    resetLoop_history (P := fun _ => True) (fun _ _ _ => ⟨ha, trivial⟩)
      (fun _ _ _ _ _ => ⟨ha, fun _ _ => trivial, trivial⟩) (fun _ _ _ => trivial) _ trivial
  exact Prog.ops_of_history hloop fun _ _ ho => ho

end LocalNonceManager

variable [Alloy]

namespace TransactionManager

variable (m : TransactionManager)

/-- A send works on the account of its signer. -/
theorem sendWithMeta_within (ha : m.signer ∈ A) (intent : TxIntent) (opts : SubmissionOpts)
    (context : Option MetaContext) (origin : Origin) :
    (m.sendWithMeta intent opts context origin).run.Ops (Within A) := by
  refine sendWithMeta_of_parts (Prog.ops_compositional _) (fun hx => hx.mono fun o ho => ?_)
    (m.nonceManager.allocate_within ha) (fun n => m.nonceManager.release_within ha n) _ _ _ _
  cases o with
  | loadNonceState | casNonceState | pendingHandles => cases ho
  | putHandle g site =>
    cases site with
    | task => cases ho
    | _ => trivial
  | _ => trivial

/-- A cancel looks its target up and writes records; it takes no nonce and lists nothing. -/
theorem cancel_within (id : HandleId) : (m.cancel id).run.Ops (Within A) := by
  refine (m.cancel_ops id).mono fun o ho => ?_
  cases o with
  | loadNonceState | casNonceState | pendingHandles => cases ho
  | putHandle g site =>
    cases site with
    | task => cases ho
    | _ => trivial
  | _ => trivial

end TransactionManager

namespace AccountExecutor

variable (e : AccountExecutor)

/-- The accounts an executor works on: its own, and that of the manager it re-sends with. -/
def accounts : List Address := e.account :: (e.refill.map (·.signer)).toList

variable {e}

/-- A tick works on the executor's account, and on that of its refills. -/
theorem tick_within (hA : e.accounts ⊆ A) : e.tick.run.Ops (Within A) := by
  have haccount : e.account ∈ A := hA (by simp [accounts])
  have recover : e.recover.run.Ops (Within A) := by
    refine .tryBind (Prog.ops_orThrow ⟨haccount, fun _ => trivial⟩) fun handles =>
      .bind (.forM _ fun handle _ => (recoverHandle_ops handle).mono ?_) fun _ => trivial
    rintro _ ⟨-, rlp, opts, rfl⟩
    trivial
  have confirm : e.confirm.run.Ops (Within A) := by
    refine confirm_of_reset (Prog.ops_compositional _) (fun hx => hx.mono fun o ho => ?_)
      (fun c => e.nonceManager.reset_within haccount c)
      fun m hm => m.sendWithMeta_within (hA (by simp [accounts, Option.mem_def.mp hm]))
    rcases ho with ho | rfl | ho
    · cases o <;> trivial
    · exact haccount
    · cases o with
      | putHandle g site =>
        cases site with
        | task => cases ho
        | _ => trivial
      | loadNonceState | casNonceState | pendingHandles => cases ho
      | _ => trivial
  have escalate : e.escalate.run.Ops (Within A) := by
    refine .tryBind (.bind ⟨trivial, fun _ => trivial⟩ fun _ => trivial) fun now =>
      .tryBind (Prog.ops_orThrow ⟨haccount, fun _ => trivial⟩) fun handles =>
      .bind (escalateLoop_ops now handles fun _ _ _ o ho => ?_) fun _ => trivial
    cases o with
    | putHandle g site =>
      cases site with
      | bump => trivial
      | _ => cases ho
    | loadNonceState | casNonceState | pendingHandles => cases ho
    | _ => trivial
  exact .tryBind recover fun _ => .tryBind confirm fun _ => escalate

end AccountExecutor

/-- The accounts a wallet works on. -/
def Wallet.accounts (w : Wallet) : List Address :=
  w.manager.signer :: w.executor.accounts ++
    match w.gasless with
    | some (.selfRelay runtime) => runtime.manager.signer :: runtime.executor.accounts
    | _ => []

/-- What goes to the managed relay is an intent of one of the wallet's accounts: its record is
stored under the account of the intent, whoever that is. -/
def WalletCall.ownIntent (w : Wallet) : WalletCall → Bool
  | .sendGasless intent ⟨.gelato, _⟩ => intent.account ∈ w.accounts
  | _ => true

omit [Alloy] in
theorem Preliminary.within {o : Op} (ho : Preliminary o) : Within A o := by
  cases o <;> trivial

theorem WalletCall.body_within (w : Wallet) {c : WalletCall} (hc : c.ownIntent w) :
    (c.body w).Ops (Within w.accounts) := by
  have hsigner : w.manager.signer ∈ w.accounts := by simp [Wallet.accounts]
  have hexecutor : w.executor.accounts ⊆ w.accounts := by
    intro a ha
    simp [Wallet.accounts, ha]
  cases c with
  | send intent | sendWith intent opts =>
    exact .bind (Prog.ops_orThrow (w.manager.sendWithMeta_within hsigner _ _ _ _)) fun _ => trivial
  | sendGasless intent opts =>
    refine .bind ?_ fun _ => trivial
    unfold Wallet.sendGasless
    split
    · rename_i submission runtime hroute hgasless
      refine .tryBind ((w.manager.buildAndSignForwardRequest_ops _ _ _).mono fun _ =>
        Preliminary.within) fun signed => Prog.ops_orThrow
          (runtime.manager.sendWithMeta_within ?_ _ _ _ _)
      simp [Wallet.accounts, hgasless]
    · rename_i relay hroute _
      obtain ⟨route, deadline⟩ := opts
      obtain rfl : route = .gelato := hroute
      have hown : intent.account ∈ w.accounts := of_decide_eq_true hc
      refine .tryBind (.bind ⟨trivial, fun _ => trivial⟩ fun _ => trivial) fun now =>
        .tryBind (Prog.ops_orThrow ((GelatoRelay.buildCall_ops _ _ _).mono fun _ =>
          Preliminary.within)) fun call =>
        .tryBind (Prog.ops_orThrow ((w.manager.signTypedData_ops _).mono fun _ =>
          Preliminary.within)) fun signature =>
        .tryBind (Prog.ops_orThrow ⟨trivial, fun _ => trivial⟩) fun task =>
        Prog.ops_orThrow (.tryBind (.bind ⟨trivial, fun _ => trivial⟩ fun _ => trivial) fun now =>
          .tryBind (Prog.ops_orThrow ⟨hown, fun _ => trivial⟩) fun _ => trivial)
    · trivial
  | cancel id => exact .bind (Prog.ops_orThrow (w.manager.cancel_within id)) fun _ => trivial
  | tick =>
    refine .bind (.tryBind (Prog.ops_orThrow (AccountExecutor.tick_within hexecutor)) fun _ => ?_)
      fun _ => trivial
    split
    · rename_i runtime hgasless
      refine Prog.ops_orThrow (AccountExecutor.tick_within fun a ha => ?_)
      simp [Wallet.accounts, hgasless, ha]
    · trivial
  | handle id => exact .bind (Prog.ops_orThrow ⟨trivial, fun _ => trivial⟩) fun _ => trivial
  | status id =>
    exact .bind (.tryBind (Prog.ops_orThrow ⟨trivial, fun _ => trivial⟩) fun _ => trivial)
      fun _ => trivial

end Footprint

/-- One store, and what each wallet has done. -/
structure HostWorld (I : Type) where
  store : Store
  log : I → List PortEvent

namespace HostWorld

variable {I : Type} [DecidableEq I]

/-- What a wallet would have with a store of its own. -/
def alone (w : HostWorld I) (i : I) : World := .replay (w.log i)

/-- What a wallet has: the shared store and the memory of its own process. -/
def view (w : HostWorld I) (i : I) : World := { w.alone i with store := w.store }

def apply (w : HostWorld I) (i : I) (e : PortEvent) : HostWorld I where
  store := World.storeAfter w.store e
  log := Function.update w.log i (w.log i ++ [e])

def initial : HostWorld I := ⟨.empty, fun _ => []⟩

theorem alone_apply_self (w : HostWorld I) (i : I) (e : PortEvent) :
    (w.apply i e).alone i = (w.alone i).apply e := by
  simp [alone, apply]

theorem alone_apply_other (w : HostWorld I) {i j : I} (hne : i ≠ j) (e : PortEvent) :
    (w.apply j e).alone i = w.alone i := by
  simp [alone, apply, hne]

end HostWorld

section Parts

/-- A wallet looks up no id of another's record, and a new record takes the id of none under
another account. -/
def Store.clear (s : Store) (A : List Address) : Op → Bool
  | .handle id => (s.handle id).all (·.account ∈ A)
  | .putHandle h site => site.basis.isSome || (s.handle h.id).all (·.account = h.account)
  | _ => true

/-- An operation reads and writes nothing but what is of these accounts. -/
def Store.Confines (s : Store) (A : List Address) : Op → Prop
  | .handle id => ∀ g, s.handle id = some g → g.account ∈ A
  | .putHandle h _ => h.account ∈ A ∧ ∀ g, s.handle h.id = some g → g.account = h.account
  | o => Within A o

/-- The second store is the part of the first one that is of these accounts. -/
structure Store.Part (A : List Address) (s t : Store) : Prop where
  nonces : ∀ a ∈ A, t.nonces ⟨a⟩ = s.nonces ⟨a⟩
  handles : ∀ id g, t.handle id = some g ↔ s.handle id = some g ∧ g.account ∈ A

variable {A B : List Address} {s t : Store} {v : World} {e : PortEvent}

theorem Store.part_empty : Store.Part A .empty .empty where
  nonces _ _ := rfl
  handles id g := ⟨fun h => (by cases h), fun h => (by cases h.1)⟩

theorem Store.Part.pending (h : Part A s t) {a : Address} (ha : a ∈ A) :
    (s.pendingHandles a).Perm (t.pendingHandles a) := by
  refine (List.perm_ext_iff_of_nodup (s.handles.rows_nodup.filter _)
    (t.handles.rows_nodup.filter _)).mpr fun g => ?_
  change g ∈ s.pendingHandles a ↔ g ∈ t.pendingHandles a
  rw [mem_pendingHandles, mem_pendingHandles, h.handles]
  constructor
  · rintro ⟨hg, rfl, hlive⟩
    exact ⟨⟨hg, ha⟩, rfl, hlive⟩
  · rintro ⟨⟨hg, -⟩, hacc, hlive⟩
    exact ⟨hg, hacc, hlive⟩

theorem Store.Part.handle (h : Part A s t) {id : HandleId}
    (hid : ∀ g, s.handle id = some g → g.account ∈ A) : s.handle id = t.handle id := by
  cases hs : s.handle id with
  | none =>
    cases ht : t.handle id with
    | none => rfl
    | some g =>
      rw [h.handles, hs] at ht
      cases ht.1
  | some g => exact ((h.handles id g).mpr ⟨hs, hid g hs⟩).symm

/-- What the whole store answers to such an operation, its part answers too. -/
theorem Store.Part.can (h : Part A s v.store) (hconf : s.Confines A e.op)
    (hcan : World.can { v with store := s } e) : v.can e := by
  obtain ⟨o, r⟩ := e
  cases o with
  | loadNonceState scope =>
    cases r with
    | error => rfl
    | ok x =>
      have hx : x = s.loadNonceState scope := of_decide_eq_true hcan
      refine decide_eq_true (hx.trans ?_)
      rw [Store.loadNonceState, Store.loadNonceState, h.nonces scope.account hconf]
  | casNonceState scope n x f note =>
    cases r with
    | error => rfl
    | ok b =>
      have hb : (s.casNonceState scope n x f).1 = .ok b := of_decide_eq_true hcan
      have hsame := h.nonces scope.account hconf
      exact decide_eq_true ((Store.casNonceState_congr hsame n x f).1.trans hb)
  | pendingHandles a =>
    cases r with
    | error => rfl
    | ok hs =>
      have hperm : hs.Perm (s.pendingHandles a) := of_decide_eq_true hcan
      exact decide_eq_true (hperm.trans (h.pending hconf))
  | handle id =>
    cases r with
    | error => rfl
    | ok found =>
      have hfound : found = s.handle id := of_decide_eq_true hcan
      exact decide_eq_true (hfound.trans (h.handle hconf))
  | _ => exact hcan

theorem Store.handle_storeAfter (s : Store) (e : PortEvent) (id : HandleId) :
    (World.storeAfter s e).handle id = match wrote e with
      | some h => if id = h.id then some h else s.handle id
      | none => s.handle id :=
  World.handle_apply (w := { World.initial with store := s }) e id

/-- What it does to the whole, it does to the part. -/
theorem Store.Part.own (h : Part A s t) (hconf : s.Confines A e.op) :
    Part A (World.storeAfter s e) (World.storeAfter t e) where
  nonces a ha := nonces_storeAfter_congr (h.nonces a ha)
  handles id g := by
    rw [handle_storeAfter, handle_storeAfter]
    cases hw : wrote e with
    | none => exact h.handles id g
    | some h' =>
      obtain ⟨site, rfl⟩ := wrote_eq_some hw
      dsimp only
      split
      · refine ⟨fun hg => ⟨hg, ?_⟩, fun hg => hg.1⟩
        cases hg
        exact hconf.1
      · exact h.handles id g

/-- An operation on other accounts leaves the part as it is. -/
theorem Store.Part.other (h : Part A s t) (hconf : s.Confines B e.op) (hdisj : A.Disjoint B) :
    Part A (World.storeAfter s e) t where
  nonces a ha := by
    rw [nonces_storeAfter_of_none, h.nonces a ha]
    refine Option.eq_none_iff_forall_ne_some.mpr fun x hswap => ?_
    obtain ⟨f, note, rfl⟩ := exists_swap hswap
    exact hdisj ha hconf
  handles id g := by
    rw [handle_storeAfter]
    cases hw : wrote e with
    | none => exact h.handles id g
    | some h' =>
      obtain ⟨site, rfl⟩ := wrote_eq_some hw
      obtain ⟨hB, hold⟩ := hconf
      dsimp only
      split
      · rename_i hid
        subst hid
        rw [h.handles]
        constructor
        · rintro ⟨hg, hA⟩
          exact absurd (hold g hg ▸ hB) (hdisj hA)
        · rintro ⟨hg, hA⟩
          cases hg
          exact absurd hB (hdisj hA)
      · exact h.handles id g

/-- A confined step keeps a record of the same account under an id. -/
theorem Store.Confines.stays {A : List Address} {s : Store} {e : PortEvent}
    (hconf : s.Confines A e.op) {id : HandleId} {g : TxHandle} (hg : s.handle id = some g) :
    ∃ g', (World.storeAfter s e).handle id = some g' ∧ g'.account = g.account := by
  rw [handle_storeAfter]
  cases hw : wrote e with
  | none => exact ⟨g, hg, rfl⟩
  | some h' =>
    obtain ⟨site, rfl⟩ := wrote_eq_some hw
    dsimp only
    split
    · rename_i hid
      subst hid
      exact ⟨h', rfl, (hconf.2 g hg).symm⟩
    · exact ⟨g, hg, rfl⟩

/-- What a confined step shows a wallet is of its accounts. -/
theorem Store.Confines.reads {A : List Address} {v : World} {e : PortEvent}
    (hconf : v.store.Confines A e.op) (hcan : v.can e) {g : TxHandle} (hg : Reads g e) :
    g.account ∈ A := by
  obtain ⟨o, r⟩ := e
  cases o with
  | handle id =>
    obtain rfl : r = .ok (some g) := hg
    have hfound : some g = v.store.handle id := of_decide_eq_true hcan
    exact hconf g hfound.symm
  | pendingHandles a =>
    obtain ⟨hs, rfl, hmem⟩ := hg
    have hperm : hs.Perm (v.store.pendingHandles a) := of_decide_eq_true hcan
    obtain ⟨-, rfl, -⟩ := Store.mem_pendingHandles.mp (hperm.mem_iff.mp hmem)
    exact hconf
  | _ => cases hg

end Parts

section Law

variable [Alloy] {I : Type} [DecidableEq I]

abbrev HostPool (I : Type) := Pool ports (HostWorld I) (I × WalletCall) WalletResult

/-- Any number of wallets over one store, in any interleaving of their calls. No wallet is asked to
relay an intent of another's account, or for the id of another's record, and no new record takes the
id of one under another account. -/
abbrev hostedCalls (wallets : I → Wallet) :
    System ports (HostWorld I) (I × WalletCall) WalletResult where
  Choice := I
  body c := c.2.body (wallets c.1)
  admits _ c := c.2.ownIntent (wallets c.1)
  allow p n i o r := p.threads[n]?.map (·.call.1) = some i ∧ (p.world.view i).can ⟨o, r⟩ ∧
    p.world.store.clear (wallets i).accounts o
  next w i o r := w.apply i ⟨o, r⟩

def hostStart : HostPool I := ⟨.initial, []⟩

/-- The calls of one wallet. -/
def hostedBy (i : I) (p : HostPool I) : List WalletThread :=
  select (fun c => if c.1 = i then some c.2 else none) p.threads

variable {wallets : I → Wallet} {p : HostPool I}

omit [Alloy] in
theorem WalletCall.Plays.sender {w : Wallet} {c : WalletCall} {role : Role}
    (hplays : c.Plays w role) {m : TransactionManager} (hm : role.sender = some m) :
    m.signer ∈ w.accounts := by
  have executor : ∀ e : AccountExecutor, e.refill = some m → m.signer ∈ e.accounts := by
    intro e hrefill
    simp [AccountExecutor.accounts, hrefill]
  cases c with
  | sendGasless intent opts =>
    obtain ⟨-, rfl⟩ | ⟨runtime, hgasless, rfl⟩ := hplays
    · cases hm
    · cases hm
      simp [Wallet.accounts, hgasless]
  | tick =>
    obtain rfl | ⟨runtime, hgasless, rfl⟩ := hplays
    · simp [Wallet.accounts, executor _ hm]
    · simp [Wallet.accounts, hgasless, executor _ hm]
  | _ =>
    obtain rfl := hplays
    cases hm
    simp [Wallet.accounts]

/-- What a call knows of is of its wallet's accounts, and the store still has a record of that
account under the id. -/
def KnowsOwn (wallets : I → Wallet) (s : Store) (th : Thread ports (I × WalletCall) WalletResult) :
    Prop :=
  ∀ g, Known th.past g → g.account ∈ (wallets th.call.1).accounts ∧
    ∃ g', s.handle g.id = some g' ∧ g'.account = g.account

theorem admitted_of_reaches (h : (hostedCalls wallets).Reaches hostStart p) :
    ∀ th ∈ p.threads, th.call.2.ownIntent (wallets th.call.1) := by
  refine h.invariant (I := fun p => ∀ th ∈ p.threads, th.call.2.ownIntent (wallets th.call.1))
    (by simp [hostStart]) fun p p' hp hstep => ?_
  cases hstep with
  | spawn c hc =>
    intro th hth
    rcases Pool.mem_spawn.mp hth with hth | rfl
    · exact hp th hth
    · exact hc
  | @move i th o k x r hi hprog ha =>
    intro th' hth'
    rcases Pool.mem_answer hth' with hth' | rfl
    · exact hp th' hth'
    · exact hp th (List.mem_of_getElem? hi)

theorem WalletCall.body_stays (w : Wallet) (c : WalletCall) :
    (c.body w).wp (.history fun _ o => c.ownIntent w → Within w.accounts o)
      (fun _ _ => True) [] := by
  by_cases hc : c.ownIntent w
  · exact Prog.wp_of_ops (P := fun _ => True) (c.body_within w hc) (fun _ _ ho _ _ => ho)
      (fun _ _ => trivial) (fun _ _ _ _ _ _ _ => trivial) trivial
  · exact Prog.wp_of_trivial _ _ (fun _ _ h => absurd h hc) (fun _ => trivial) fun _ _ => trivial

omit [DecidableEq I] in
/-- What a call that knows only its own writes is of its wallet's accounts. -/
theorem account_of_put {th : Thread ports (I × WalletCall) WalletResult} {s : Store}
    (hown : KnowsOwn wallets s th) {role : Role} (hplays : th.call.2.Plays (wallets th.call.1) role)
    {h' : TxHandle} {site : PutSite} (hput : PutOwes role th.past h' site)
    (hwithin : Within (wallets th.call.1).accounts (.putHandle h' site)) :
    h'.account ∈ (wallets th.call.1).accounts := by
  cases hb : site.basis with
  | some g =>
    rw [(hput.sameRecord hb).account]
    exact (hown g (hput.known hb)).1
  | none =>
    cases site with
    | wal origin =>
      obtain ⟨m, hm, ⟨intent, _, _, _, _, _, _, _, _, hsigner, -, -, -, rfl⟩, -⟩ := hput
      rw [show (walHandle intent _ _ _ _ _ _).account = m.signer from hsigner.symm]
      exact hplays.sender hm
    | cancelNew marked =>
      obtain ⟨m, approval, now, signed, -, rfl, -, ⟨target, -, -, -, -, hstored⟩, -⟩ := hput
      exact (hown marked hstored.known).1
    | task => exact hwithin
    | _ => cases hb

/-- A call that knows only its own stays within its wallet's accounts. -/
theorem confines_of_knowsOwn (h : (hostedCalls wallets).Reaches hostStart p)
    {th : Thread ports (I × WalletCall) WalletResult} (hth : th ∈ p.threads) {o : Op}
    {k : o.Reply → Io WalletResult} (hprog : th.prog = .call o k)
    (hclear : p.world.store.clear (wallets th.call.1).accounts o)
    (hown : KnowsOwn wallets p.world.store th) :
    p.world.store.Confines (wallets th.call.1).accounts o := by
  have hwithin := h.history (fun c : I × WalletCall => c.2.body_stays (wallets c.1)) rfl th hth
  have hhist := h.history (fun c : I × WalletCall => c.2.body_history (w := wallets c.1)) rfl th hth
  rw [hprog, Prog.wp_history_call] at hwithin hhist
  obtain ⟨⟨role, hplays, howes⟩, -⟩ := hhist
  replace hwithin := hwithin.1 (admitted_of_reaches h th hth)
  cases o with
  | handle id =>
    intro g hg
    simpa [Store.clear, hg] using hclear
  | putHandle h' site =>
    refine ⟨account_of_put hown hplays howes hwithin, fun g hg => ?_⟩
    cases hb : site.basis with
    | none => simpa [Store.clear, hb, hg] using hclear
    | some basis =>
      -- the record it was computed from is stored under this id and account
      have hsame := PutOwes.sameRecord howes hb
      obtain ⟨-, g', hg', haccount⟩ := hown basis (PutOwes.known howes hb)
      rw [hsame.id, hg'] at hg
      cases hg
      rw [haccount, hsame.account]
  | _ => exact hwithin

theorem knowsOwn_of_reaches (h : (hostedCalls wallets).Reaches hostStart p) :
    ∀ th ∈ p.threads, KnowsOwn wallets p.world.store th := by
  induction h with
  | refl => simp [hostStart]
  | @tail p p' hreach hstep ih =>
    cases hstep with
    | spawn c hc =>
      intro th hth
      rcases Pool.mem_spawn.mp hth with hth | rfl
      · exact ih th hth
      · exact fun g hg => absurd hg known_nil
    | @move n th o k i r hn hprog ha =>
      have hth := List.mem_of_getElem? hn
      obtain ⟨hi, hcan, hclear⟩ := ha
      obtain rfl : th.call.1 = i := by simpa [hn] using hi
      have hconf := confines_of_knowsOwn hreach hth hprog hclear (ih th hth)
      have keeps : ∀ th', KnowsOwn wallets p.world.store th' →
          KnowsOwn wallets (World.storeAfter p.world.store ⟨o, r⟩) th' := by
        intro th' hown g hg
        obtain ⟨hA, g', hg', haccount⟩ := hown g hg
        obtain ⟨g'', hg'', hsame⟩ := hconf.stays (e := ⟨o, r⟩) hg'
        exact ⟨hA, g'', hg'', hsame.trans haccount⟩
      intro th' hth'
      rcases Pool.mem_answer hth' with hth' | rfl
      · exact keeps th' (ih th' hth')
      · intro g hg
        rcases known_snoc.mp hg with hg | hg | hg
        · exact keeps th (ih th hth) g hg
        · refine
            ⟨Store.Confines.reads (v := p.world.view th.call.1) (e := ⟨o, r⟩) hconf hcan hg, ?_⟩
          exact hconf.stays (e := ⟨o, r⟩) (stored_of_reads hg hcan)
        · obtain ⟨site, ⟨⟩⟩ := wrote_eq_some hg
          refine ⟨hconf.1, g, ?_, rfl⟩
          exact Store.handle_putHandle_self _ _

/-- Every step of a wallet stays within its accounts. -/
theorem hosted_confined (h : (hostedCalls wallets).Reaches hostStart p) :
    ((hostedCalls wallets).given fun q n e => ∀ i, q.threads[n]?.map (·.call.1) = some i →
      q.world.store.Confines (wallets i).accounts e.op).Reaches hostStart p := by
  refine h.given_of fun {q n th o k i r} hreach hn hprog ha => ?_
  intro j hj
  obtain rfl : th.call.1 = j := by simpa [hn] using hj
  have hth := List.mem_of_getElem? hn
  obtain ⟨hi, -, hclear⟩ := ha
  obtain rfl : th.call.1 = i := by simpa [hn] using hi
  exact confines_of_knowsOwn hreach hth hprog hclear (knowsOwn_of_reaches hreach th hth)

theorem hosted_projection (hdisj : Pairwise fun i j => (wallets i).accounts.Disjoint
    (wallets j).accounts) (i : I) :
    System.Projection ((hostedCalls wallets).given fun q n e => ∀ i,
        q.threads[n]?.map (·.call.1) = some i →
          q.world.store.Confines (wallets i).accounts e.op)
      (wallets i).calls (fun c => if c.1 = i then some c.2 else none)
      fun w v => v = w.alone i ∧ Store.Part (wallets i).accounts w.store v.store where
  body := by
    rintro ⟨j, c⟩ c' hpart
    split at hpart
    · rename_i hj
      cases hpart
      exact congrArg (fun w => c.body w) (congrArg wallets hj)
    · cases hpart
  spawn _ _ := trivial
  own := by
    rintro p p' n th j o r c' hn hpart ⟨hworld, hsplit⟩ ⟨⟨hj, hcan, -⟩, hconf⟩
    split at hpart
    · rename_i hi
      obtain rfl : i = j := Option.some.inj (by simpa [hn, hi] using hj)
      refine ⟨(), fun _ => ⟨hsplit.can (hconf i hj) ?_, trivial⟩, ?_, hsplit.own (hconf i hj)⟩
      · rw [hworld]
        exact hcan
      · rw [hworld]
        exact (p.world.alone_apply_self i ⟨o, r⟩).symm
    · cases hpart
  other := by
    rintro p w' n th j o r hn hpart ⟨rfl, hsplit⟩ ⟨⟨hj, hcan, -⟩, hconf⟩
    split at hpart
    · cases hpart
    · rename_i hi
      have hne : i ≠ j := by
        rintro rfl
        exact hi (by simpa [hn] using hj)
      exact ⟨(p.world.alone_apply_other hne ⟨o, r⟩).symm,
        hsplit.other (hconf j hj) (hdisj hne)⟩

/-- **Wallets of different accounts do not interfere.** Over one store, in any interleaving, as long
as each is asked for its own records and to relay its own intents, each of them runs as over a store
of its own: its calls are those of such a run, with all they have done and been answered, and the
records of its accounts are those of that run. -/
theorem accounts_run_apart (hdisj : Pairwise fun i j => (wallets i).accounts.Disjoint
    (wallets j).accounts) (h : (hostedCalls wallets).Reaches hostStart p) (i : I) :
    ∃ q : WalletPool, (wallets i).calls.Reaches Client.start q ∧ q.threads = hostedBy i p ∧
      q.world.log = p.world.log i ∧ ∀ id g, q.world.store.handle id = some g ↔
        p.world.store.handle id = some g ∧ g.account ∈ (wallets i).accounts := by
  have hstart : (Client.start : WalletPool).threads =
      select (fun c => if c.1 = i then some c.2 else none) (hostStart : HostPool I).threads := rfl
  obtain ⟨q, hreach, hthreads, hworld, hpart⟩ :=
    (hosted_projection hdisj i).reaches (hosted_confined h) hstart ⟨rfl, Store.part_empty⟩
  refine ⟨q, hreach, hthreads, ?_, hpart.handles⟩
  rw [hworld]
  exact World.replay_log _

end Law

section TwoWallets

variable {I : Type} [DecidableEq I]

attribute [local instance] Toy.alloy

/-- Two wallets that differ in their signer. -/
def twoWallets (first : Bool) : Wallet :=
  { Toy.builder with signer := if first then 7 else 8 }.build

instance (wallets : Bool → Wallet) (p : HostPool Bool) (c : Bool × WalletCall) :
    Decidable ((hostedCalls wallets).admits p c) :=
  inferInstanceAs (Decidable (c.2.ownIntent (wallets c.1) = true))

instance (wallets : Bool → Wallet) (p : HostPool Bool) (n : Nat)
    (i : (hostedCalls wallets).Choice) (o : ports.Op) (r : ports.Reply o) :
    Decidable ((hostedCalls wallets).allow p n i o r) :=
  have : DecidableEq (Option Bool) := inferInstance
  inferInstanceAs (Decidable (_ = some (i : Bool) ∧ _ = true ∧ _ = true))

/-- The answers one of them gets. -/
def servedTo (first : Bool) (others : (o : Op) → Option o.Reply) (w : HostWorld Bool) (o : Op) :
    Option o.Reply :=
  World.serve others (w.view first) o

/-- The second wallet sends in the middle of a send of the first, and ticks after it. -/
def sentTogether : HostPool Bool :=
  System.played (S := hostedCalls twoWallets) hostStart
    [.spawn (true, .send Toy.intent), .moves 0 6 true (servedTo true Toy.calm),
      .spawn (false, .send { Toy.intent with account := 8 }),
      .moves 1 40 false (servedTo false Toy.calm), .moves 0 40 true (servedTo true Toy.calm),
      .spawn (false, .tick),
      .moves 2 40 false (servedTo false (Toy.chain 14 5 (some Toy.receipt)))]

theorem accounts_run_apart_together :
    sentTogether.world.store.has (fun g => g.account = 7 ∧ g.nonce = 4 ∧ g.status = .sent) ∧
      sentTogether.world.store.has (fun g => g.account = 8 ∧ g.nonce = 4 ∧
        g.status = .confirmed 10) ∧
      ∀ first, ∃ q : WalletPool, (twoWallets first).calls.Reaches Client.start q ∧
        q.threads = hostedBy first sentTogether := by
  have hreach : (hostedCalls twoWallets).Reaches hostStart sentTogether :=
    System.reaches_played _ _
  have hdisj : Pairwise fun i j => (twoWallets i).accounts.Disjoint (twoWallets j).accounts := by
    have hall : ∀ first, (twoWallets first).accounts =
        .replicate 3 (if first then 7 else 8) := by decide
    have hsigners : ∀ i j : Bool, i ≠ j →
        (if i then (7 : Address) else 8) ≠ if j then 7 else 8 := by
      decide
    intro i j hij a hi hj
    rw [hall] at hi hj
    exact hsigners i j hij
      ((List.eq_of_mem_replicate hi).symm.trans (List.eq_of_mem_replicate hj))
  refine ⟨by decide +kernel, by decide +kernel, fun first => ?_⟩
  obtain ⟨q, hq, hthreads, -⟩ := accounts_run_apart hdisj hreach first
  exact ⟨q, hq, hthreads⟩

/-- The wallets where any of them may be asked to relay any intent. -/
abbrev relayingAny (wallets : I → Wallet) :
    System ports (HostWorld I) (I × WalletCall) WalletResult :=
  { hostedCalls wallets with admits := fun _ _ => True }

instance (wallets : Bool → Wallet) (p : HostPool Bool) (c : Bool × WalletCall) :
    Decidable ((relayingAny wallets).admits p c) := inferInstanceAs (Decidable True)

/-- The first of the wallets has a managed relay. -/
def relayingFirst (first : Bool) : Wallet := if first then Toy.relayWallet else twoWallets false

/-- The first wallet relays an intent of the second one's account. -/
def relayedForeign : HostPool Bool :=
  System.played (S := relayingAny relayingFirst) hostStart
    [.spawn (true, .sendGasless { Toy.intent with account := 8, value := 0 } ⟨.gelato, 60⟩),
      .moves 0 20 true (servedTo true (Toy.relaying .pending Toy.calm))]

/-- A wallet that relays an intent of another's account stores a record there: the other wallet has
made no call, and its account has a record that no run of its own has made. -/
theorem relayed_foreign_interferes :
    (relayingAny relayingFirst).Reaches hostStart relayedForeign ∧
      hostedBy false relayedForeign = [] ∧
      ¬∃ q : WalletPool, (relayingFirst false).calls.Reaches Client.start q ∧
        q.threads = hostedBy false relayedForeign ∧
        ∀ id g, q.world.store.handle id = some g ↔
          relayedForeign.world.store.handle id = some g ∧
            g.account ∈ (relayingFirst false).accounts := by
  have hnone : hostedBy false relayedForeign = [] := by
    have hlength : (hostedBy false relayedForeign).length = 0 := by decide +kernel
    exact List.eq_nil_of_length_eq_zero hlength
  refine ⟨System.reaches_played _ _, hnone, ?_⟩
  rintro ⟨q, hreach, hthreads, hrecords⟩
  -- without a call there is no record
  have hidle : q.threads = [] → q.world = .initial := by
    refine hreach.invariant (I := fun q => q.threads = [] → q.world = .initial) (fun _ => rfl) ?_
    intro p p' _ hstep hempty
    cases hstep with
    | spawn c _ => simp [Pool.spawn] at hempty
    | @move i th o k x r hi hprog _ =>
      have hlt := (List.getElem?_eq_some_iff.mp hi).1
      simp only [Pool.answer, List.set_eq_nil_iff] at hempty
      simp [hempty] at hlt
  have hforeign : relayedForeign.world.store.has (fun g => g.account = 8) := by decide +kernel
  obtain ⟨g, hg, haccount⟩ := Store.exists_of_has hforeign
  have hown : g.account ∈ (relayingFirst false).accounts := by
    rw [of_decide_eq_true haccount]
    decide
  have hstored := (hrecords g.id g).mpr ⟨hg, hown⟩
  rw [hidle (hthreads.trans hnone)] at hstored
  cases hstored

end TwoWallets

end WalletKit
