import WalletKit.Runtime.Truth
import WalletKit.Safety.Burial
import WalletKit.Safety.Cancelled

/-!
# A cancel and its target

A cancel and its target are two handles at one nonce, and each sees the other's transaction as
the consumption of its own nonce. The mark is on the target alone: when the cancel wins, the
target is dropped and the cancel settles from its receipt; when the target wins, the cancel's
handle is taken for displaced, and its self-send is sent again at another nonce.
-/
namespace WalletKit

open Machine Signing

section Conditions

/-- No transaction with one of these hashes is on the chain. -/
def Chain.lacks (c : Chain) (bodies : TxHash → Bool) : Bool := c.txs.all fun t => !bodies t.hash

/-- The hashes of the target are among `bodies`, and the nonce is held by a transaction of the
cancel or by none. -/
def cancelWins (id : HandleId) (c : TxHandle) (bodies : TxHash → Bool) (chain : Chain) :
    PortEvent → Bool
  | ⟨.putHandle _ (.advance g), _⟩ =>
    (g.id != id || g.broadcasts.all bodies) &&
      (g.id != c.id || (chain.holder c.account c.nonce).all (·.hash ∈ g.broadcasts))
  | _ => true

variable {id : HandleId} {c : TxHandle} {bodies : TxHash → Bool} {chain : Chain}

theorem cancelWins_advance {h' g : TxHandle} {r : Except StateStoreError Unit}
    (h : cancelWins id c bodies chain ⟨.putHandle h' (.advance g), r⟩) :
    (g.id = id → ∀ x ∈ g.broadcasts, bodies x) ∧
      (g.id = c.id → ∀ t, chain.holder c.account c.nonce = some t → t.hash ∈ g.broadcasts) := by
  simp only [cancelWins, Bool.and_eq_true, Bool.or_eq_true, bne_iff_ne, List.all_eq_true] at h
  refine ⟨fun hid => h.1.resolve_left (· hid), fun hid t ht => ?_⟩
  simpa [ht] using h.2.resolve_left (· hid)

/-- A hash whose receipt is told is not one that the chain lacks. -/
theorem Chain.lacks_told (hlacks : chain.lacks bodies) {x : TxHash} {rc : TransactionReceipt}
    (htells : chain.tells (ev (.receipt x) (.ok (some rc)))) : bodies x = false := by
  have hrc : some rc = chain.receipt x := by simpa [ev, Chain.tells, Except.toOption] using htells
  obtain ⟨t, ht, rfl⟩ := Chain.receipt_isSome.mp (show (chain.receipt x).isSome by simp [← hrc])
  simpa using List.all_eq_true.mp hlacks t ht

end Conditions

section Law

variable [Alloy]

/-- Calls one at a time on a chain that tells the truth and keeps the holder of the cancel's
nonce, where no transaction of the target is mined, and a transaction that holds the nonce when
the status of the cancel is written is one that its handle records. Rejections are recorded, ids
do not collide, and no cancel is of a marked handle or of a cancel. -/
abbrev pairedCalls (id : HandleId) (c : TxHandle) (bodies : TxHash → Bool) :
    System ports Scene Call CallResult :=
  Call.client.onChain fun p i chain e => i + 1 = p.threads.length ∧ rejectWritten e ∧
    distinctIds p.world.world e ∧ freshCancel e ∧
    p.world.chain.keepsHolder chain c.account c.nonce ∧ chain.lacks bodies ∧
    cancelWins id c bodies chain e

/-- The handle of a cancel: it went out, and settles from a receipt of its own. -/
structure CancelStands (log : List PortEvent) (c g : TxHandle) : Prop where
  same : SameRecord c g
  started : g.status ≠ .pending
  status : g.status.isTerminal = false ∨ OwnReceipt log g

variable {id : HandleId} {c : TxHandle} {bodies : TxHash → Bool} {c₀ : Chain}
  {p : Pool ports Scene Call CallResult} {th : CallThread}

theorem pairedCalls_orderly (id : HandleId) (c : TxHandle) (bodies : TxHash → Bool) (c₀ : Chain) :
    Call.client.Orderly (pairedCalls id c bodies) Scene.world (Client.startOn c₀) Call.errand
      .tracked :=
  Call.orderly (Client.onChain_runs _ _) (Client.fresh_startOn c₀) (fun _ _ _ _ _ ha => ha.2.2.1)
    (fun ha => ha.2.2.2.1) fun ha => ha.2.2.2.2.1

theorem CancelStands.not_replaced {log : List PortEvent} {g : TxHandle}
    (h : CancelStands log c g) : g.status ≠ .replaced :=
  h.status.elim TxStatus.ne_replaced_of_live OwnReceipt.not_replaced

theorem CancelStands.tracked {log : List PortEvent} {g : TxHandle} (h : CancelStands log c g) :
    g.Is .tracked :=
  h.status.imp_right OwnReceipt.onChain

theorem CancelStands.mono {log : List PortEvent} {g : TxHandle} (h : CancelStands log c g)
    (e : PortEvent) : CancelStands (log ++ [e]) c g :=
  ⟨h.same, h.started, h.status.imp_right (·.mono e)⟩

/-- What is written over the cancel's record. -/
theorem CancelStands.put (h : (pairedCalls id c bodies).Reaches (Client.startOn c₀) p)
    (hlast : p.threads.getLast? = some th) {i : Nat} {chain : Chain} {h' g : TxHandle}
    {site : PutSite} {k : Except StateStoreError Unit → Io CallResult}
    (hprog : th.prog = .call (.putHandle h' site) k)
    (ha : (pairedCalls id c bodies).allow p i chain (.putHandle h' site) (.ok ()))
    (hg : p.world.world.store.handle h'.id = some g) (hc : CancelStands p.world.world.log c g) :
    CancelStands p.world.world.log c h' := by
  have hS := pairedCalls_orderly id c bodies c₀
  have hth : th ∈ p.threads := List.mem_of_getLast? hlast
  have hnew : ∀ origin, ¬Stored th.past g (.wal origin) := fun origin hs =>
    hc.started (Call.wal_new hS.runs hS.fresh h hth hs).1
  obtain ⟨role, hrole, howes⟩ := hS.runs.owes hS.fresh h hth hprog
  have hb : site.basis ≠ none := fun hb => hS.put_new (fun ha => ha.2.2.2.2.2.1) h hlast hprog ha hb
    (Call.ne_task hrole howes) hg hc.tracked
  obtain ⟨hsame, hover⟩ := Call.written_over hS h hlast hprog ha hg hb hnew
  have hsame' : SameRecord c h' := hc.same.trans hsame
  cases hover with
  | marked | unmarked => exact ⟨hsame', hc.started, hc.status⟩
  | bumped hsent => exact ⟨hsame', by simp [hsent], .inl (by rw [hsent]; rfl)⟩
  | @advanced e _ hev =>
    rcases hev.outcome fun x => hS.runs.mem_log hS.fresh h hth with
      ⟨hlive, hne⟩ | hown | ⟨-, before, scan, cycle, hpast, hcycle, hscan⟩
    · exact ⟨hsame', hne, .inl hlive⟩
    · refine ⟨hsame', fun hp => ?_, .inr hown⟩
      have hon := hown.onChain
      simp [hp, TxStatus.onChain] at hon
    · -- what holds the nonce would be none of the cancel's transactions
      have haccount : e.account = c.account := by
        rw [← hc.same.account, (hS.runs.pending_live hS.fresh h hth hev.seen).1]
      have htold : Told e.account g.nonce p.world th.past := by
        rw [haccount, hc.same.nonce]
        exact Client.told (fun henv => henv.2.2.2.2.1) hS.fresh h th hth
      obtain ⟨t, ht, hx⟩ := htold.foreign hpast hcycle hscan
      rw [haccount, hc.same.nonce] at ht
      obtain ⟨-, -, -, -, -, -, hkeeps, -, hwins⟩ := ha
      exact absurd
        ((cancelWins_advance hwins).2 hc.same.id t (Chain.keepsHolder_holder hkeeps ht)) hx

/-- The cancel's record stands from the moment it is written. -/
theorem cancel_stands (h : (pairedCalls id c bodies).Reaches (Client.startOn c₀) p)
    (hth : th ∈ p.threads) (hr : CancelReturnedAs id c th) :
    ∃ g, p.world.world.store.handle c.id = some g ∧ CancelStands p.world.world.log c g := by
  have hS := pairedCalls_orderly id c bodies c₀
  refine hr.since (J := fun w => ∃ g, w.world.store.handle c.id = some g ∧
    CancelStands w.world.log c g) hS.runs hS.sequential hS.fresh
    (fun {p i mover x marked k m} hreach hlast _ hprog ha => ?_)
    (fun {p i mover x o k r} hreach _ hlast hprog ha hJ => ?_) h hth
  · obtain ⟨role, -, m', approval, now, signed, -, rfl, -⟩ :=
      hS.runs.owes hS.fresh hreach (List.mem_of_getLast? hlast) hprog
    exact ⟨_, Store.handle_putHandle_self _ _, ⟨rfl, rfl, rfl, rfl, rfl⟩, nofun, .inl rfl⟩
  · obtain ⟨g, hg, hc⟩ := hJ
    change ∃ g, (p.world.world.apply ⟨o, r⟩).store.handle c.id = some g ∧
      CancelStands (p.world.world.log ++ [⟨o, r⟩]) c g
    rw [World.handle_apply]
    cases hw : wrote ⟨o, r⟩ with
    | none => exact ⟨g, hg, hc.mono _⟩
    | some h' =>
      obtain ⟨site, he⟩ := wrote_eq_some hw
      cases he
      by_cases hid : c.id = h'.id
      · exact ⟨h', if_pos hid, (CancelStands.put hreach hlast hprog ha (hid ▸ hg) hc).mono _⟩
      · exact ⟨g, (if_neg hid).trans hg, hc.mono _⟩

/-- When the target settles from the chain, its hashes are among those of its bodies. -/
theorem target_bodies (h : (pairedCalls id c bodies).Reaches (Client.startOn c₀) p) {g : TxHandle}
    (hg : p.world.world.store.handle id = some g) (hon : g.status.onChain) :
    ∀ x ∈ g.broadcasts, bodies x := by
  have hS := pairedCalls_orderly id c bodies c₀
  have hid : g.id = id := Table.key_of_get hg
  refine (hS.runs.handles_in (P := fun _ g => g.id = id → g.status.onChain →
    ∀ x ∈ g.broadcasts, bodies x) hS.fresh (fun _ hg => hg)
    (fun {p i th x h' site k role} hreach hth hprog ha hrole howes _ hid hon => ?_) h).1 g
    (hid ▸ hg) hid hon
  obtain ⟨g, rfl, hsame, hbroadcasts⟩ :=
    Call.settled_by_advance hS.runs hS.fresh hreach hth hrole howes hon
  rw [hbroadcasts]
  obtain ⟨-, -, -, -, -, -, -, -, hwins⟩ := ha
  exact (cancelWins_advance hwins).1 (hsame.id ▸ hid)

/-- No receipt of a body of the target was read. -/
theorem no_target_receipt (h : (pairedCalls id c bodies).Reaches (Client.startOn c₀) p) {x : TxHash}
    {rc : TransactionReceipt} (hread : ev (.receipt x) (.ok (some rc)) ∈ p.world.world.log) :
    bodies x = false := by
  have hS := pairedCalls_orderly id c bodies c₀
  obtain ⟨th, hth, hmem⟩ := hS.runs.exists_thread_of_mem_log hS.fresh h hread
  refine h.answered (K := fun _ e => ∀ x rc, e = ev (.receipt x) (.ok (some rc)) → bodies x = false)
    (fun {p i th chain o r} _ ha x rc he => ?_) rfl th hth _ hmem x rc rfl
  obtain ⟨-, htells, -, -, -, -, -, hlacks, -⟩ := ha
  exact Chain.lacks_told hlacks (he ▸ htells)

/-- **A cancel and its target settle as a pair** when the cancel wins. -/
theorem cancel_and_target_settle (h : (pairedCalls id c bodies).Reaches (Client.startOn c₀) p)
    (hth : th ∈ p.threads) (hr : CancelReturnedAs id c th) :
    (∃ g, p.world.world.store.handle id = some g ∧ g.cancelled ∧
      (g.status.isTerminal = false ∨ g.status = .dropped)) ∧
    (∃ g, p.world.world.store.handle c.id = some g ∧
      (g.status.isTerminal = false ∨ OwnReceipt p.world.world.log g)) ∧
    ∀ id' ∈ [id, c.id], p.world.world.log.countP (settlesReplaced id') = 0 ∧
      p.world.world.log.countP (refillLogged id') = 0 ∧
      p.world.world.log.countP (refillSubmitted id') = 0 := by
  have hS := pairedCalls_orderly id c bodies c₀
  have hfresh : ∀ {p i chain o r}, (pairedCalls id c bodies).allow p i chain o r →
    freshCancel ⟨o, r⟩ := fun ha => ha.2.2.2.2.2.1
  obtain ⟨g, hg, hc, -⟩ :=
    Call.stays_cancelled hS (keepsMarks_of_fresh hS.fresh.1 hfresh) h hth hr.returned
  obtain ⟨k, hk, hstands⟩ := cancel_stands h hth hr
  refine ⟨⟨g, hg, hc.marked, ?_⟩, ⟨k, hk, hstands.status⟩, fun id' hid => ?_⟩
  · rcases hc.status with hlive | hdropped | hown
    · exact .inl hlive
    · exact .inr hdropped
    · have hon := hown.onChain
      obtain ⟨x, hx, rc, b, hread, -⟩ := hown
      have hbody := target_bodies h hg hon x hx
      simp [no_target_receipt h hread] at hbody
  · simp only [List.mem_cons, List.not_mem_nil, or_false] at hid
    rcases hid with rfl | rfl
    · exact Call.not_reexecuted hS hfresh h hg hc.not_replaced
    · exact Call.not_reexecuted hS hfresh h hk hstands.not_replaced

end Law

section PairRuns

attribute [local instance] Toy.alloy

/-- The handle of the cancel. -/
def Toy.cancelOf : TxHandle :=
  cancelHandle
    (walHandle Toy.intent 4 ⟨Toy.intent.hash, .default, 1000⟩ 100 Toy.sentBody .default none)
    (cancelIntent 1 Toy.account) ⟨(cancelIntent 1 Toy.account).hash, .default, 1000⟩ 100
    Toy.cancelBody

/-- A send, its cancel, and a tick on each of these chains. -/
def cancelledOn {S : System ports Scene Call CallResult} (x : Chain → S.Choice)
    (first second : Chain) : List (System.Action S) :=
  [.spawn (.send Toy.manager Toy.intent .default none),
    .moves 0 40 (x Toy.before) fun w => World.serve Toy.before.asked w.world,
    .spawn (.cancel Toy.manager Toy.sentId),
    .moves 1 40 (x Toy.before) fun w => World.serve Toy.before.asked w.world,
    .spawn (.tick Toy.refiller), .moves 2 80 (x first) fun w => World.serve first.asked w.world,
    .spawn (.tick Toy.refiller), .moves 3 120 (x second) fun w => World.serve second.asked w.world]

/-- The status of a stored handle. -/
def statusOf (p : Pool ports Scene Call CallResult) (id : HandleId) : Option TxStatus :=
  (p.world.world.store.handle id).map (·.status)

/-- The cancel is mined. -/
def cancelMined : Pool ports Scene Call CallResult :=
  System.played (S := pairedCalls Toy.sentId Toy.cancelOf (· = Toy.sentBody.hash))
    (Client.startOn Toy.before)
    (cancelledOn id (Toy.mining Toy.cancelBody.hash Toy.cancelBody_unmined 11 Toy.le_eleven)
      (Toy.mining Toy.cancelBody.hash Toy.cancelBody_unmined 20 Toy.le_twenty))

theorem cancel_and_target_settle_mined :
    statusOf cancelMined Toy.sentId = some .dropped ∧
    statusOf cancelMined Toy.cancelOf.id = some (.confirmed 11) ∧
    (∃ g, cancelMined.world.world.store.handle Toy.sentId = some g ∧ g.cancelled ∧
      (g.status.isTerminal = false ∨ g.status = .dropped)) ∧
    (∃ g, cancelMined.world.world.store.handle Toy.cancelOf.id = some g ∧
      (g.status.isTerminal = false ∨ OwnReceipt cancelMined.world.world.log g)) ∧
    ∀ id' ∈ [Toy.sentId, Toy.cancelOf.id],
      cancelMined.world.world.log.countP (settlesReplaced id') = 0 ∧
      cancelMined.world.world.log.countP (refillLogged id') = 0 ∧
      cancelMined.world.world.log.countP (refillSubmitted id') = 0 := by
  have hreach : (pairedCalls Toy.sentId Toy.cancelOf (· = Toy.sentBody.hash)).Reaches
    (Client.startOn Toy.before) cancelMined := System.reaches_played _ _
  have hrun : cancelReturned? cancelMined 1 Toy.sentId = some Toy.cancelOf ∧
      statusOf cancelMined Toy.sentId = some .dropped ∧
      statusOf cancelMined Toy.cancelOf.id = some (.confirmed 11) := by decide +kernel
  obtain ⟨hcancelled, htarget, hcancel⟩ := hrun
  obtain ⟨th, hth, hr⟩ := exists_cancelReturned hcancelled
  exact ⟨htarget, hcancel, cancel_and_target_settle hreach hth hr⟩

/-- Calls one at a time on a chain that tells the truth and keeps its transactions. -/
abbrev truthfulCalls : System ports Scene Call CallResult :=
  Call.client.onChain fun p i c e => i + 1 = p.threads.length ∧ rejectWritten e ∧
    distinctIds p.world.world e ∧ freshCancel e ∧ p.world.chain.Keeps c

/-- The target is mined. -/
def targetMined : Pool ports Scene Call CallResult :=
  System.played (S := truthfulCalls) (Client.startOn Toy.before)
    (cancelledOn id (Toy.mining Toy.sentBody.hash Toy.sentBody_unmined 11 Toy.le_eleven)
      (Toy.mining Toy.sentBody.hash Toy.sentBody_unmined 20 Toy.le_twenty))

theorem mined_target_displaces_cancel : ∃ p th id c t,
    truthfulCalls.Reaches (Client.startOn Toy.before) p ∧
    th ∈ p.threads ∧ CancelReturnedAs id c th ∧
    p.world.chain.holder c.account c.nonce = some t ∧
    (∃ g, p.world.world.store.handle id = some g ∧ g.broadcasts = [t.hash] ∧
      g.status = .confirmed t.block) ∧
    statusOf p c.id = some .replaced ∧ 0 < p.world.world.log.countP (refillSubmitted c.id) := by
  have hreach : truthfulCalls.Reaches (Client.startOn Toy.before) targetMined :=
    System.reaches_played _ _
  have hrun : cancelReturned? targetMined 1 Toy.sentId = some Toy.cancelOf ∧
      targetMined.world.chain.holder Toy.account 4 =
        some ⟨Toy.account, 4, Toy.sentBody.hash, 11, true, []⟩ ∧
      ((targetMined.world.world.store.handle Toy.sentId).any fun g =>
        g.broadcasts = [Toy.sentBody.hash] ∧ g.status = .confirmed 11) ∧
      statusOf targetMined Toy.cancelOf.id = some .replaced ∧
      0 < targetMined.world.world.log.countP (refillSubmitted Toy.cancelOf.id) := by
    decide +kernel
  obtain ⟨hcancelled, hheld, htarget, hcancel, hrefilled⟩ := hrun
  obtain ⟨th, hth, hr⟩ := exists_cancelReturned hcancelled
  obtain ⟨g, hg, hs⟩ := (Option.any_eq_true _ _).mp htarget
  exact ⟨targetMined, th, Toy.sentId, Toy.cancelOf, _, hreach, hth, hr, hheld,
    ⟨g, hg, of_decide_eq_true hs⟩, hcancel, hrefilled⟩

end PairRuns

end WalletKit
