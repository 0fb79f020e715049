import WalletKit.Safety.Pairs

/-!
# The wallet's own transactions

A handle is taken for displaced when its nonce is consumed and none of the hashes on its record
has a receipt. A bump whose broadcast fails with a transient error leaves its hash off the
record, though the node may have taken the transaction: when that one is mined, the handle
settles as replaced and its intent is sent again. As long as the record that a tick works from
has the hash of whichever of the handle's transactions is mined, this does not happen on a chain
that keeps what holds the nonce and mines nothing before it is broadcast.
-/
namespace WalletKit

open Machine Signing

section Conditions

variable [Alloy]

/-- The handle that a broadcast is made for. -/
def SubmitSite.handleId : SubmitSite → HandleId
  | .send _ wal => wal.id
  | .recover h | .bump h => h.id
  | .cancel marked => .new (cancelIntent marked.intent.chainId marked.account).hash marked.nonce

/-- The hash of what is broadcast for this handle, whether or not the node says it took it. -/
def bodyOf (id : HandleId) : PortEvent → Option TxHash
  | ⟨.submit rlp _ site, _⟩ => if site.handleId = id then some (keccak256 rlp) else none
  | _ => none

/-- The transactions that were broadcast for a handle. -/
def bodies (id : HandleId) (log : List PortEvent) : List TxHash := log.filterMap (bodyOf id)

/-- No transaction is on the chain before it is broadcast for its handle. -/
def broadcastFirst (w : World) (c : Chain) : PortEvent → Bool
  | ⟨.submit rlp _ site, _⟩ =>
    c.txs.all (·.hash ≠ keccak256 rlp) || keccak256 rlp ∈ bodies site.handleId w.log
  | _ => true

/-- When a status is written and one of the handle's transactions holds its nonce, the record the
status is computed from has its hash. -/
def bodyRecorded (w : World) (c : Chain) : PortEvent → Bool
  | ⟨.putHandle _ (.advance g), _⟩ =>
    (c.holder g.account g.nonce).all fun t => t.hash ∉ bodies g.id w.log || t.hash ∈ g.broadcasts
  | _ => true

omit [Alloy] in
/-- A record of this handle at this nonce of this account. -/
def TxHandle.isAt (d : TxHandle) (id : HandleId) (a : Address) (n : Nat) : Bool :=
  d.id = id && d.account = a && d.nonce = n

/-- The handle is stored as replaced. -/
def displaces (id : HandleId) (a : Address) (n : Nat) : PortEvent → Bool
  | ⟨.putHandle d (.advance _), r⟩ =>
    d.isAt id a n && d.status = .replaced && (r : Except StateStoreError Unit).isOk
  | _ => false

/-- The intent of the handle is sent again. -/
def resends (id : HandleId) (a : Address) (n : Nat) : PortEvent → Bool
  | ⟨.putHandle _ (.wal (.refill d)), _⟩ | ⟨.submit _ _ (.send (.refill d) _), _⟩ => d.isAt id a n
  | _ => false

variable {w : World} {c : Chain} {id : HandleId} {a : Address} {n : Nat} {e : PortEvent}

omit [Alloy] in
theorem TxHandle.isAt_iff {d : TxHandle} :
    d.isAt id a n ↔ d.id = id ∧ d.account = a ∧ d.nonce = n := by
  simp [isAt, and_assoc]

omit [Alloy] in
theorem displaces_iff : displaces id a n e ↔ ∃ d g, e = ev (.putHandle d (.advance g)) (.ok ()) ∧
    d.isAt id a n ∧ d.status = .replaced := by
  constructor
  · intro h
    unfold displaces at h
    split at h
    · rename_i d g r
      simp only [Bool.and_eq_true, decide_eq_true_eq] at h
      match r, h with
      | .ok (), h => exact ⟨d, g, rfl, h.1⟩
      | .error _, h => simp [Except.isOk, Except.toBool] at h
    · cases h
  · rintro ⟨d, g, rfl, hd, hs⟩
    simp [displaces, ev, hd, hs, Except.isOk, Except.toBool]

omit [Alloy] in
theorem resends_cases (h : resends id a n e) : ∃ d, d.isAt id a n ∧
    ((∃ wal, e.op = .putHandle wal (.wal (.refill d))) ∨
      ∃ rlp opts wal, e.op = .submit rlp opts (.send (.refill d) wal)) := by
  unfold resends at h
  split at h
  · exact ⟨_, h, .inl ⟨_, rfl⟩⟩
  · exact ⟨_, h, .inr ⟨_, _, _, rfl⟩⟩
  · cases h

theorem bodies_snoc (id : HandleId) (log : List PortEvent) (e : PortEvent) :
    bodies id (log ++ [e]) = bodies id log ++ (bodyOf id e).toList := by
  cases h : bodyOf id e <;> simp [bodies, h]

/-- A transaction on the chain is no new one of a handle. -/
theorem mem_bodies_of_snoc (h : broadcastFirst w c e) {t : Inclusion} (ht : t ∈ c.txs)
    (hmem : t.hash ∈ bodies id (w.log ++ [e])) : t.hash ∈ bodies id w.log := by
  rw [bodies_snoc, List.mem_append, Option.mem_toList] at hmem
  refine hmem.elim (fun h => h) fun hbody => ?_
  unfold bodyOf at hbody
  split at hbody
  · rename_i rlp opts site r
    split at hbody
    · rename_i hid
      have hx : keccak256 rlp = t.hash := Option.some.inj hbody
      simp only [broadcastFirst, Bool.or_eq_true, List.all_eq_true, decide_eq_true_eq, hid, hx] at h
      exact h.resolve_left fun hnone => hnone t ht rfl
    · cases hbody
  · cases hbody

theorem bodyRecorded_advance {h' g : TxHandle} {r : Except StateStoreError Unit}
    (h : bodyRecorded w c ⟨.putHandle h' (.advance g), r⟩) {t : Inclusion}
    (ht : c.holder g.account g.nonce = some t) (hx : t.hash ∉ g.broadcasts) :
    t.hash ∉ bodies g.id w.log := by
  simpa [bodyRecorded, ht, hx] using h

end Conditions

section Law

variable [Alloy]

/-- Calls in any interleaving on a chain that tells the truth and keeps the holder of this nonce,
where transactions are broadcast before they are mined, and a tick works from a record that has
the hash of the handle's own transaction if that is what holds its nonce. -/
abbrev recordedCalls (a : Address) (n : Nat) : System ports Scene Call CallResult :=
  Call.client.onChain fun p _ c e => p.world.chain.keepsHolder c a n ∧
    broadcastFirst p.world.world c e ∧ bodyRecorded p.world.world c e

variable {a : Address} {n : Nat} {c₀ : Chain} {p : Pool ports Scene Call CallResult}

theorem recordedCalls_runs : Call.client.Runs (recordedCalls a n) Scene.world :=
  Client.onChain_runs _ _

/-- When a handle is about to be stored as replaced, none of its transactions holds its nonce. -/
theorem foreign_of_displaces (h : (recordedCalls a n).Reaches (Client.startOn c₀) p) {i : Nat}
    {th : CallThread} (hth : th ∈ p.threads) {d g : TxHandle}
    {k : Except StateStoreError Unit → Io CallResult}
    (hprog : th.prog = .call (.putHandle d (.advance g)) k) {c : Chain}
    (ha : (recordedCalls a n).allow p i c (.putHandle d (.advance g)) (.ok ())) {id : HandleId}
    (hat : d.isAt id a n) (hs : d.status = .replaced) :
    ∃ t, c.holder a n = some t ∧ t.hash ∉ bodies id p.world.world.log := by
  obtain ⟨role, -, howes⟩ := recordedCalls_runs.owes (Client.fresh_startOn c₀) h hth hprog
  have howed : PutOwes role th.past d (.advance g) := howes
  have hsame : SameRecord g d := howed.sameRecord rfl
  obtain ⟨e, -, hev⟩ := howes
  obtain ⟨rfl, rfl, rfl⟩ := TxHandle.isAt_iff.mp hat
  obtain ⟨-, before, scan, cycle, hpast, hcycle, hscan⟩ :=
    ((hev.outcome fun _ hx => hx).resolve_left fun hlive =>
      TxStatus.ne_replaced_of_live hlive.1 hs).resolve_left fun hown => hown.not_replaced hs
  have haccount : e.account = d.account := by
    rw [hsame.account]
    exact (recordedCalls_runs.pending_live (Client.fresh_startOn c₀) h hth hev.seen).1.symm
  have htold : Told e.account g.nonce p.world th.past := by
    rw [haccount, ← hsame.nonce]
    exact Client.told (fun henv => henv.1) (Client.fresh_startOn c₀) h th hth
  obtain ⟨t, ht, hx⟩ := htold.foreign hpast hcycle hscan
  obtain ⟨-, -, hkeeps, -, hrecorded⟩ := ha
  rw [haccount, ← hsame.nonce] at ht
  have hholder := Chain.keepsHolder_holder hkeeps ht
  refine ⟨t, hholder, ?_⟩
  rw [hsame.id]
  refine bodyRecorded_advance hrecorded ?_ hx
  rwa [← hsame.account, ← hsame.nonce]

/-- Once a handle is stored as replaced, its nonce is held by none of its transactions. -/
theorem displaced_is_foreign (h : (recordedCalls a n).Reaches (Client.startOn c₀) p)
    {id : HandleId} {e : PortEvent} (he : e ∈ p.world.world.log) (hd : displaces id a n e) :
    ∃ t, p.world.chain.holder a n = some t ∧ t.hash ∉ bodies id p.world.world.log := by
  induction h generalizing e with
  | refl => cases he
  | @tail p p' hreach hs ih =>
    cases hs with
    | spawn => exact ih he hd
    | @move i th o k c r hi hprog ha =>
      have hmem : e ∈ p.world.world.log ++ [⟨o, r⟩] := he
      change ∃ t, Chain.holder c a n = some t ∧ t.hash ∉ bodies id (p.world.world.log ++ [⟨o, r⟩])
      have hfirst : broadcastFirst p.world.world c ⟨o, r⟩ := ha.2.2.2.1
      obtain ⟨t, ht, hx⟩ : ∃ t, Chain.holder c a n = some t ∧
          t.hash ∉ bodies id p.world.world.log := by
        rcases List.mem_append.mp hmem with he | he
        · obtain ⟨t, ht, hx⟩ := ih he hd
          exact ⟨t, Chain.keepsHolder_holder ha.2.2.1 ht, hx⟩
        · rw [List.mem_singleton.mp he] at hd
          obtain ⟨d, g, he, hat, hs⟩ := displaces_iff.mp hd
          cases he
          exact foreign_of_displaces hreach (List.mem_of_getElem? hi) hprog ha hat hs
      exact ⟨t, ht, fun hmem => hx (mem_bodies_of_snoc hfirst (Chain.holder_eq_some.mp ht).1 hmem)⟩

/-- What is sent again was stored as replaced before. -/
theorem exists_displaces_of_resends (h : (recordedCalls a n).Reaches (Client.startOn c₀) p)
    {id : HandleId} {e : PortEvent} (he : e ∈ p.world.world.log) (hr : resends id a n e) :
    ∃ e' ∈ p.world.world.log, displaces id a n e' := by
  have hruns := recordedCalls_runs (a := a) (n := n)
  have h₀ := Client.fresh_startOn (C := Call) (α := CallResult) c₀
  obtain ⟨th, hth, hmem⟩ := hruns.exists_thread_of_mem_log h₀ h he
  obtain ⟨d, hat, hop⟩ := resends_cases hr
  obtain ⟨wal, before, x, after, hpast, hwal⟩ : ∃ wal before x after,
      th.past = before ++ x :: after ∧ x.op = .putHandle wal (.wal (.refill d)) := by
    obtain ⟨before, after, hpast⟩ := List.append_of_mem hmem
    rcases hop with ⟨wal, hop⟩ | ⟨rlp, opts, wal, hop⟩
    · exact ⟨wal, before, e, after, hpast, hop⟩
    · obtain ⟨role, -, howes⟩ := hruns.owed h₀ h hth hpast
      rw [hop] at howes
      obtain ⟨m, -, -, -, -, hlast⟩ := howes
      obtain ⟨before', rfl⟩ := List.getLast?_eq_some_iff.mp hlast
      exact ⟨wal, before', ev (.putHandle wal (.wal (.refill d))) (.ok ()), e :: after,
        by simp [hpast], rfl⟩
  have howes := hruns.settled Call.client_settles h₀ h hth hpast
  rw [hwal] at howes
  obtain ⟨g, before', after', hbefore, -⟩ := howes.once
  refine ⟨ev (.putHandle d (.advance g)) (.ok ()), hruns.mem_log h₀ h hth ?_,
    displaces_iff.mpr ⟨d, g, rfl, hat, howes.settled⟩⟩
  simp [hpast, hbefore]

/-- **No double execution through refill**, on a chain that keeps what holds the nonce and mines
nothing before it is broadcast, as long as the handle's record has the hash of the transaction
that is mined: when the nonce of a handle is held by a transaction that was broadcast for it, the
handle was never stored as replaced and its intent was never sent again. -/
theorem own_transaction_never_resent (h : (recordedCalls a n).Reaches (Client.startOn c₀) p)
    {id : HandleId} {t : Inclusion} (ht : p.world.chain.holder a n = some t)
    (hbody : t.hash ∈ bodies id p.world.world.log) :
    ∀ e ∈ p.world.world.log, displaces id a n e = false ∧ resends id a n e = false := by
  have never : ∀ e ∈ p.world.world.log, displaces id a n e = false := by
    intro e he
    by_contra hd
    obtain ⟨t', ht', hx⟩ := displaced_is_foreign h he (by simpa using hd)
    cases ht.symm.trans ht'
    exact hx hbody
  refine fun e he => ⟨never e he, ?_⟩
  by_contra hr
  obtain ⟨e', he', hd⟩ := exists_displaces_of_resends h he (by simpa using hr)
  simp [never e' he'] at hd

end Law

section BodyRuns

attribute [local instance] Toy.alloy

/-- The first fee bump of a send. -/
def Toy.bumpBody : SignedTx := .of (buildTx Toy.intent 4 25200 ⟨20, 2⟩) [1]

theorem Toy.bumpBody_unmined : Toy.bumpBody.hash ∉ Toy.minedBefore.map (·.hash) := by
  decide +kernel

/-- What a chain tells, when the broadcast of a bump is answered so. -/
def bumping (r : Except SubmissionError TxHash) (c : Chain) (w : Scene) : (o : Op) → Option o.Reply
  | .submit _ _ (.bump _) => some r
  | o => World.serve c.asked w.world o

/-- A send, a tick that bumps it and has the broadcast answered so, and a tick on each of these
chains. -/
def bumpedOn {S : System ports Scene Call CallResult} (x : Chain → S.Choice)
    (r : Except SubmissionError TxHash) (first second : Chain) : List (System.Action S) :=
  [.spawn (.send Toy.manager Toy.intent .default none),
    .moves 0 40 (x Toy.before) (bumping r Toy.before),
    .spawn (.tick Toy.refiller), .moves 1 80 (x Toy.before) (bumping r Toy.before),
    .spawn (.tick Toy.refiller), .moves 2 80 (x first) (bumping r first),
    .spawn (.tick Toy.refiller), .moves 3 120 (x second) (bumping r second)]

/-- The bump is taken, recorded and mined. -/
def bumpMined : Pool ports Scene Call CallResult :=
  System.played (S := recordedCalls Toy.account 4) (Client.startOn Toy.before)
    (bumpedOn id (.ok Toy.bumpBody.hash)
      (Toy.mining Toy.bumpBody.hash Toy.bumpBody_unmined 11 Toy.le_eleven)
      (Toy.mining Toy.bumpBody.hash Toy.bumpBody_unmined 20 Toy.le_twenty))

theorem own_transaction_never_resent_bumped :
    statusOf bumpMined Toy.sentId = some (.confirmed 11) ∧
    (∃ t, bumpMined.world.chain.holder Toy.account 4 = some t ∧
      t.hash ∈ bodies Toy.sentId bumpMined.world.world.log) ∧
    ∀ e ∈ bumpMined.world.world.log, displaces Toy.sentId Toy.account 4 e = false ∧
      resends Toy.sentId Toy.account 4 e = false := by
  have hreach : (recordedCalls Toy.account 4).Reaches (Client.startOn Toy.before) bumpMined :=
    System.reaches_played _ _
  have hrun : statusOf bumpMined Toy.sentId = some (.confirmed 11) ∧
      (bumpMined.world.chain.holder Toy.account 4).any fun t =>
        t.hash ∈ bodies Toy.sentId bumpMined.world.world.log := by decide +kernel
  obtain ⟨hconfirmed, hheld⟩ := hrun
  obtain ⟨t, ht, hbody⟩ := (Option.any_eq_true _ _).mp hheld
  exact ⟨hconfirmed, ⟨t, ht, of_decide_eq_true hbody⟩,
    own_transaction_never_resent hreach ht (of_decide_eq_true hbody)⟩

/-- Calls one at a time on a chain that tells the truth and keeps its transactions, which are
broadcast before they are mined. -/
abbrev broadcastCalls : System ports Scene Call CallResult :=
  Call.client.onChain fun p i c e => i + 1 = p.threads.length ∧ p.world.chain.Keeps c ∧
    broadcastFirst p.world.world c e

/-- The node takes a bump, but the answer is lost, and the bump is mined. -/
def lostBumpMined : Pool ports Scene Call CallResult :=
  System.played (S := broadcastCalls) (Client.startOn Toy.before)
    (bumpedOn id (.error (.rpc (.call "timeout" true)))
      (Toy.mining Toy.bumpBody.hash Toy.bumpBody_unmined 11 Toy.le_eleven)
      (Toy.mining Toy.bumpBody.hash Toy.bumpBody_unmined 20 Toy.le_twenty))

theorem mined_bump_resent : ∃ p id a n t, broadcastCalls.Reaches (Client.startOn Toy.before) p ∧
    p.world.chain.holder a n = some t ∧ t.hash ∈ bodies id p.world.world.log ∧
    (∃ e ∈ p.world.world.log, displaces id a n e) ∧ ∃ e ∈ p.world.world.log, resends id a n e := by
  have hreach : broadcastCalls.Reaches (Client.startOn Toy.before) lostBumpMined :=
    System.reaches_played _ _
  have hrun : ((lostBumpMined.world.chain.holder Toy.account 4).any fun t =>
        t.hash ∈ bodies Toy.sentId lostBumpMined.world.world.log) ∧
      lostBumpMined.world.world.log.any (displaces Toy.sentId Toy.account 4) ∧
      lostBumpMined.world.world.log.any (resends Toy.sentId Toy.account 4) := by decide +kernel
  obtain ⟨hheld, hdisplaced, hresent⟩ := hrun
  obtain ⟨t, ht, hbody⟩ := (Option.any_eq_true _ _).mp hheld
  exact ⟨lostBumpMined, Toy.sentId, Toy.account, 4, t, hreach, ht, of_decide_eq_true hbody,
    List.any_eq_true.mp hdisplaced, List.any_eq_true.mp hresent⟩

end BodyRuns

end WalletKit
