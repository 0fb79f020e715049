import WalletKit.Runtime.Registry
import WalletKit.Runtime.ToyChain
import WalletKit.Runtime.Truth

/-!
# How deep a displacement is buried

A handle whose nonce is consumed by another transaction waits from the head its cycle has read.
That head was read before the count of mined transactions, and says nothing about the block of
the other transaction: a block that is mined between the two reads makes the clock start one
block early. As long as the holder of the nonce stays where it is and the chain does not grow
between these two reads, a handle that is settled as displaced is so as deep as required.
-/
namespace WalletKit

open Machine

section Burial

/-- The nonce is held by a transaction in this block or an earlier one. -/
def Buried (c : Chain) (a : Address) (n b : Nat) : Prop :=
  ∃ t, c.holder a n = some t ∧ t.block ≤ b

theorem Buried.mono {c c' : Chain} {a : Address} {n b : Nat} (h : Buried c a n b)
    (hk : c.keepsHolder c' a n) : Buried c' a n b := by
  obtain ⟨t, ht, hb⟩ := h
  exact ⟨t, Chain.keepsHolder_holder hk ht, hb⟩

/-- This head was read, and right after it this count of mined transactions. -/
def HeadThenCount (past : List PortEvent) (a : Address) (latest mined : Nat) : Prop :=
  ∃ before after, past = before ++
    [ev .blockNumber (.ok latest), ev (.txCount a) (.ok mined)] ++ after

theorem InCycle.headThenCount {past t : List PortEvent} {e : AccountExecutor} {cycle : Cycle}
    (h : InCycle past e cycle) :
    HeadThenCount (past ++ t) e.account cycle.view.latest cycle.minedNonce := by
  obtain ⟨before, last, tag, after, rfl, -⟩ := h
  exact ⟨before, [ev (.lastLatestLoad e.id) last, ev .finalizedBlock (.ok tag),
    ev (.lastLatestStore e.id cycle.view.latest) ()] ++ after ++ t, by simp [cycleReads]⟩

theorem headThenCount_snoc {past : List PortEvent} {x : PortEvent} {a : Address}
    {latest mined : Nat} (h : HeadThenCount (past ++ [x]) a latest mined) :
    HeadThenCount past a latest mined ∨ x = ev (.txCount a) (.ok mined) ∧
      past.getLast? = some (ev .blockNumber (.ok latest)) := by
  obtain ⟨before, after, hpast⟩ := h
  rcases List.eq_nil_or_concat after with rfl | ⟨after, y, rfl⟩
  · have hsplit : past ++ [x] = (before ++ [ev .blockNumber (.ok latest)]) ++
        [ev (.txCount a) (.ok mined)] := by simpa using hpast
    obtain ⟨rfl, he⟩ := List.append_inj' hsplit rfl
    cases he
    exact .inr ⟨rfl, List.getLast?_concat⟩
  · rw [List.concat_eq_append, ← List.append_assoc] at hpast
    exact .inl ⟨before, after, (List.append_inj' hpast rfl).1⟩

/-- If the nonce was mined when a call read the head and the count, it is held in a block up to that
head. -/
def CountsBuried (a : Address) (n : Nat) (w : Scene) (past : List PortEvent) : Prop :=
  ∀ latest mined, HeadThenCount past a latest mined →
    latest ≤ w.chain.head ∧ (n < mined → Buried w.chain a n latest)

/-- What waits on this nonce for its displacement to be final is displaced, since the block it waits
from. -/
def WaitsBuried (a : Address) (n : Nat) (w : Scene) (g : TxHandle) : Prop :=
  g.account = a → g.nonce = n → ∀ s, g.status = .replacing s → Buried w.chain a n s

variable [Alloy]

/-- The clock of a displaced handle starts at the head of the cycle that found its nonce
consumed, or is that of the record it was computed from. -/
theorem PutOwes.replacing {role : Role} {past : List PortEvent} {h' : TxHandle} {site : PutSite}
    (howes : PutOwes role past h' site) {s : Nat} (hs : h'.status = .replacing s) :
    (∃ g, site.basis = some g ∧ g.status = .replacing s) ∨
      ∃ (e : AccountExecutor) (g : TxHandle) (mined : Nat),
        SeenPending past e.account g ∧ SameRecord g h' ∧
        HeadThenCount past e.account s mined ∧ h'.nonce < mined := by
  cases hb : site.basis with
  | none =>
    cases site with
    | wal =>
      obtain ⟨m, -, ⟨_, _, _, _, _, _, _, _, _, -, -, -, -, rfl⟩, -⟩ := howes
      cases hs
    | cancelNew => obtain ⟨m, approval, now, signed, -, rfl, -⟩ := howes; cases hs
    | task => obtain ⟨-, intent, nonce, now, context, rfl⟩ := howes; cases hs
    | _ => cases hb
  | some g =>
    have hsame := howes.sameRecord hb
    cases id (howes.version hb) with
    | sent | rejected | included | relayFailed => cases hs
    | marked | unmarked | bumped => exact .inl ⟨g, rfl, hs⟩
    | advanced next =>
      obtain ⟨e, -, before, scan, cycle, event, next, rfl, hcycle, hpending, -, hscan, hnext, he⟩ :=
        howes
      rw [he] at hs
      obtain ⟨-, -, ⟨-, rfl, -⟩ | ⟨b, bh, o, -, ⟨-, rfl⟩ | ⟨-, rfl⟩⟩ |
        ⟨rfl, ⟨l, -, -, rfl⟩ | ⟨-, rfl⟩⟩⟩ := transition_cases hnext
      · cases hs
      · cases o <;> cases hs
      · cases hs
      · cases hcancelled : g.cancelled <;>
          simp [AccountExecutor.settleStatus, hcancelled] at hs
      · cases hs
        cases hscan with
        | consumed hlt =>
          obtain ⟨hs, hread, hmem⟩ := hpending.seen
          exact .inr ⟨e, g, cycle.minedNonce, ⟨hs, List.mem_append_left _ hread, hmem⟩, hsame,
            hcycle.headThenCount, hlt⟩

omit [Alloy] in
/-- A handle is settled as displaced when the clock it waits for has run. -/
theorem waiting_of_displaced {g : TxHandle} {event : ChainEvent} {cycle : Cycle} {next : TxStatus}
    (hnext : transition g.status event cycle.view cycle.finality = some next)
    (hs : AccountExecutor.settleStatus g next = .replaced ∨
      AccountExecutor.settleStatus g next = .dropped) :
    ∃ l, g.status = .replacing l ∧ isFinal l cycle.view cycle.finality := by
  obtain ⟨-, -, ⟨-, rfl, -⟩ | ⟨b, bh, o, -, ⟨-, rfl⟩ | ⟨-, rfl⟩⟩ |
    ⟨-, ⟨l, hl, hf, -⟩ | ⟨-, rfl⟩⟩⟩ :=
    transition_cases hnext
  · simp [AccountExecutor.settleStatus] at hs
  · cases o <;> simp [AccountExecutor.settleStatus, Outcome.settled] at hs
  · simp [AccountExecutor.settleStatus] at hs
  · exact ⟨l, hl, hf⟩
  · simp [AccountExecutor.settleStatus] at hs

omit [Alloy] in
/-- In a cycle without a finalized tag, final means deep enough below the head it has read. -/
theorem depth_of_isFinal {before scan : List PortEvent} {e : AccountExecutor} {cycle : Cycle}
    (hcycle : InCycle before e cycle)
    (htag : ∀ tag, ev .finalizedBlock (.ok tag) ∈ before ++ scan → tag = none) {b : Nat}
    (hf : isFinal b cycle.view cycle.finality) :
    e.requiredConfirmations ≤ cycle.view.latest - b + 1 := by
  obtain ⟨pre, last, tag, after, rfl, -, hcfg, -⟩ := hcycle
  obtain rfl := htag tag (by simp [cycleReads])
  simpa [isFinal, hcfg] using hf

end Burial

section Law

variable [Alloy]

/-- Between the reads of the head and of the count the chain has not grown. -/
def countAtHead (past : List PortEvent) (c : Chain) : PortEvent → Bool
  | ⟨.txCount _, _⟩ =>
    match past.getLast? with
    | some ⟨.blockNumber, r⟩ => (r : Except RpcError Nat).toOption.all (· = c.head)
    | _ => true
  | _ => true

/-- Calls in any interleaving on a chain that counts depth, keeps the holder of this nonce, does not
shrink, and does not grow between the reads of the head and of the count. -/
abbrev steadyCalls (a : Address) (n : Nat) : System ports Scene Call CallResult :=
  Call.client.onChain fun p i c e => p.world.chain.keepsHolder c a n ∧
    p.world.chain.head ≤ c.head ∧ c.finalized = none ∧
      p.threads[i]?.all fun th => countAtHead th.past c e

variable {c₀ : Chain} {a : Address} {n : Nat} {p : Pool ports Scene Call CallResult}

theorem steadyCalls_runs : Call.client.Runs (steadyCalls a n) Scene.world := Client.onChain_runs _ _

theorem counts_buried (h : (steadyCalls a n).Reaches (Client.startOn c₀) p) :
    ∀ th ∈ p.threads, CountsBuried a n p.world th.past := by
  refine h.gathered (K := CountsBuried a n) rfl (fun w latest mined hc => ?_)
    (fun ha hc latest mined hread => ?_) fun {p i th c o r} _ hi ha hc latest mined hread => ?_
  · obtain ⟨before, after, hnil⟩ := hc
    simp at hnil
  · obtain ⟨hhead, hburied⟩ := hc latest mined hread
    exact ⟨hhead.trans ha.2.2.2.1, fun hn => (hburied hn).mono ha.2.2.1⟩
  · rcases headThenCount_snoc hread with hread | ⟨he, hlast⟩
    · obtain ⟨hhead, hburied⟩ := hc latest mined hread
      exact ⟨hhead.trans ha.2.2.2.1, fun hn => (hburied hn).mono ha.2.2.1⟩
    · -- the count is that of the chain whose head was read
      cases he
      obtain ⟨-, htells, -, -, -, hsame⟩ := ha
      have hcount : mined = Chain.count c a := by
        simpa [Chain.tells, Except.toOption] using htells
      have hhead : latest = Chain.head c := by
        simpa [hi, countAtHead, hlast, ev, Except.toOption] using hsame
      subst hhead
      refine ⟨le_refl _, fun hn => ?_⟩
      obtain ⟨t, ht⟩ := Chain.exists_holder_iff.mpr (hcount ▸ hn)
      exact ⟨t, ht, Chain.bounded c t (Chain.holder_eq_some.mp ht).1⟩

theorem waits_buried (h : (steadyCalls a n).Reaches (Client.startOn c₀) p) :
    ∀ th ∈ p.threads, ∀ g, Known th.past g → WaitsBuried a n p.world g := by
  refine (steadyCalls_runs.handles_in (P := WaitsBuried a n) (Client.fresh_startOn c₀)
    (fun ha hg haccount hnonce s hs => (hg haccount hnonce s hs).mono ha.2.2.1)
    (fun {p i th c h' site k role} hreach hth hprog ha _ howes hknown haccount hnonce s hs => ?_)
    h).2
  refine Buried.mono ?_ ha.2.2.1
  rcases howes.replacing hs with ⟨g, hb, hgs⟩ | ⟨e, g, mined, hseen, hsame, hread, hlt⟩
  · have hsame := howes.sameRecord hb
    exact hknown g (howes.known hb) (hsame.account ▸ haccount) (hsame.nonce ▸ hnonce) s hgs
  · have hread' : HeadThenCount th.past a s mined := by
      rwa [← haccount, hsame.account,
        (steadyCalls_runs.pending_live (Client.fresh_startOn c₀) hreach hth hseen).1]
    exact (counts_buried hreach th hth _ _ hread').2 (hnonce ▸ hlt)

theorem no_tag (h : (steadyCalls a n).Reaches (Client.startOn c₀) p) {th : CallThread}
    (hth : th ∈ p.threads) (tag : Option Nat) (hread : ev .finalizedBlock (.ok tag) ∈ th.past) :
    tag = none := by
  refine h.answered (K := fun _ e => ∀ tag, e = ev .finalizedBlock (.ok tag) → tag = none)
    (fun {p i th c o r} _ ha tag he => ?_) rfl th hth _ hread tag rfl
  cases he
  obtain ⟨-, htells, -, -, hnone, -⟩ := ha
  have htag : tag = Chain.finalized c := by simpa [Chain.tells, Except.toOption] using htells
  rw [htag, hnone]

/-- **Replaced means buried**: whenever a handle is about to be settled as replaced or dropped,
the transaction that then holds its nonce has the required number of confirmations. -/
theorem replaced_is_buried {h' g : TxHandle}
    (h : (steadyCalls h'.account h'.nonce).Reaches (Client.startOn c₀) p) {i : Nat}
    {th : CallThread} (hi : p.threads[i]? = some th)
    {k : Except StateStoreError Unit → Io CallResult}
    (hprog : th.prog = .call (.putHandle h' (.advance g)) k)
    (hs : h'.status = .replaced ∨ h'.status = .dropped) {c : Chain}
    {r : Except StateStoreError Unit}
    (ha : (steadyCalls h'.account h'.nonce).allow p i c (.putHandle h' (.advance g)) r) :
    ∃ e t, th.call.role = .executor e ∧ c.holder h'.account h'.nonce = some t ∧
      e.requiredConfirmations ≤ c.head - t.block + 1 := by
  have hth := List.mem_of_getElem? hi
  obtain ⟨role, hrole, e, rfl, before, scan, cycle, event, next, hpast, hcycle, hpending, -, -,
    hnext, hadvanced⟩ := steadyCalls_runs.owes (Client.fresh_startOn c₀) h hth hprog
  have haccount : h'.account = g.account := by rw [hadvanced]
  have hnonce : h'.nonce = g.nonce := by rw [hadvanced]
  obtain ⟨l, hl, hfinal⟩ := waiting_of_displaced hnext (by rwa [hadvanced] at hs)
  have hseen : SeenPending th.past e.account g := by
    obtain ⟨hs, hread, hmem⟩ := hpending.seen
    exact ⟨hs, hpast ▸ List.mem_append_left _ hread, hmem⟩
  obtain ⟨t, ht, hb⟩ :=
    (waits_buried h th hth g hseen.known haccount.symm hnonce.symm l hl).mono ha.2.2.1
  have hread : HeadThenCount th.past h'.account cycle.view.latest cycle.minedNonce := by
    rw [haccount, (steadyCalls_runs.pending_live (Client.fresh_startOn c₀) h hth hseen).1, hpast]
    exact hcycle.headThenCount
  have hhead : cycle.view.latest ≤ c.head :=
    (counts_buried h th hth _ _ hread).1.trans ha.2.2.2.1
  have hdepth : e.requiredConfirmations ≤ cycle.view.latest - l + 1 :=
    depth_of_isFinal hcycle (fun tag htag => no_tag h hth tag (hpast ▸ htag)) hfinal
  exact ⟨e, t, hrole.symm, ht, by omega⟩

end Law

section BurialRuns

attribute [local instance] Toy.alloy

/-- Nothing is stored as displaced. -/
def untilDisplaced (c : Chain) (w : Scene) : (o : Op) → Option o.Reply
  | .putHandle h _ =>
    if h.status = .replaced ∨ h.status = .dropped then none else some (.ok ())
  | o => World.serve c.asked w.world o

/-- A send, a tick that meets `first` for the head it reads and `next` afterwards, and a tick on
`last`. -/
def displacing {S : System ports Scene Call CallResult} (x : Chain → S.Choice)
    (first next last : Chain) : List (System.Action S) :=
  [.spawn (.send Toy.manager Toy.intent .default none),
    .moves 0 40 (x Toy.before) (untilDisplaced Toy.before),
    .spawn (.tick Toy.executor), .moves 1 3 (x first) (untilDisplaced first),
    .moves 1 40 (x next) (untilDisplaced next),
    .spawn (.tick Toy.executor), .moves 2 40 (x last) (untilDisplaced last)]

/-- The displacement that call `i` is about to store, with its handle. -/
def displacement? (p : Pool ports Scene Call CallResult) (i : Nat) : Option (TxHandle × TxHandle) :=
  match p.next? i with
  | some (.putHandle h (.advance g)) =>
    if h.status = .replaced ∨ h.status = .dropped then some (h, g) else none
  | _ => none

theorem exists_of_displacement? {p : Pool ports Scene Call CallResult} {i : Nat} {h g : TxHandle}
    (hd : displacement? p i = some (h, g)) : ∃ th k, p.threads[i]? = some th ∧
      th.prog = .call (.putHandle h (.advance g)) k ∧
      (h.status = .replaced ∨ h.status = .dropped) := by
  unfold displacement? at hd
  split at hd
  · rename_i h' g' hnext
    split at hd
    · cases hd
      obtain ⟨th, hi, hprog⟩ := Option.bind_eq_some_iff.mp hnext
      obtain ⟨k, hprog⟩ := Prog.exists_call_of_next? hprog
      exact ⟨th, k, hi, hprog, ‹_›⟩
    · cases hd
  · cases hd

/-- The other transaction is mined before the cycle reads the head. -/
def buriedSend : Pool ports Scene Call CallResult :=
  System.played (S := steadyCalls Toy.account 4) (Client.startOn Toy.before)
    (displacing id (Toy.after 11 Toy.le_eleven) (Toy.after 11 Toy.le_eleven)
      (Toy.after 13 Toy.le_thirteen))

theorem replaced_is_buried_displaced : ∃ th h' g k e t, buriedSend.threads[2]? = some th ∧
    th.prog = .call (.putHandle h' (.advance g)) k ∧ h'.status = .replaced ∧
    th.call.role = .executor e ∧ buriedSend.world.chain.holder h'.account h'.nonce = some t ∧
    e.requiredConfirmations ≤ buriedSend.world.chain.head - t.block + 1 := by
  have hreach : (steadyCalls Toy.account 4).Reaches (Client.startOn Toy.before) buriedSend :=
    System.reaches_played _ _
  have hnext : (displacement? buriedSend 2).any fun d =>
      d.1.status = .replaced ∧ d.1.account = Toy.account ∧ d.1.nonce = 4 := by decide +kernel
  have hnone : buriedSend.world.chain.finalized = none := by decide +kernel
  obtain ⟨⟨h', g⟩, hd, hs⟩ := (Option.any_eq_true _ _).mp hnext
  obtain ⟨hs, haccount, hnonce⟩ := of_decide_eq_true hs
  obtain ⟨th, k, hi, hprog, hstatus⟩ := exists_of_displacement? hd
  have ha : (steadyCalls h'.account h'.nonce).allow buriedSend 2 buriedSend.world.chain
      (.putHandle h' (.advance g)) (.ok ()) :=
    ⟨rfl, rfl, (Option.all_eq_true _ _).mpr fun _ ht => decide_eq_true ht, le_refl _, hnone,
      by simp [hi, countAtHead]⟩
  rw [← haccount, ← hnonce] at hreach
  obtain ⟨e, t, hrest⟩ := replaced_is_buried hreach hi hprog hstatus ha
  exact ⟨th, h', g, k, e, t, hi, hprog, hs, hrest⟩

/-- Calls in any interleaving on a chain that counts depth and keeps its transactions. -/
abbrev growingCalls : System ports Scene Call CallResult :=
  Call.client.onChain fun p _ c _ => p.world.chain.Keeps c ∧ c.finalized = none

/-- The other transaction is mined between the reads of the head and of the count. -/
def shallowSend : Pool ports Scene Call CallResult :=
  System.played (S := growingCalls) (Client.startOn Toy.before)
    (displacing id Toy.before (Toy.after 11 Toy.le_eleven) (Toy.after 12 (by decide)))

/-- Call `i` works for an executor that requires more confirmations than the holder of this nonce
has. -/
def isShallow (p : Pool ports Scene Call CallResult) (i : Nat) (h : TxHandle) : Bool :=
  p.threads[i]?.any fun th =>
    match th.call.role, p.world.chain.holder h.account h.nonce with
    | .executor e, some t => p.world.chain.head - t.block + 1 < e.requiredConfirmations
    | _, _ => false

theorem exists_of_isShallow {p : Pool ports Scene Call CallResult} {i : Nat} {h : TxHandle}
    {th : CallThread} (hi : p.threads[i]? = some th) (hs : isShallow p i h) :
    ∃ e t, th.call.role = .executor e ∧ p.world.chain.holder h.account h.nonce = some t ∧
      p.world.chain.head - t.block + 1 < e.requiredConfirmations := by
  rw [isShallow, hi, Option.any_some] at hs
  split at hs
  · exact ⟨_, _, ‹_›, ‹_›, of_decide_eq_true hs⟩
  · cases hs

theorem block_between_reads_settles_early : ∃ p i th h' g k e t,
    growingCalls.Reaches (Client.startOn Toy.before) p ∧ p.threads[i]? = some th ∧
    th.prog = .call (.putHandle h' (.advance g)) k ∧ h'.status = .replaced ∧
    growingCalls.allow p i p.world.chain (.putHandle h' (.advance g)) (.ok ()) ∧
    th.call.role = .executor e ∧ p.world.chain.holder h'.account h'.nonce = some t ∧
    p.world.chain.head - t.block + 1 < e.requiredConfirmations := by
  have hreach : growingCalls.Reaches (Client.startOn Toy.before) shallowSend :=
    System.reaches_played _ _
  have hnext : (displacement? shallowSend 2).any fun d =>
      d.1.status = .replaced && isShallow shallowSend 2 d.1 := by decide +kernel
  have hnone : shallowSend.world.chain.finalized = none := by decide +kernel
  obtain ⟨⟨h', g⟩, hd, hs⟩ := (Option.any_eq_true _ _).mp hnext
  obtain ⟨hs, hshallow⟩ := Bool.and_eq_true_iff.mp hs
  obtain ⟨th, k, hi, hprog, -⟩ := exists_of_displacement? hd
  obtain ⟨e, t, hrest⟩ := exists_of_isShallow hi hshallow
  exact ⟨shallowSend, 2, th, h', g, k, e, t, hreach, hi, hprog, of_decide_eq_true hs,
    ⟨rfl, rfl, ⟨List.prefix_refl _, le_refl _⟩, hnone⟩, hrest⟩

end BurialRuns

end WalletKit
