import WalletKit.Runtime.Calls

/-!
# The chain behind the reads

A `Chain` is the canonical chain at one moment: its blocks and the transactions in them. It may
change between any two calls through the ports, by growing or by a reorganisation. Reads of it
fail or tell what it is at that moment.
-/
namespace WalletKit

open Machine

/-- A transaction on the chain. -/
structure Inclusion where
  account : Address
  nonce : Nat
  hash : TxHash
  block : Nat
  succeeded : Bool
  logs : List Log
  deriving DecidableEq, Repr

/-- The nonce of each transaction is the number of those its account has sent before. -/
def inOrder (txs : List Inclusion) : Bool :=
  txs.zipIdx.all fun (t, i) => t.nonce = (txs.take i).countP (·.account = t.account)

section Order

variable {txs l l' : List Inclusion} {t t' : Inclusion} {a : Address} {n : Nat}

theorem inOrder_nonce (h : inOrder (l ++ t :: l')) :
    t.nonce = l.countP (·.account = t.account) := by
  have hmem : (t, l.length) ∈ (l ++ t :: l').zipIdx := by
    simp [List.mk_mem_zipIdx_iff_getElem?]
  simpa [inOrder] using List.all_eq_true.mp h _ hmem

theorem inOrder_left (h : inOrder (l ++ l')) : inOrder l := by
  refine List.all_eq_true.mpr fun ⟨t, i⟩ hmem => ?_
  have hi : i < l.length := by
    obtain ⟨hi, -⟩ := List.getElem?_eq_some_iff.mp (List.mk_mem_zipIdx_iff_getElem?.mp hmem)
    exact hi
  have hmem' : (t, i) ∈ (l ++ l').zipIdx := by
    rw [List.mk_mem_zipIdx_iff_getElem?] at hmem ⊢
    rw [List.getElem?_append_left hi, hmem]
  have hall := List.all_eq_true.mp h _ hmem'
  simpa only [List.take_append_of_le_length hi.le] using hall

theorem nonce_lt_countP (h : inOrder txs) (ht : t ∈ txs) :
    t.nonce < txs.countP (·.account = t.account) := by
  obtain ⟨l, l', rfl⟩ := List.append_of_mem ht
  rw [inOrder_nonce h, List.countP_append, List.countP_cons_of_pos (by simp)]
  omega

/-- An account has used every nonce below the number of its transactions. -/
theorem exists_of_lt_countP (h : inOrder txs) (hn : n < txs.countP (·.account = a)) :
    ∃ t ∈ txs, t.account = a ∧ t.nonce = n := by
  induction txs using List.reverseRecOn with
  | nil => simp at hn
  | append_singleton l t ih =>
    have lower : n < l.countP (·.account = a) → ∃ t' ∈ l ++ [t], t'.account = a ∧ t'.nonce = n := by
      intro hlt
      obtain ⟨t', ht', hrest⟩ := ih (inOrder_left h) hlt
      exact ⟨t', List.mem_append_left _ ht', hrest⟩
    rw [List.countP_append, List.countP_singleton] at hn
    by_cases ha : t.account = a
    · rw [if_pos (by simpa using ha)] at hn
      rcases Nat.lt_succ_iff_lt_or_eq.mp hn with hlt | heq
      · exact lower hlt
      · exact ⟨t, by simp, ha, by rw [inOrder_nonce h, ha, heq]⟩
    · rw [if_neg (by simpa using ha), Nat.add_zero] at hn
      exact lower hn

/-- An account's transactions have different nonces. -/
theorem eq_of_same_nonce (h : inOrder txs) (ht : t ∈ txs) (ht' : t' ∈ txs)
    (ha : t'.account = t.account) (hn : t'.nonce = t.nonce) : t' = t := by
  have later : ∀ {l l' : List Inclusion} {t t' : Inclusion}, inOrder (l ++ t :: l') → t' ∈ l →
      t'.account = t.account → t'.nonce ≠ t.nonce := by
    intro l l' t t' h ht' ha hn
    have hlt := nonce_lt_countP (inOrder_left h) ht'
    rw [ha, ← inOrder_nonce h, hn] at hlt
    exact absurd hlt (lt_irrefl _)
  obtain ⟨l, l', rfl⟩ := List.append_of_mem ht
  rcases List.mem_append.mp ht' with ht' | ht'
  · exact absurd hn (later h ht' ha)
  · rcases List.mem_cons.mp ht' with rfl | ht'
    · rfl
    · obtain ⟨m, m', rfl⟩ := List.append_of_mem ht'
      rw [← List.cons_append, ← List.append_assoc] at h
      exact absurd hn.symm (later h (by simp) ha.symm)

end Order

/-- The canonical chain at one moment. -/
structure Chain where
  head : Nat
  hashes : Nat → B256
  txs : List Inclusion
  finalized : Option Nat
  bounded : ∀ t ∈ txs, t.block ≤ head
  ordered : inOrder txs
  distinct : (txs.map (·.hash)).Nodup
  finalized_le : finalized.all (· ≤ head)

namespace Chain

variable {c c' : Chain} {a : Address} {n b : Nat} {t : Inclusion} {x : TxHash}

/-- How many transactions of the account are mined. -/
def count (c : Chain) (a : Address) : Nat := c.txs.countP (·.account = a)

/-- The transaction that holds a nonce. -/
def holder (c : Chain) (a : Address) (n : Nat) : Option Inclusion :=
  c.txs.find? fun t => t.account = a && t.nonce = n

def blockHash (c : Chain) (b : Nat) : Option B256 := if b ≤ c.head then some (c.hashes b) else none

def receipt (c : Chain) (x : TxHash) : Option TransactionReceipt :=
  (c.txs.find? (·.hash = x)).map fun t =>
    ⟨some t.block, some (c.hashes t.block), t.succeeded, t.logs⟩

/-- A read of the chain fails, or tells what it is. -/
def tells (c : Chain) : PortEvent → Bool
  | ⟨.blockNumber, r⟩ => (r : Except RpcError Nat).toOption.all (· = c.head)
  | ⟨.txCount a, r⟩ => (r : Except RpcError Nat).toOption.all (· = c.count a)
  | ⟨.finalizedBlock, r⟩ => (r : Except RpcError (Option Nat)).toOption.all (· = c.finalized)
  | ⟨.receipt x, r⟩ =>
    (r : Except RpcError (Option TransactionReceipt)).toOption.all (· = c.receipt x)
  | ⟨.blockHash b, r⟩ => (r : Except RpcError (Option B256)).toOption.all (· = c.blockHash b)
  | _ => true

/-- All transactions stay where they are, and the head does not fall. -/
def Keeps (c c' : Chain) : Prop := c.txs <+: c'.txs ∧ c.head ≤ c'.head

instance (c c' : Chain) : Decidable (c.Keeps c') := inferInstanceAs (Decidable (_ ∧ _))

theorem holder_eq_some : c.holder a n = some t ↔ t ∈ c.txs ∧ t.account = a ∧ t.nonce = n := by
  constructor
  · intro h
    have hp := List.find?_some h
    simp only [Bool.and_eq_true, decide_eq_true_eq] at hp
    exact ⟨List.mem_of_find?_eq_some h, hp⟩
  · rintro ⟨ht, rfl, rfl⟩
    have hsome : (c.holder t.account t.nonce).isSome := by
      rw [holder, List.find?_isSome]
      exact ⟨t, ht, by simp⟩
    obtain ⟨t', ht'⟩ := Option.isSome_iff_exists.mp hsome
    have hp := List.find?_some ht'
    simp only [Bool.and_eq_true, decide_eq_true_eq] at hp
    rw [ht', eq_of_same_nonce c.ordered ht (List.mem_of_find?_eq_some ht') hp.1 hp.2]

/-- A nonce is consumed when some transaction holds it. -/
theorem exists_holder_iff : (∃ t, c.holder a n = some t) ↔ n < c.count a := by
  constructor
  · rintro ⟨t, ht⟩
    obtain ⟨hmem, rfl, rfl⟩ := holder_eq_some.mp ht
    exact nonce_lt_countP c.ordered hmem
  · intro hn
    obtain ⟨t, hmem, ha, hn⟩ := exists_of_lt_countP c.ordered hn
    exact ⟨t, holder_eq_some.mpr ⟨hmem, ha, hn⟩⟩

end Chain

/-- The wallet's world on a chain. -/
structure Scene where
  world : World
  chain : Chain

namespace Client

variable [Alloy] {C α : Type}

/-- The calls of a client on a chain. Each call through a port meets the chain of its own
moment, where `env` says what may become of the chain and which answers are given to whom. -/
def onChain (cl : Client C α) (env : Pool ports Scene C α → Nat → Chain → PortEvent → Prop) :
    System ports Scene C α where
  Choice := Chain
  body := cl.body
  admits _ _ := True
  allow p i c o r := p.world.world.can ⟨o, r⟩ ∧ c.tells ⟨o, r⟩ ∧ env p i c ⟨o, r⟩
  next w c o r := ⟨w.world.apply ⟨o, r⟩, c⟩

theorem onChain_runs (cl : Client C α)
    (env : Pool ports Scene C α → Nat → Chain → PortEvent → Prop) :
    cl.Runs (cl.onChain env) Scene.world where
  can ha := ha.1
  next _ := rfl
  body := rfl

instance (cl : Client C α) (env : Pool ports Scene C α → Nat → Chain → PortEvent → Prop)
    [henv : ∀ p i c e, Decidable (env p i c e)] (p : Pool ports Scene C α) (i : Nat)
    (c : (cl.onChain env).Choice) (o : ports.Op) (r : ports.Reply o) :
    Decidable ((cl.onChain env).allow p i c o r) :=
  have := henv p i c ⟨o, r⟩
  inferInstanceAs (Decidable (_ ∧ _ ∧ env p i c ⟨o, r⟩))

instance (cl : Client C α) (env : Pool ports Scene C α → Nat → Chain → PortEvent → Prop)
    (p : Pool ports Scene C α) (c : C) : Decidable ((cl.onChain env).admits p c) :=
  inferInstanceAs (Decidable True)

/-- Nothing has been called yet, and the chain is this one. -/
def startOn (c : Chain) : Pool ports Scene C α := ⟨⟨.initial, c⟩, []⟩

omit [Alloy] in
theorem fresh_startOn (c : Chain) : Backed.Fresh Scene.world (startOn c : Pool ports Scene C α) :=
  ⟨rfl, rfl⟩

end Client

end WalletKit
