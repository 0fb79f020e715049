import WalletKit.Runtime.Chain
import WalletKit.Runtime.Toy

/-!
# A small chain to run the wallet on

The account has four transactions in the first block. The chain then has, or has not, a fifth
one: that of a send, of its cancel or a foreign one.
-/
namespace WalletKit

attribute [local instance] Toy.alloy

/-- What a chain tells; the other ports are calm. -/
def Chain.asked (c : Chain) : (o : Op) → Option o.Reply
  | .blockNumber => some (.ok c.head)
  | .txCount a => some (.ok (c.count a))
  | .finalizedBlock => some (.ok c.finalized)
  | .receipt x => some (.ok (c.receipt x))
  | .blockHash b => some (.ok (c.blockHash b))
  | o => Toy.calm o

namespace Toy

/-- The first four transactions of the account. -/
def minedBefore : List Inclusion :=
  [⟨account, 0, 100, 1, true, []⟩, ⟨account, 1, 101, 1, true, []⟩,
    ⟨account, 2, 102, 1, true, []⟩, ⟨account, 3, 103, 1, true, []⟩]

/-- The chain with these transactions alone. -/
def before : Chain :=
  ⟨10, fun _ => 1, minedBefore, none, by decide, by decide, by decide, by decide⟩

theorem minedBefore_bounded {x : TxHash} {head : Nat} (h : 11 ≤ head) :
    ∀ t ∈ minedBefore ++ [⟨account, 4, x, 11, true, []⟩], t.block ≤ head := by
  simp [minedBefore]
  omega

theorem minedBefore_distinct {x : TxHash} (hx : x ∉ minedBefore.map (·.hash)) :
    ((minedBefore ++ [⟨account, 4, x, 11, true, []⟩] : List Inclusion).map (·.hash)).Nodup := by
  rw [List.map_append, List.nodup_append]
  exact ⟨by decide, by simp, by simpa using hx⟩

theorem unfinalized (head : Nat) : (none : Option Nat).all (· ≤ head) := rfl

/-- At this head, with a transaction of this hash at the next nonce in block 11. -/
def mining (x : TxHash) (hx : x ∉ minedBefore.map (·.hash)) (head : Nat) (h : 11 ≤ head) :
    Chain where
  head := head
  hashes _ := 1
  txs := minedBefore ++ [⟨account, 4, x, 11, true, []⟩]
  finalized := none
  bounded := minedBefore_bounded h
  ordered := rfl
  distinct := minedBefore_distinct hx
  finalized_le := unfinalized head

/-- At this head, with a foreign transaction there. -/
def after (head : Nat) (h : 11 ≤ head) : Chain := mining 200 (by decide) head h

theorem le_eleven : 11 ≤ 11 := le_rfl

theorem le_thirteen : 11 ≤ 13 := by decide

theorem le_twenty : 11 ≤ 20 := by decide

theorem sentBody_unmined : sentBody.hash ∉ minedBefore.map (·.hash) := by decide +kernel

theorem cancelBody_unmined : cancelBody.hash ∉ minedBefore.map (·.hash) := by decide +kernel

end Toy

end WalletKit
