import Mathlib.Data.Set.Card
import WalletKit.Core.Ports

/-!
# The gas oracle over an RPC

`RpcGasOracle` prices a replacement by geth's rule and alloy's coverage of the base fee, and
refuses to go past its ceiling. Its arithmetic is that of `u128`: products and sums saturate, but
the increment that forces a real increase is a plain one. What it computes, away from the ends of
`u128`, is the least price that a node would accept and that stays includable.
-/
namespace WalletKit

/-- The largest `u128`. -/
def maxU128 : Nat := 2 ^ 128 - 1

def saturatingMulU128 (a b : Nat) : Nat := min (a * b) maxU128

def saturatingAddU128 (a b : Nat) : Nat := min (a + b) maxU128

/-- `n + 1` on `u128`: at the end it panics where the build checks for overflow, and wraps around
where it does not. -/
def incrementU128 (checks : Bool) (n : Nat) : Option Nat :=
  if n < maxU128 then some (n + 1) else if checks then none else some 0

/-- The oracle, built over an RPC. -/
structure RpcGasOracle where
  ceilingMaxFee : Nat

namespace RpcGasOracle

/-- geth's minimal increase of each fee for a replacement, in percent. -/
def priceBumpPct : Nat := 10

/-- alloy's factor on the base fee. -/
def baseFeeMultiplier : Nat := 2

/-- The least replacement of one fee. -/
def rbf (checks : Bool) (old : Nat) : Option Nat := do
  let next ← incrementU128 checks old
  return max ((saturatingMulU128 old (100 + priceBumpPct) + 99) / 100) next

/-- Price a replacement, with the answer of the node for its base fee. A panic is `none`. -/
def bump (checks : Bool) (o : RpcGasOracle) (prev : Eip1559Estimation)
    (baseFee : Except RpcError Nat) : Option (Except GasOracleError Eip1559Estimation) := do
  let tip ← rbf checks prev.maxPriorityFeePerGas
  let rbfCap ← rbf checks prev.maxFeePerGas
  match baseFee with
  | .error e => return .error (.rpc e)
  | .ok base =>
    let coverage := saturatingAddU128 (saturatingMulU128 base baseFeeMultiplier) tip
    let maxFee := max rbfCap coverage
    if o.ceilingMaxFee < maxFee then return .error (.ceilingExceeded o.ceilingMaxFee maxFee)
    else return .ok ⟨maxFee, tip⟩

end RpcGasOracle

/-- A price that replaces `prev`: a real increase by at least a tenth in both fields, with the
base fee covered. -/
structure Outbids (prev : Eip1559Estimation) (base : Nat) (next : Eip1559Estimation) : Prop where
  maxFee_lt : prev.maxFeePerGas < next.maxFeePerGas
  tip_lt : prev.maxPriorityFeePerGas < next.maxPriorityFeePerGas
  maxFee_tenth : 110 * prev.maxFeePerGas ≤ 100 * next.maxFeePerGas
  tip_tenth : 110 * prev.maxPriorityFeePerGas ≤ 100 * next.maxPriorityFeePerGas
  covered : 2 * base + next.maxPriorityFeePerGas ≤ next.maxFeePerGas

/-- The componentwise least such price. -/
structure LeastReplacement (prev : Eip1559Estimation) (base : Nat) (next : Eip1559Estimation) :
    Prop extends Outbids prev base next where
  maxFee_le : ∀ n, Outbids prev base n → next.maxFeePerGas ≤ n.maxFeePerGas
  tip_le : ∀ n, Outbids prev base n → next.maxPriorityFeePerGas ≤ n.maxPriorityFeePerGas

/-- The products and sums of a bump fit in `u128`. -/
structure FitsU128 (prev : Eip1559Estimation) (base : Nat) : Prop where
  maxFee : 110 * prev.maxFeePerGas ≤ maxU128
  tip : 110 * prev.maxPriorityFeePerGas ≤ maxU128
  coverage : 2 * base + 2 * prev.maxPriorityFeePerGas + 2 ≤ maxU128

section Step

variable {checks : Bool} {o : RpcGasOracle} {prev next first last : Eip1559Estimation}
  {base old new : Nat}

theorem rbf_eq (h : 110 * old ≤ maxU128) :
    RpcGasOracle.rbf checks old = some (max ((110 * old + 99) / 100) (old + 1)) := by
  have hinc : incrementU128 checks old = some (old + 1) := if_pos (by unfold maxU128 at *; omega)
  have hmul : saturatingMulU128 old (100 + RpcGasOracle.priceBumpPct) = 110 * old := by
    rw [saturatingMulU128, RpcGasOracle.priceBumpPct, Nat.mul_comm]
    exact min_eq_left h
  simp [RpcGasOracle.rbf, hinc, hmul]

/-- What the oracle computes where nothing saturates. -/
def leastReplacement (prev : Eip1559Estimation) (base : Nat) : Eip1559Estimation :=
  let tip := max ((110 * prev.maxPriorityFeePerGas + 99) / 100) (prev.maxPriorityFeePerGas + 1)
  let cap := max ((110 * prev.maxFeePerGas + 99) / 100) (prev.maxFeePerGas + 1)
  ⟨max cap (2 * base + tip), tip⟩

theorem leastReplacement_spec (prev : Eip1559Estimation) (base : Nat) :
    LeastReplacement prev base (leastReplacement prev base) := by
  refine ⟨⟨?_, ?_, ?_, ?_, ?_⟩, fun n hn => ?_, fun n hn => ?_⟩
  -- each bound is one of the terms of the maxima
  · simp only [leastReplacement]; omega
  · simp only [leastReplacement]; omega
  · simp only [leastReplacement]; omega
  · simp only [leastReplacement]; omega
  · exact le_max_right _ _
  · obtain ⟨h1, h2, h3, h4, h5⟩ := hn
    simp only [leastReplacement]
    omega
  · obtain ⟨h1, h2, h3, h4, h5⟩ := hn
    simp only [leastReplacement]
    omega

theorem bump_eq (h : FitsU128 prev base) :
    o.bump checks prev (.ok base) = some (
      if (leastReplacement prev base).maxFeePerGas ≤ o.ceilingMaxFee then
        .ok (leastReplacement prev base)
      else .error (.ceilingExceeded o.ceilingMaxFee
        (leastReplacement prev base).maxFeePerGas)) := by
  have htip := h.tip
  have hcoverage := h.coverage
  set tip := max ((110 * prev.maxPriorityFeePerGas + 99) / 100) (prev.maxPriorityFeePerGas + 1)
    with ht
  have hsum : saturatingAddU128 (saturatingMulU128 base RpcGasOracle.baseFeeMultiplier) tip =
      2 * base + tip := by
    unfold saturatingAddU128 saturatingMulU128 RpcGasOracle.baseFeeMultiplier
    omega
  unfold RpcGasOracle.bump
  simp only [rbf_eq h.tip, rbf_eq h.maxFee, ← ht, hsum, Option.bind_eq_bind, Option.bind_some,
    Option.pure_def]
  split
  · rw [if_neg (not_le.mpr ‹_›)]
    rfl
  · rw [if_pos (not_lt.mp ‹_›)]
    rfl

theorem bump_ok (h : FitsU128 prev base) (hb : o.bump checks prev (.ok base) = some (.ok next)) :
    LeastReplacement prev base next ∧ next.maxFeePerGas ≤ o.ceilingMaxFee := by
  rw [bump_eq h] at hb
  split at hb
  · rename_i hle
    cases hb
    exact ⟨leastReplacement_spec prev base, hle⟩
  · cases hb

/-- A replacement is a real increase, unless the increment wraps around. -/
theorem rbf_lt (h : RpcGasOracle.rbf checks old = some new) (hfits : checks ∨ old < maxU128) :
    old < new ∧ new ≤ maxU128 := by
  unfold RpcGasOracle.rbf at h
  have hlt : old < maxU128 := by
    by_contra hge
    rcases hfits with hchecks | hlt
    · simp [incrementU128, hge, hchecks] at h
    · exact hge hlt
  have hnew : max ((saturatingMulU128 old (100 + RpcGasOracle.priceBumpPct) + 99) / 100) (old + 1) =
      new := by simpa [incrementU128, hlt] using h
  have hmul : saturatingMulU128 old (100 + RpcGasOracle.priceBumpPct) ≤ maxU128 := min_le_right _ _
  omega

/-- A bump that goes through raises both fees and stays within the ceiling, unless an increment
wraps around. -/
theorem bump_rises {baseFee : Except RpcError Nat}
    (hb : o.bump checks prev baseFee = some (.ok next))
    (hfits : checks ∨ prev.maxFeePerGas < maxU128 ∧ prev.maxPriorityFeePerGas < maxU128) :
    prev.maxFeePerGas < next.maxFeePerGas ∧
      prev.maxPriorityFeePerGas < next.maxPriorityFeePerGas ∧
      next.maxFeePerGas ≤ o.ceilingMaxFee ∧ next.maxPriorityFeePerGas ≤ o.ceilingMaxFee := by
  unfold RpcGasOracle.bump at hb
  simp only [Option.bind_eq_bind, Option.bind_eq_some_iff] at hb
  obtain ⟨tip, htip, cap, hcap, hb⟩ := hb
  obtain ⟨htip, htipMax⟩ := rbf_lt htip (hfits.imp_right And.right)
  obtain ⟨hcap, -⟩ := rbf_lt hcap (hfits.imp_right And.left)
  cases baseFee with
  | error e => cases hb
  | ok base =>
    have hcovered : tip ≤ saturatingAddU128
        (saturatingMulU128 base RpcGasOracle.baseFeeMultiplier) tip := by
      unfold saturatingAddU128
      omega
    simp only at hb
    split at hb
    · cases hb
    · rename_i hceiling
      cases hb
      refine ⟨lt_of_lt_of_le hcap (le_max_left _ _), htip, not_lt.mp hceiling, ?_⟩
      exact hcovered.trans ((le_max_right _ _).trans (not_lt.mp hceiling))

end Step

section Ladder

variable {checks : Bool} {o : RpcGasOracle} {first last : Eip1559Estimation} {k : Nat}

/-- `k` bumps in a row that go through, whatever the base fees are. -/
inductive Bumps (checks : Bool) (o : RpcGasOracle) :
    Nat → Eip1559Estimation → Eip1559Estimation → Prop where
  | none {fees : Eip1559Estimation} : Bumps checks o 0 fees fees
  | more {k : Nat} {first fees next : Eip1559Estimation} {base : Nat} :
      Bumps checks o k first fees → FitsU128 fees base →
      o.bump checks fees (.ok base) = some (.ok next) → Bumps checks o (k + 1) first next

/-- A tenth more at each step. -/
theorem Bumps.growth (h : Bumps checks o k first last) :
    11 ^ k * first.maxFeePerGas ≤ 10 ^ k * last.maxFeePerGas ∧
      11 ^ k * first.maxPriorityFeePerGas ≤ 10 ^ k * last.maxPriorityFeePerGas := by
  have step : ∀ {k f a b : Nat}, 11 ^ k * f ≤ 10 ^ k * a → 110 * a ≤ 100 * b →
      11 ^ (k + 1) * f ≤ 10 ^ (k + 1) * b := by
    intro k f a b hk hab
    calc 11 ^ (k + 1) * f = 11 * (11 ^ k * f) := by ring
      _ ≤ 11 * (10 ^ k * a) := Nat.mul_le_mul_left 11 hk
      _ = 10 ^ k * (11 * a) := by ring
      _ ≤ 10 ^ k * (10 * b) := Nat.mul_le_mul_left _ (by omega)
      _ = 10 ^ (k + 1) * b := by ring
  induction h with
  | none => simp
  | more _ hfits hb ih =>
    obtain ⟨hleast, -⟩ := bump_ok hfits hb
    exact ⟨step ih.1 hleast.maxFee_tenth, step ih.2 hleast.tip_tenth⟩

/-- After a bump both fees are within the ceiling. -/
theorem Bumps.le_ceiling (h : Bumps checks o k first last) (hk : 0 < k) :
    last.maxFeePerGas ≤ o.ceilingMaxFee ∧ last.maxPriorityFeePerGas ≤ o.ceilingMaxFee := by
  cases h with
  | none => exact absurd hk (lt_irrefl _)
  | more _ hfits hb =>
    obtain ⟨hleast, hle⟩ := bump_ok hfits hb
    exact ⟨hle, le_trans (le_trans (Nat.le_add_left _ _) hleast.covered) hle⟩

/-- The numbers of bumps that this ceiling leaves room for above a fee. -/
def roomFor (fee ceiling : Nat) : Set Nat := {j | 0 < j ∧ 11 ^ j * fee ≤ 10 ^ j * ceiling}

theorem linear_le_growth (j : Nat) : 10 ^ j * (10 + j) ≤ 10 * 11 ^ j := by
  induction j with
  | zero => simp
  | succ j ih =>
    have hpow : 10 ^ j ≤ 11 ^ j := Nat.pow_le_pow_left (by norm_num) j
    calc 10 ^ (j + 1) * (10 + (j + 1)) = 10 * (10 ^ j * (10 + j)) + 10 * 10 ^ j := by ring
      _ ≤ 10 * (10 * 11 ^ j) + 10 * 11 ^ j := by omega
      _ = 10 * 11 ^ (j + 1) := by ring

theorem roomFor_finite {fee : Nat} (ceiling : Nat) (hfee : 1 ≤ fee) :
    (roomFor fee ceiling).Finite := by
  refine (Set.finite_Iic (10 * ceiling)).subset fun j ⟨_, hj⟩ => ?_
  have hle : 10 ^ j * (10 + j) ≤ 10 ^ j * (10 * ceiling) :=
    calc 10 ^ j * (10 + j) ≤ 10 * 11 ^ j := linear_le_growth j
      _ ≤ 10 * (11 ^ j * fee) := Nat.mul_le_mul_left 10 (Nat.le_mul_of_pos_right _ hfee)
      _ ≤ 10 * (10 ^ j * ceiling) := Nat.mul_le_mul_left 10 hj
      _ = 10 ^ j * (10 * ceiling) := by ring
  have hj := Nat.le_of_mul_le_mul_left hle (by positivity)
  exact Set.mem_Iic.mpr (by omega)

theorem room_of_le {fee ceiling j k : Nat} (hk : 11 ^ k * fee ≤ 10 ^ k * ceiling) (hjk : j ≤ k) :
    11 ^ j * fee ≤ 10 ^ j * ceiling := by
  induction k, hjk using Nat.le_induction with
  | base => exact hk
  | succ k _ ih =>
    refine ih ?_
    have hten : 10 * (11 ^ k * fee) ≤ 10 * (10 ^ k * ceiling) :=
      calc 10 * (11 ^ k * fee) ≤ 11 * (11 ^ k * fee) := Nat.mul_le_mul_right _ (by norm_num)
        _ = 11 ^ (k + 1) * fee := by ring
        _ ≤ 10 ^ (k + 1) * ceiling := hk
        _ = 10 * (10 ^ k * ceiling) := by ring
    omega

/-- So many bumps are among those there is room for. -/
theorem le_ncard_roomFor {fee ceiling k : Nat} (hfee : 1 ≤ fee)
    (hk : 0 < k → 11 ^ k * fee ≤ 10 ^ k * ceiling) : k ≤ (roomFor fee ceiling).ncard := by
  have hsub : ((Finset.Icc 1 k : Finset Nat) : Set Nat) ⊆ roomFor fee ceiling := by
    intro j hj
    obtain ⟨h1, hjk⟩ := Finset.mem_Icc.mp hj
    exact ⟨h1, room_of_le (hk (by omega)) hjk⟩
  have hcard := Set.ncard_le_ncard hsub (roomFor_finite ceiling hfee)
  rwa [Set.ncard_coe_finset, Nat.card_Icc, Nat.add_sub_cancel] at hcard

/-- A bump that goes through is the least replacement, and one that does not says what it would
have needed. Both fees grow by a tenth with every bump, so there are only as many as the ceiling
leaves room for. -/
theorem bump_is_least_and_bounded (checks : Bool) (o : RpcGasOracle) :
    (∀ prev base, FitsU128 prev base → ∃ least, LeastReplacement prev base least ∧
      o.bump checks prev (.ok base) = some (
        if least.maxFeePerGas ≤ o.ceilingMaxFee then .ok least
        else .error (.ceilingExceeded o.ceilingMaxFee least.maxFeePerGas))) ∧
    ∀ k first last, Bumps checks o k first last →
      11 ^ k * first.maxFeePerGas ≤ 10 ^ k * last.maxFeePerGas ∧
      11 ^ k * first.maxPriorityFeePerGas ≤ 10 ^ k * last.maxPriorityFeePerGas ∧
      ∀ fee ∈ [first.maxFeePerGas, first.maxPriorityFeePerGas], 1 ≤ fee →
        (roomFor fee o.ceilingMaxFee).Finite ∧ k ≤ (roomFor fee o.ceilingMaxFee).ncard := by
  refine ⟨fun prev base h => ⟨_, leastReplacement_spec prev base, bump_eq h⟩,
    fun k first last h => ⟨h.growth.1, h.growth.2, fun fee hmem hfee => ?_⟩⟩
  refine ⟨roomFor_finite _ hfee, le_ncard_roomFor hfee fun hk => ?_⟩
  obtain ⟨hmaxFee, htip⟩ := h.growth
  obtain ⟨hcap, hcap'⟩ := h.le_ceiling hk
  rcases List.mem_pair.mp hmem with rfl | rfl
  · exact hmaxFee.trans (Nat.mul_le_mul_left _ hcap)
  · exact htip.trans (Nat.mul_le_mul_left _ hcap')

theorem bump_is_least_and_bounded_twice :
    Bumps true ⟨13⟩ 2 ⟨10, 1⟩ ⟨13, 3⟩ ∧ 11 ^ 2 * 10 ≤ 10 ^ 2 * 13 ∧
      2 ≤ (roomFor 10 13).ncard := by
  have hfits : FitsU128 ⟨10, 1⟩ 1 := ⟨by decide, by decide, by decide⟩
  have hfits' : FitsU128 ⟨11, 2⟩ 5 := ⟨by decide, by decide, by decide⟩
  have hbumps : Bumps true ⟨13⟩ 2 ⟨10, 1⟩ ⟨13, 3⟩ :=
    .more (.more .none hfits (by decide)) hfits' (by decide)
  obtain ⟨hmaxFee, -, hroom⟩ := (bump_is_least_and_bounded true ⟨13⟩).2 2 ⟨10, 1⟩ ⟨13, 3⟩ hbumps
  exact ⟨hbumps, hmaxFee, (hroom 10 (by simp) (by norm_num)).2⟩

end Ladder

end WalletKit
