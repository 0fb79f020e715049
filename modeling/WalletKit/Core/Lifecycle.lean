import WalletKit.Core.Primitives

/-!
# The transaction lifecycle

The pure state machine the executor drives: from a status and one distilled chain event
to the next status, under the finality rule of the cycle. Its states are the persisted
statuses themselves. An event without evidence is never a transition.
-/
namespace WalletKit

/-- How an outcome becomes irreversible. -/
inductive Finality where
  | finalized
  | depth
  deriving DecidableEq, Repr

structure FinalityConfig where
  mode : Finality
  required : Nat
  deriving DecidableEq, Repr

/-- The chain's finality context for one cycle. -/
structure ChainView where
  latest : Nat
  finalized : Nat
  deriving DecidableEq, Repr

/-- How a mined transaction executed. -/
inductive Outcome where
  | executed
  | reverted
  deriving DecidableEq, Repr

/-- The one distilled read of a handle in a cycle. -/
inductive ChainEvent where
  | pending
  | mined (block : Nat) (blockHash : B256) (outcome : Outcome)
  | replaced
  | unknown
  deriving DecidableEq, Repr

/-- Whether an outcome at `block` is irreversible under the cycle's finality rule. -/
def isFinal (block : Nat) (view : ChainView) (cfg : FinalityConfig) : Bool :=
  match cfg.mode with
  | .finalized => block ≤ view.finalized
  | .depth => cfg.required ≤ view.latest - block + 1

/-- The terminal status a final outcome settles in. -/
def Outcome.settled (block : Nat) : Outcome → TxStatus
  | .executed => .confirmed block
  | .reverted => .failed "reverted on-chain"

/-- The next status given a distilled chain event, or `none` for no change. -/
def transition (state : TxStatus) (event : ChainEvent) (view : ChainView)
    (cfg : FinalityConfig) : Option TxStatus :=
  if state.isTerminal then none
  else
    let target : Option TxStatus :=
      match event with
      | .unknown => none
      -- the nonce is open again: a tentative outcome was un-mined by a reorg
      | .pending =>
        match state with
        | .mined _ _ | .replacing _ => some .sent
        | _ => none
      | .mined block blockHash outcome =>
        if isFinal block view cfg then some (outcome.settled block)
        else some (.mined block blockHash)
      -- depth-gated from the head at which the foreign transaction was first seen
      | .replaced =>
        match state with
        | .replacing sinceBlock =>
          if isFinal sinceBlock view cfg then some .replaced else none
        | _ => some (.replacing view.latest)
    target.filter (· ≠ state)

theorem isFinal_mono {b b' : Nat} {view : ChainView} {cfg : FinalityConfig} (hb : b ≤ b')
    (h : isFinal b' view cfg) : isFinal b view cfg := by
  unfold isFinal at *
  cases hm : cfg.mode <;> simp only [hm, decide_eq_true_eq] at * <;> omega

@[simp] theorem settled_isTerminal (o : Outcome) (b : Nat) : (o.settled b).isTerminal := by
  cases o <;> rfl

/-- Everything a transition can be. -/
theorem transition_cases {s t : TxStatus} {event : ChainEvent} {view : ChainView}
    {cfg : FinalityConfig} (h : transition s event view cfg = some t) :
    s.isTerminal = false ∧ t ≠ s ∧
      ((event = .pending ∧ t = .sent ∧ ((∃ b bh, s = .mined b bh) ∨ ∃ l, s = .replacing l)) ∨
      (∃ b bh o, event = .mined b bh o ∧
        (isFinal b view cfg ∧ t = o.settled b ∨ isFinal b view cfg = false ∧ t = .mined b bh)) ∨
      (event = .replaced ∧ ((∃ l, s = .replacing l ∧ isFinal l view cfg ∧ t = .replaced) ∨
        ((∀ l, s ≠ .replacing l) ∧ t = .replacing view.latest)))) := by
  unfold transition at h
  split at h
  · cases h
  · rename_i hs
    refine ⟨by simpa using hs, ?_⟩
    simp only [Option.filter_eq_some_iff, decide_eq_true_eq] at h
    obtain ⟨htarget, hne⟩ := h
    refine ⟨hne, ?_⟩
    cases event with
    | unknown => cases htarget
    | pending =>
      left
      cases s <;> simp_all
    | mined b bh o =>
      right; left
      refine ⟨b, bh, o, rfl, ?_⟩
      by_cases hf : isFinal b view cfg <;> simp_all
    | replaced =>
      right; right
      refine ⟨rfl, ?_⟩
      cases s <;> simp_all

/-- A final outcome of the handle's own transaction settles it. -/
theorem transition_mined {s : TxStatus} {b : Nat} {bh : B256} {o : Outcome} {view : ChainView}
    {cfg : FinalityConfig} (hs : s.isTerminal = false) (hf : isFinal b view cfg) :
    transition s (.mined b bh o) view cfg = some (o.settled b) := by
  have hne : o.settled b ≠ s := by
    rintro rfl
    simp at hs
  simp [transition, hs, hf, Option.filter, hne]

/-- A consumed nonce starts the clock, or settles the handle once the clock has run. -/
theorem transition_replaced {s : TxStatus} {view : ChainView} {cfg : FinalityConfig}
    (hs : s.isTerminal = false) : transition s .replaced view cfg =
      match s with
      | .replacing l => if isFinal l view cfg then some .replaced else none
      | _ => some (.replacing view.latest) := by
  cases s with
  | replacing l =>
    by_cases hf : isFinal l view cfg <;>
      simp [transition, TxStatus.isTerminal, Option.filter, hf]
  | pending | sent | mined => simp [transition, TxStatus.isTerminal, Option.filter]
  | confirmed | failed | replaced | dropped => cases hs

end WalletKit
