import WalletKit.Nonces.Ledger
import WalletKit.Runtime.World

/-!
# What the nonce manager's loops do, whatever they are answered

Each loop swaps only a state computed from one it has loaded, under that state's version,
and stops at the first swap that goes through. The three rules below are for an arbitrary
obligation `owes` and an arbitrary property `P` of the events seen so far that a round
without a successful swap keeps.
-/
namespace WalletKit

open Machine

/-- The state that a swap of this kind leaves, from the one it was computed from. -/
def CasNote.Computes (old : Versioned NonceState) (value : NonceState) : CasNote → Prop
  | .allocate nonce first => (first.isSome ↔ old.version = 0) ∧
      (LocalNonceManager.reconciled old.value first).allocate = (nonce, value)
  | .release nonce => old.value.release nonce = some value
  | .reset chainNext => old.value.reset chainNext = value

/-- The swapped value was computed from a state this program loaded under that version. -/
def CasNote.ComputedFrom (past : List PortEvent) (scope : NonceScope) (version : Nat)
    (value : NonceState) (note : CasNote) : Prop :=
  ∃ v, ev (.loadNonceState scope) (.ok ⟨v, version⟩) ∈ past ∧ note.Computes ⟨v, version⟩ value

namespace LocalNonceManager

variable {owes : List PortEvent → Op → Prop} {P : List PortEvent → Prop}
  {m : LocalNonceManager} {a : Address} {h : List PortEvent}

/-- The pending nonce is read exactly on the first use of an account. -/
theorem wp_firstUse {W : Type} {σ : Spec ports W} {w : W} {version : Nat}
    {Q : Except NonceManagerError (Option Nat) → W → Prop}
    (h₀ : version = 0 → Spec.Asks σ (.pendingNonce a) (fun r v => match r with
      | .ok n => Q (.ok (some n)) v
      | .error e => Q (.error (.rpc e)) v) w)
    (h₁ : version ≠ 0 → Q (.ok none) w) : (firstUse a version).run.wp σ Q w := by
  unfold firstUse
  split
  · rename_i hv
    obtain ⟨howes, hnext⟩ := h₀ hv
    simp only [Prog.wp_run_bind, Prog.wp_run_orThrow, Rpc.wp_pendingNonce]
    refine ⟨howes, fun r v hr => ?_⟩
    have := hnext r v hr
    cases r <;> exact this
  · exact h₁ ‹_›

/-- A round starts from the state it loads. -/
theorem load_history {α : Type} {Q : Except NonceManagerError α → List PortEvent → Prop}
    {scope : NonceScope} {f : Versioned NonceState → ExceptT NonceManagerError Io α}
    (howes : owes h (.loadNonceState scope))
    (herror : ∀ e, Q (.error (.store e)) (h ++ [ev (.loadNonceState scope) (.error e)]))
    (hnext : ∀ loaded, (f loaded).run.wp (.history owes) Q
      (h ++ [ev (.loadNonceState scope) (.ok loaded)])) :
    (load scope >>= f).run.wp (.history owes) Q h := by
  unfold load
  simp only [Prog.wp_run_bind, Prog.wp_run_orThrow, StateStore.wp_loadNonceState, asks_history]
  refine ⟨howes, fun r => ?_⟩
  cases r with
  | error e => exact herror e
  | ok loaded => exact hnext loaded

/-- One attempt to swap: it goes through, it fails, or the loop goes round again. -/
theorem casOrRetry_history {α : Type} {Q : Except NonceManagerError α → List PortEvent → Prop}
    {scope : NonceScope} {v : Nat} {s : NonceState} {note : CasNote} {a : α}
    {retry : ExceptT NonceManagerError Io α}
    (hcas : owes h (.casNonceState scope v s m.fence note) ∧
      (∀ r, r ≠ .ok true → P (h ++ [ev (.casNonceState scope v s m.fence note) r])) ∧
      Q (.ok a) (h ++ [ev (.casNonceState scope v s m.fence note) (.ok true)]))
    (herror : ∀ e, Q (.error (.store e))
      (h ++ [ev (.casNonceState scope v s m.fence note) (.error e)]))
    (hretry : ∀ h, P h → retry.run.wp (.history owes) Q h) :
    (do if ← m.cas scope v s note then return a
        retry).run.wp (.history owes) Q h := by
  obtain ⟨howes, hfail, hdone⟩ := hcas
  unfold cas
  simp only [Prog.wp_run_bind, Prog.wp_run_orThrow, StateStore.wp_casNonceState, asks_history]
  refine ⟨howes, fun r => ?_⟩
  rcases r with e | _ | _
  · exact herror e
  · exact hretry _ (hfail (.ok false) (by simp))
  · exact hdone

theorem allocateLoop_history {Q : Except NonceManagerError Nat → List PortEvent → Prop}
    (hload : ∀ h r, P h → owes h (.loadNonceState ⟨a⟩) ∧
      P (h ++ [ev (.loadNonceState ⟨a⟩) r]))
    (hpending : ∀ h r, P h → owes h (.pendingNonce a) ∧ P (h ++ [ev (.pendingNonce a) r]))
    (hcas : ∀ h n v s first, P h → CasNote.ComputedFrom h ⟨a⟩ v s (.allocate n first) →
      (∀ pending ∈ first, ev (.pendingNonce a) (.ok pending) ∈ h) →
      owes h (.casNonceState ⟨a⟩ v s m.fence (.allocate n first)) ∧
      (∀ r, r ≠ .ok true →
        P (h ++ [ev (.casNonceState ⟨a⟩ v s m.fence (.allocate n first)) r])) ∧
      Q (.ok n) (h ++ [ev (.casNonceState ⟨a⟩ v s m.fence (.allocate n first)) (.ok true)]))
    (herror : ∀ h e, P h → Q (.error e) h) (rounds : Nat) (hP : P h) :
    (m.allocateLoop a rounds).run.wp (.history owes) Q h := by
  induction rounds generalizing h with
  | zero => exact trivial
  | succ rounds ih =>
    unfold allocateLoop
    refine load_history (hload h (.error .fenced) hP).1 (fun e => herror _ _ (hload h _ hP).2)
      fun loaded => ?_
    have hP₁ := (hload h (.ok loaded) hP).2
    refine Prog.wp_run_bind.mpr (wp_firstUse (fun hv => ?_) fun hv => ?_)
    · refine asks_history.mpr ⟨(hpending _ (.error (.call "" true)) hP₁).1, fun r => ?_⟩
      have hP₂ := (hpending _ r hP₁).2
      cases r with
      | error e => exact herror _ _ hP₂
      | ok pending =>
        have hswap := hcas _ _ loaded.version _ (some pending) hP₂
          ⟨loaded.value, by simp, by simp [hv], rfl⟩ (by simp)
        exact casOrRetry_history hswap
          (fun e => herror _ _ (hswap.2.1 (.error e) (by simp))) fun _ => ih
    · have hswap := hcas _ _ loaded.version _ none hP₁
        ⟨loaded.value, by simp, by simp [hv], rfl⟩ (by simp)
      exact casOrRetry_history hswap
        (fun e => herror _ _ (hswap.2.1 (.error e) (by simp))) fun _ => ih

theorem releaseLoop_history {nonce : Nat}
    {Q : Except NonceManagerError Unit → List PortEvent → Prop}
    (hload : ∀ h r, P h → owes h (.loadNonceState ⟨a⟩) ∧
      P (h ++ [ev (.loadNonceState ⟨a⟩) r]))
    (hcas : ∀ h v s, P h → CasNote.ComputedFrom h ⟨a⟩ v s (.release nonce) →
      owes h (.casNonceState ⟨a⟩ v s m.fence (.release nonce)) ∧
      (∀ r, r ≠ .ok true → P (h ++ [ev (.casNonceState ⟨a⟩ v s m.fence (.release nonce)) r])) ∧
      Q (.ok ()) (h ++ [ev (.casNonceState ⟨a⟩ v s m.fence (.release nonce)) (.ok true)]))
    (hdead : ∀ h v, P h → v.value.next ≤ nonce →
      Q (.ok ()) (h ++ [ev (.loadNonceState ⟨a⟩) (.ok v)]))
    (herror : ∀ h x e, P (h ++ [x]) → World.working x = false → Q (.error e) (h ++ [x]))
    (rounds : Nat) (hP : P h) :
    (m.releaseLoop a nonce rounds).run.wp (.history owes) Q h := by
  induction rounds generalizing h with
  | zero => exact trivial
  | succ rounds ih =>
    unfold releaseLoop
    refine load_history (hload h (.error .fenced) hP).1
      (fun e => herror _ _ _ (hload h _ hP).2 rfl) fun loaded => ?_
    have hP₁ := (hload h (.ok loaded) hP).2
    cases hs : loaded.value.release nonce with
    | none =>
      have hdone : loaded.value.next ≤ nonce := by
        by_contra hlt
        simpa [hs] using NonceState.release_isSome (n := nonce) (s := loaded.value) (by omega)
      exact hdead _ loaded hP hdone
    | some s =>
      have hswap := hcas _ loaded.version s hP₁ ⟨loaded.value, by simp, hs⟩
      exact casOrRetry_history hswap
        (fun e => herror _ _ _ (hswap.2.1 (.error e) (by simp)) rfl) fun _ => ih

theorem resetLoop_history {c : Nat} {Q : Except NonceManagerError Unit → List PortEvent → Prop}
    (hload : ∀ h r, P h → owes h (.loadNonceState ⟨a⟩) ∧
      P (h ++ [ev (.loadNonceState ⟨a⟩) r]))
    (hcas : ∀ h v s, P h → CasNote.ComputedFrom h ⟨a⟩ v s (.reset c) →
      owes h (.casNonceState ⟨a⟩ v s m.fence (.reset c)) ∧
      (∀ r, r ≠ .ok true → P (h ++ [ev (.casNonceState ⟨a⟩ v s m.fence (.reset c)) r])) ∧
      Q (.ok ()) (h ++ [ev (.casNonceState ⟨a⟩ v s m.fence (.reset c)) (.ok true)]))
    (herror : ∀ h e, P h → Q (.error e) h) (rounds : Nat) (hP : P h) :
    (m.resetLoop a c rounds).run.wp (.history owes) Q h := by
  induction rounds generalizing h with
  | zero => exact trivial
  | succ rounds ih =>
    unfold resetLoop
    refine load_history (hload h (.error .fenced) hP).1 (fun e => herror _ _ (hload h _ hP).2)
      fun loaded => ?_
    have hswap := hcas _ loaded.version _ (hload h (.ok loaded) hP).2
      ⟨loaded.value, by simp, rfl⟩
    exact casOrRetry_history hswap
      (fun e => herror _ _ (hswap.2.1 (.error e) (by simp))) fun _ => ih

section Ops

/-- The calls of a nonce manager. -/
def NonceOp : Op → Prop
  | .pendingNonce _ | .loadNonceState _ | .casNonceState _ _ _ _ _ => True
  | _ => False

theorem allocate_ops (m : LocalNonceManager) (a : Address) : (m.allocate a).run.Ops NonceOp := by
  unfold allocate
  generalize m.attempts = rounds
  induction rounds with
  | zero => trivial
  | succ rounds ih =>
    refine .tryBind (Prog.ops_orThrow ⟨trivial, fun _ => trivial⟩) fun loaded =>
      .tryBind ?_ fun first => .tryBind (Prog.ops_orThrow ⟨trivial, fun _ => trivial⟩) fun b => ?_
    · unfold firstUse
      split
      · exact .tryBind (Prog.ops_orThrow ⟨trivial, fun _ => trivial⟩) fun _ => trivial
      · trivial
    · split
      · trivial
      · exact ih

theorem release_ops (m : LocalNonceManager) (a : Address) (n : Nat) :
    (m.release a n).run.Ops NonceOp := by
  unfold release
  generalize m.attempts = rounds
  induction rounds with
  | zero => trivial
  | succ rounds ih =>
    refine .tryBind (Prog.ops_orThrow ⟨trivial, fun _ => trivial⟩) fun loaded => ?_
    split
    · trivial
    · refine .tryBind (Prog.ops_orThrow ⟨trivial, fun _ => trivial⟩) fun b => ?_
      split
      · trivial
      · exact ih

/-- The calls of a reset. -/
def ResetOp : Op → Prop
  | .loadNonceState _ | .casNonceState _ _ _ _ (.reset _) => True
  | _ => False

theorem ResetOp.nonceOp {o : Op} (ho : ResetOp o) : NonceOp o := by
  cases o with
  | loadNonceState | casNonceState => trivial
  | _ => cases ho

theorem reset_ops (m : LocalNonceManager) (a : Address) (c : Nat) :
    (m.reset a c).run.Ops ResetOp := by
  unfold reset
  generalize m.attempts = rounds
  induction rounds with
  | zero => trivial
  | succ rounds ih =>
    refine .tryBind (Prog.ops_orThrow ⟨trivial, fun _ => trivial⟩) fun loaded =>
      .tryBind (Prog.ops_orThrow ⟨trivial, fun _ => trivial⟩) fun b => ?_
    split
    · trivial
    · exact ih

end Ops

end LocalNonceManager

end WalletKit
