import WalletKit.Nonces.Rules
import WalletKit.Runtime.Runs

/-!
# The taken nonces of the accounts

What a successful swap does to the stored nonce states of all accounts, in terms of the
nonces that are taken: an allocation takes one that was not, a release gives one back, a
reset takes none from the chain's next nonce on. The first allocation of an account also
counts everything below the pending nonce as taken.
-/
namespace WalletKit

open Machine

theorem CasNote.Computes.allocate {old : Versioned NonceState} {value : NonceState} {n : Nat}
    {first : Option Nat} (h : CasNote.Computes old value (.allocate n first))
    (habsent : old.version = 0 → old = .absent) (hf : old.value.FreeBelow) :
    value.FreeBelow ∧ ¬old.value.Taken n ∧ value.Taken n ∧
      (∀ m, old.value.Taken m → value.Taken m) ∧
      ∀ m, value.Taken m → old.value.Taken m ∨ m = n ∨ ∃ pending ∈ first, m < pending := by
  obtain ⟨hfirst, hs⟩ := h
  cases first with
  | none =>
    obtain ⟨hfresh, hf', htaken⟩ := NonceState.taken_allocate hf hs
    exact ⟨hf', hfresh, (htaken n).mpr (.inr rfl), fun m hm => (htaken m).mpr (.inl hm),
      fun m hm => ((htaken m).mp hm).imp_right .inl⟩
  | some pending =>
    -- the first use: nothing was taken, and the counter starts at the pending nonce
    have hold : old = .absent := habsent (hfirst.mp rfl)
    have hnone : ∀ m, ¬old.value.Taken m := fun m hm => by
      rw [hold] at hm
      exact absurd hm.1 (Nat.not_lt_zero m)
    have hf₀ : (LocalNonceManager.reconciled old.value (some pending)).FreeBelow := by
      simp [NonceState.FreeBelow, LocalNonceManager.reconciled, hold, Versioned.absent]
    obtain ⟨-, hf', htaken⟩ := NonceState.taken_allocate hf₀ hs
    refine ⟨hf', hnone n, (htaken n).mpr (.inr rfl), fun m hm => absurd hm (hnone m),
      fun m hm => .inr ?_⟩
    exact ((htaken m).mp hm).symm.imp_right fun ht => ⟨pending, rfl, ht.1⟩

namespace World

/-- The nonce is handed out on this account and not given back. -/
def Taken (w : World) (a : Address) (n : Nat) : Prop :=
  (w.store.loadNonceState ⟨a⟩).value.Taken n

def FreeBelow (w : World) : Prop := ∀ a, (w.store.loadNonceState ⟨a⟩).value.FreeBelow

/-- What a swap on account `a` does to the taken nonces. -/
def SwapEffect (w w' : World) (a : Address) : CasNote → Prop
  | .allocate n first => ¬w.Taken a n ∧ w'.Taken a n ∧ (∀ b m, w.Taken b m → w'.Taken b m) ∧
      ∀ b m, w'.Taken b m → w.Taken b m ∨ b = a ∧ (m = n ∨ ∃ pending ∈ first, m < pending)
  | .release n => ∀ b m, w'.Taken b m ↔ w.Taken b m ∧ ¬(b = a ∧ m = n)
  | .reset c => (∀ b m, w.Taken b m → w'.Taken b m) ∧
      ∀ b m, w'.Taken b m → w.Taken b m ∨ b = a ∧ m < c

theorem freeBelow_initial : initial.FreeBelow := fun _ => by
  simp [initial, Store.empty, Store.loadNonceState, Versioned.absent, NonceState.FreeBelow]

theorem not_taken_initial (a : Address) (n : Nat) : ¬initial.Taken a n :=
  NonceState.not_taken_of_next_le (Nat.zero_le n)

/-- Only a swap that goes through changes which nonces are taken. -/
theorem loadNonceState_apply_quiet {w : World} {e : PortEvent} (hq : swapped e = none)
    (scope : NonceScope) :
    (w.apply e).store.loadNonceState scope = w.store.loadNonceState scope :=
  loadNonceState_quiet hq scope

theorem taken_quiet {w : World} {e : PortEvent} (hq : swapped e = none) (a : Address) (n : Nat) :
    (w.apply e).Taken a n ↔ w.Taken a n := by
  rw [Taken, Taken, loadNonceState_apply_quiet hq]

theorem freeBelow_quiet {w : World} {e : PortEvent} (hq : swapped e = none) (hf : w.FreeBelow) :
    (w.apply e).FreeBelow := fun a => by
  rw [loadNonceState_apply_quiet hq]
  exact hf a

end World

variable {W C α : Type} {S : System ports W C α} {view : W → World} {p₀ p : Pool ports W C α}

/-- A swap that goes through acts on the present state, provided only taken nonces are
given back. -/
theorem Backed.swap_effect (hS : Backed S view) (h₀ : Fresh view p₀) (h : S.Reaches p₀ p)
    {th : Thread ports C α} (hth : th ∈ p.threads) {scope : NonceScope} {n : Nat}
    {value : NonceState} {f : FenceToken} {note : CasNote}
    (hfrom : note.ComputedFrom th.past scope n value)
    (hcan : (view p.world).can (ev (.casNonceState scope n value f note) (.ok true)))
    (hf : (view p.world).FreeBelow)
    (hrel : ∀ m, note = .release m → (view p.world).Taken scope.account m) :
    ((view p.world).apply (ev (.casNonceState scope n value f note) (.ok true))).FreeBelow ∧
      (view p.world).SwapEffect
        ((view p.world).apply (ev (.casNonceState scope n value f note) (.ok true)))
        scope.account note := by
  obtain ⟨v, hload, hcomp⟩ := hfrom
  obtain ⟨hcur, hafter⟩ := hS.swap_current h₀ h hth hload hcan
  generalize (view p.world).apply (ev (.casNonceState scope n value f note) (.ok true)) = w'
    at hafter ⊢
  obtain ⟨a⟩ := scope
  dsimp only at *
  have hold : (view p.world).Taken a = v.Taken := by
    funext m
    rw [World.Taken, hcur]
  have hnew : w'.Taken a = value.Taken := by
    funext m
    rw [World.Taken, hafter, if_pos rfl]
  have hother : ∀ b, b ≠ a → w'.Taken b = (view p.world).Taken b := by
    intro b hb
    funext m
    rw [World.Taken, World.Taken, hafter, if_neg (by simpa using hb)]
  have hv : v.FreeBelow := by simpa [hcur] using hf a
  have free : value.FreeBelow → w'.FreeBelow := by
    intro hval b
    rw [hafter]
    split
    · exact hval
    · exact hf b
  -- the other accounts keep what they have
  have keep : (∀ m, v.Taken m → value.Taken m) →
      ∀ b m, (view p.world).Taken b m → w'.Taken b m := by
    intro hkeep b m hm
    by_cases hb : b = a
    · subst hb
      rw [hold] at hm
      rw [hnew]
      exact hkeep m hm
    · rwa [hother b hb]
  have gain : ∀ {Q : Nat → Prop}, (∀ m, value.Taken m → v.Taken m ∨ Q m) →
      ∀ b m, w'.Taken b m → (view p.world).Taken b m ∨ b = a ∧ Q m := by
    intro Q hgain b m hm
    by_cases hb : b = a
    · subst hb
      rw [hnew] at hm
      rw [hold]
      exact (hgain m hm).imp_right fun hq => ⟨rfl, hq⟩
    · rw [hother b hb] at hm
      exact .inl hm
  cases note with
  | allocate m first =>
    obtain ⟨hf', hfresh, htaken, hkeep, hgain⟩ := hcomp.allocate
      (fun hz => by rw [← hcur]; exact hS.absent h₀ h _ (by rw [hcur]; exact hz)) hv
    exact ⟨free hf', by rwa [hold], by rwa [hnew], keep hkeep, gain hgain⟩
  | release m =>
    obtain ⟨hf', htaken⟩ := NonceState.taken_release hv (hold ▸ hrel m rfl) hcomp
    refine ⟨free hf', fun b x => ?_⟩
    by_cases hb : b = a
    · subst hb
      rw [hold, hnew, htaken]
      simp
    · rw [hother b hb]
      simp [hb]
  | reset c =>
    obtain rfl : v.reset c = value := hcomp
    obtain ⟨hf', hkeep, hgain⟩ := NonceState.taken_reset hv c
    refine ⟨free hf', keep hkeep, gain fun m hm => ?_⟩
    by_cases hc : c ≤ m
    · exact .inl (hgain m hm hc)
    · exact .inr (by omega)

end WalletKit
