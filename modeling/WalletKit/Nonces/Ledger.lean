import WalletKit.Adapters.Nonce

/-!
# The ledger of held nonces

What an allocator is for, apart from how its state is stored. A state stands for the set of
nonces that are taken: handed out, and not given back. An allocation takes one nonce more,
a release one less, and a reset only takes nonces below the chain's. Owners hold taken
nonces, and no two owners hold the same one. The lemmas here are about one atomic
computation each and say nothing about interleavings.
-/
namespace WalletKit

namespace NonceState

/-- An allocation recycles the lowest free nonce or takes the next fresh one. -/
theorem allocate_cases (s : NonceState) :
    (s.allocate.1 ∈ s.free ∧ s.allocate.2 = ⟨s.next, s.free.erase s.allocate.1⟩) ∨
      (s.free = ∅ ∧ s.allocate = (s.next, ⟨s.next + 1, ∅⟩)) := by
  unfold allocate
  split
  · rename_i h
    exact .inl ⟨Finset.min'_mem _ h, rfl⟩
  · rename_i h
    have he : s.free = ∅ := Finset.not_nonempty_iff_eq_empty.mp h
    exact .inr ⟨he, by simp [he]⟩

/-- Absorbing lowers the top to `k'` and drops exactly the free nonces from there on. -/
theorem absorb_spec (k : Nat) (free : Finset Nat) :
    (absorb k free).next ≤ k ∧
      (∀ n, (absorb k free).next ≤ n → n < k → n ∈ free) ∧
      ∀ n, n ∈ (absorb k free).free ↔ n ∈ free ∧ ¬((absorb k free).next ≤ n ∧ n < k) := by
  induction k generalizing free with
  | zero => simp [absorb]
  | succ k ih =>
    unfold absorb
    split
    · rename_i hk
      obtain ⟨hle, hfree, hmem⟩ := ih (free.erase k)
      refine ⟨by omega, fun n h₁ h₂ => ?_, fun n => ?_⟩
      · rcases Nat.lt_succ_iff_lt_or_eq.mp h₂ with h | rfl
        · exact Finset.mem_of_mem_erase (hfree n h₁ h)
        · exact hk
      · rw [hmem, Finset.mem_erase]
        by_cases hn : n = k
        · subst hn; simp [hle]
        · exact ⟨fun h => ⟨h.1.2, by omega⟩, fun h => ⟨⟨hn, h.1⟩, by omega⟩⟩
    · refine ⟨le_rfl, fun n h₁ h₂ => ?_, fun n => ?_⟩
      · change k + 1 ≤ n at h₁
        omega
      · change n ∈ free ↔ n ∈ free ∧ ¬(k + 1 ≤ n ∧ n < k + 1)
        exact ⟨fun h => ⟨h, by omega⟩, fun h => h.1⟩

/-- Giving back `n` frees it, up to the free nonces that fall above the lowered top. -/
theorem release_spec {s s' : NonceState} {n : Nat} (h : s.release n = some s')
    (hn : n ∉ s.free) :
    n < s.next ∧ s'.next ≤ s.next ∧
      (∀ x, s'.next ≤ x → x < s.next → x ∈ s.free ∨ x = n) ∧
      ∀ x, x ∈ s'.free ↔ (x ∈ s.free ∨ x = n) ∧ ¬(s'.next ≤ x ∧ x < s.next) := by
  unfold release at h
  split at h
  · cases h
  · split at h
    · rename_i hlt htop
      obtain rfl := Option.some.inj h
      obtain ⟨hle, hfree, hmem⟩ := absorb_spec (s.next - 1) s.free
      refine ⟨by omega, by omega, fun x h₁ h₂ => ?_, fun x => ?_⟩
      · by_cases hx : x = n
        · exact .inr hx
        · exact .inl (hfree x h₁ (by omega))
      · rw [hmem]
        by_cases hx : x = n
        · subst hx
          simp only [hn, false_and, or_true, true_and, false_iff, not_not]
          omega
        · simp only [hx, or_false]
          refine and_congr_right fun _ => ?_
          omega
    · rename_i hlt htop
      obtain rfl := Option.some.inj h
      refine ⟨by omega, le_rfl, fun x h₁ h₂ => by simp at h₁; omega, fun x => ?_⟩
      simp only [Finset.mem_insert]
      constructor
      · exact fun h => ⟨h.symm, by omega⟩
      · exact fun h => h.1.symm

/-- A nonce below the top can be given back. -/
theorem release_isSome {s : NonceState} {n : Nat} (h : n < s.next) :
    (s.release n).isSome := by
  unfold release
  rw [if_neg (by omega)]
  split <;> rfl

/-- Handed out and not given back. -/
def Taken (s : NonceState) (n : Nat) : Prop := n < s.next ∧ n ∉ s.free

/-- Only nonces that were handed out are free. -/
def FreeBelow (s : NonceState) : Prop := ∀ n ∈ s.free, n < s.next

section Taken

variable {s s' : NonceState} {n : Nat}

theorem not_taken_of_next_le (h : s.next ≤ n) : ¬s.Taken n := fun ht => absurd ht.1 (by omega)

/-- An allocation takes one nonce that was not taken. -/
theorem taken_allocate (hf : s.FreeBelow) (h : s.allocate = (n, s')) :
    ¬s.Taken n ∧ s'.FreeBelow ∧ ∀ m, s'.Taken m ↔ s.Taken m ∨ m = n := by
  rcases s.allocate_cases with ⟨hn, hs⟩ | ⟨hempty, hs⟩
  · rw [h] at hn hs
    dsimp only at hn hs
    subst hs
    refine ⟨fun ht => ht.2 hn, fun m hm => hf m (Finset.mem_of_mem_erase hm), fun m => ?_⟩
    have hlt := hf n hn
    simp only [Taken, Finset.mem_erase, not_and]
    by_cases hm : m = n
    · subst hm; simp [hlt]
    · simp [hm]
  · rw [h, Prod.mk.injEq] at hs
    obtain ⟨rfl, rfl⟩ := hs
    refine ⟨fun ht => lt_irrefl _ ht.1, by simp [FreeBelow], fun m => ?_⟩
    simp only [Taken, hempty, Finset.notMem_empty, not_false_eq_true, and_true]
    omega

/-- A release gives back one taken nonce. -/
theorem taken_release (hf : s.FreeBelow) (hn : s.Taken n) (h : s.release n = some s') :
    s'.FreeBelow ∧ ∀ m, s'.Taken m ↔ s.Taken m ∧ m ≠ n := by
  obtain ⟨hlt, hle, hgap, hmem⟩ := release_spec h hn.2
  refine ⟨fun m hm => ?_, fun m => ⟨fun ht => ?_, fun ht => ?_⟩⟩
  · obtain ⟨hor, hcut⟩ := (hmem m).mp hm
    have : m < s.next := hor.elim (hf m) fun he => he ▸ hlt
    omega
  · have hno : ¬(m ∈ s.free ∨ m = n) := fun hor =>
      ht.2 ((hmem m).mpr ⟨hor, fun hcut => absurd ht.1 (by omega)⟩)
    exact ⟨⟨ht.1.trans_le hle, fun hm => hno (.inl hm)⟩, fun he => hno (.inr he)⟩
  · have hno : ¬(m ∈ s.free ∨ m = n) := fun hor => hor.elim ht.1.2 ht.2
    refine ⟨?_, fun hm => hno ((hmem m).mp hm).1⟩
    by_contra hge
    exact hno (hgap m (by omega) ht.1.1)

/-- A reset gives nothing back, and takes nothing from the chain's next nonce on. -/
theorem taken_reset (hf : s.FreeBelow) (c : Nat) :
    (s.reset c).FreeBelow ∧ (∀ m, s.Taken m → (s.reset c).Taken m) ∧
      ∀ m, (s.reset c).Taken m → c ≤ m → s.Taken m := by
  refine ⟨fun m hm => ?_, fun m ht => ⟨ht.1.trans_le (le_max_left _ _), fun hm => ?_⟩,
    fun m ht hc => ⟨?_, fun hm => ?_⟩⟩
  · exact (hf m (Finset.mem_filter.mp hm).1).trans_le (le_max_left _ _)
  · exact ht.2 (Finset.mem_filter.mp hm).1
  · exact (lt_max_iff.mp ht.1).resolve_right (by omega)
  · exact ht.2 (Finset.mem_filter.mpr ⟨hm, hc⟩)

end Taken

end NonceState

/-- The book of an allocator: `Held i n` says that owner `i` has nonce `n`. -/
structure Ledger {ι : Type} (s : NonceState) (Held : ι → Nat → Prop) : Prop where
  taken : ∀ i n, Held i n → s.Taken n
  distinct : ∀ i j n, Held i n → Held j n → i = j
  freeBelow : s.FreeBelow

namespace Ledger

variable {ι : Type} {s s' : NonceState} {Held Held' : ι → Nat → Prop} {i : ι} {n : Nat}

theorem nobody (hs : s.free = ∅) (h : ∀ i n, ¬Held i n) : Ledger s Held :=
  ⟨fun i n hi => absurd hi (h i n), fun i _ n hi => absurd hi (h i n),
    by simp [NonceState.FreeBelow, hs]⟩

/-- Owners may let go of nonces without giving them back. -/
theorem mono (h : Ledger s Held) (hsub : ∀ i n, Held' i n → Held i n) : Ledger s Held' :=
  ⟨fun i n hi => h.taken i n (hsub i n hi),
    fun i j n hi hj => h.distinct i j n (hsub i n hi) (hsub j n hj), h.freeBelow⟩

/-- Moving forward to the chain disturbs no holding. -/
theorem reset (h : Ledger s Held) (c : Nat) : Ledger (s.reset c) Held := by
  obtain ⟨hf, hkeep, -⟩ := NonceState.taken_reset h.freeBelow c
  exact ⟨fun j n hj => hkeep n (h.taken j n hj), h.distinct, hf⟩

/-- One owner gains the allocated nonce. -/
theorem allocate (h : Ledger s Held) (hs : s.allocate = (n, s'))
    (hsub : ∀ j x, Held' j x → Held j x ∨ (j = i ∧ x = n)) : Ledger s' Held' := by
  obtain ⟨hfresh, hf, htaken⟩ := NonceState.taken_allocate h.freeBelow hs
  have unheld : ∀ j, ¬Held j n := fun j hj => hfresh (h.taken j n hj)
  refine ⟨fun j x hj => (htaken x).mpr ?_, fun j k x hj hk => ?_, hf⟩
  · exact (hsub j x hj).imp (h.taken j x) And.right
  · rcases hsub j x hj with hj | ⟨rfl, rfl⟩ <;> rcases hsub k _ hk with hk | ⟨rfl, he⟩
    · exact h.distinct j k x hj hk
    · exact absurd (he ▸ hj) (unheld j)
    · exact absurd hk (unheld k)
    · rfl

/-- One owner gives its nonce back. -/
theorem release (h : Ledger s Held) (hi : Held i n) (hs : s.release n = some s')
    (hsub : ∀ j x, Held' j x → Held j x ∧ j ≠ i) : Ledger s' Held' := by
  obtain ⟨hf, htaken⟩ := NonceState.taken_release h.freeBelow (h.taken i n hi) hs
  refine ⟨fun j x hj => (htaken x).mpr ⟨h.taken j x (hsub j x hj).1, fun he => ?_⟩,
    fun j k x hj hk => h.distinct j k x (hsub j x hj).1 (hsub k x hk).1, hf⟩
  exact (hsub j x hj).2 (h.distinct j i n (he ▸ (hsub j x hj).1) hi)

end Ledger

end WalletKit
