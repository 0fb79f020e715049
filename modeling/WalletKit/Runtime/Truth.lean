import WalletKit.Runtime.Chain
import WalletKit.Runtime.Registry

/-!
# What truthful reads have told

When the transaction that holds a nonce stays, what a call was told of that nonce stays true: it
is held when it was counted, and a hash that had no receipt afterwards is not its holder's. So
what a cycle takes for displaced is held by a transaction that is none of the handle's. The rest
of the chain may be reorganised.
-/
namespace WalletKit

open Machine

/-- Once a transaction holds this nonce, it stays. -/
def Chain.keepsHolder (c c' : Chain) (a : Address) (n : Nat) : Bool :=
  (c.holder a n).all fun t => c'.holder a n = some t

/-- What the reads of a call say about the holder of a nonce. -/
structure Told (a : Address) (n : Nat) (w : Scene) (past : List PortEvent) : Prop where
  counted : ∀ {mined}, ev (.txCount a) (.ok mined) ∈ past → n < mined →
    ∃ t, w.chain.holder a n = some t
  missing : ∀ {mined x},
    [ev (.txCount a) (.ok mined), ev (.receipt x) (.ok none)].Sublist past → n < mined →
      ∀ t, w.chain.holder a n = some t → t.hash ≠ x

section Steps

variable {c c' : Chain} {a : Address} {n : Nat} {x : TxHash} {past : List PortEvent}

theorem Chain.keepsHolder_holder {t : Inclusion} (h : c.keepsHolder c' a n)
    (ht : c.holder a n = some t) : c'.holder a n = some t := by
  simpa [Chain.keepsHolder, ht] using h

theorem Chain.receipt_isSome : (c.receipt x).isSome ↔ ∃ t ∈ c.txs, t.hash = x := by
  simp [Chain.receipt, List.find?_isSome]

/-- A pair of events in this order ends with the last event, or was there before. -/
theorem pair_sublist_snoc {e e' y : PortEvent} (h : [e, e'].Sublist (past ++ [y])) :
    [e, e'].Sublist past ∨ e ∈ past ∧ e' = y := by
  obtain ⟨l, l', hl, hpast, hy⟩ := List.sublist_append_iff.mp h
  match l', hy with
  | [], _ => exact .inl (by rwa [hl, List.append_nil])
  | [z], hy =>
    obtain ⟨rfl, he⟩ := List.append_inj' (show [e] ++ [e'] = l ++ [z] from hl) rfl
    cases he
    exact .inr ⟨List.singleton_sublist.mp hpast, List.mem_singleton.mp (hy.subset (by simp))⟩
  | _ :: _ :: _, hy => simpa using hy.length_le

theorem told_nil {w : Scene} : Told a n w [] where
  counted h := by cases h
  missing h := by simp at h

variable {w w' : Scene}

theorem Told.mono (h : Told a n w past) (hk : w.chain.keepsHolder w'.chain a n) :
    Told a n w' past where
  counted hr hn := by
    obtain ⟨t, ht⟩ := h.counted hr hn
    exact ⟨t, Chain.keepsHolder_holder hk ht⟩
  missing hr hn t ht := by
    -- the holder of now was there when it was counted
    obtain ⟨t', ht'⟩ := h.counted (hr.subset (by simp)) hn
    cases ht.symm.trans (Chain.keepsHolder_holder hk ht')
    exact h.missing hr hn t ht'

theorem Told.snoc (h : Told a n w past) {y : PortEvent} (hy : w.chain.tells y) :
    Told a n w (past ++ [y]) where
  counted {mined} hr hn := by
    rcases List.mem_append.mp hr with hr | hr
    · exact h.counted hr hn
    · rw [← List.mem_singleton.mp hr] at hy
      have hcount : mined = w.chain.count a := by simpa [ev, Chain.tells, Except.toOption] using hy
      exact Chain.exists_holder_iff.mpr (hcount ▸ hn)
  missing {mined x} hr hn t ht hx := by
    rcases pair_sublist_snoc hr with hr | ⟨-, rfl⟩
    · exact h.missing hr hn t ht hx
    · have hrc : none = w.chain.receipt x := by simpa [ev, Chain.tells, Except.toOption] using hy
      have hsome := Chain.receipt_isSome.mpr ⟨t, (Chain.holder_eq_some.mp ht).1, hx⟩
      simp [← hrc] at hsome

end Steps

section Law

variable [Alloy] {C α : Type} {cl : Client C α}
  {env : Pool ports Scene C α → Nat → Chain → PortEvent → Prop} {p₀ p : Pool ports Scene C α}
  {a : Address} {n : Nat}

/-- When the holder of a nonce stays, every call was told what is so. -/
theorem Client.told (hkeeps : ∀ {p i c e}, env p i c e → p.world.chain.keepsHolder c a n)
    (h₀ : Backed.Fresh Scene.world p₀) (h : (cl.onChain env).Reaches p₀ p) :
    ∀ th ∈ p.threads, Told a n p.world th.past :=
  h.gathered (K := Told a n) h₀.1 (fun _ => told_nil) (fun ha hk => hk.mono (hkeeps ha.2.2))
    fun _ _ ha hk => (hk.mono (hkeeps ha.2.2)).snoc ha.2.1

/-- What a cycle takes for displaced is held by a transaction that is none of the handle's. -/
theorem Told.foreign {w : Scene} {past : List PortEvent} {e : AccountExecutor} {g : TxHandle}
    (h : Told e.account g.nonce w past) {before scan : List PortEvent} {cycle : Cycle}
    (hpast : past = before ++ scan) (hcycle : InCycle before e cycle)
    (hscan : Scanned g cycle.minedNonce scan .replaced) :
    ∃ t, w.chain.holder e.account g.nonce = some t ∧ t.hash ∉ g.broadcasts := by
  obtain ⟨pre, last, tag, after, hbefore, -⟩ := hcycle
  have hcount : ev (.txCount e.account) (.ok cycle.minedNonce) ∈ before := by
    simp [hbefore, cycleReads]
  cases hscan with
  | consumed hlt =>
    obtain ⟨t, ht⟩ := h.counted (hpast ▸ List.mem_append_left _ hcount) hlt
    refine ⟨t, ht, fun hx => h.missing (x := t.hash) ?_ hlt t ht rfl⟩
    rw [hpast]
    have hfirst : [_].Sublist before := List.singleton_sublist.mpr hcount
    refine hfirst.append (List.singleton_sublist.mpr ?_)
    exact List.mem_map.mpr ⟨t.hash, List.mem_reverse.mpr hx, rfl⟩

end Law

end WalletKit
