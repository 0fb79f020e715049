import WalletKit.Nonces.Uniqueness

/-!
# Nonces that the chain has used

What the managers know of the chain: a reset moves an account forward to the chain's next
nonce, and its first allocation starts at the pending one. Neither survives everything. A release
does not know what was reset while the nonce was held, and brings back a nonce below. And a reset
that comes before the first allocation takes the place of the pending nonce, which is then never
read. Where no such release or reset goes through, both hold.
-/
namespace WalletKit

open Machine

namespace NonceState

/-- All that this state can hand out is at or above `c`. -/
def AtLeast (s : NonceState) (c : Nat) : Prop := c ≤ s.next ∧ ∀ n ∈ s.free, c ≤ n

variable {s s' : NonceState} {c n : Nat}

theorem AtLeast.allocate (h : s.AtLeast c) (hs : s.allocate = (n, s')) : c ≤ n ∧ s'.AtLeast c := by
  rcases s.allocate_cases with ⟨hn, he⟩ | ⟨-, he⟩
  · rw [hs] at hn he
    dsimp only at hn he
    subst he
    exact ⟨h.2 n hn, h.1, fun m hm => h.2 m (Finset.mem_of_mem_erase hm)⟩
  · rw [hs, Prod.mk.injEq] at he
    obtain ⟨rfl, rfl⟩ := he
    exact ⟨h.1, h.1.trans (Nat.le_succ _), by simp⟩

/-- Absorbing does not fall below what is free. -/
theorem AtLeast.absorb {k : Nat} {free : Finset Nat} (hk : c ≤ k) (hfree : ∀ n ∈ free, c ≤ n) :
    (NonceState.absorb k free).AtLeast c := by
  obtain ⟨hle, hgap, hmem⟩ := absorb_spec k free
  refine ⟨?_, fun n hn => hfree n ((hmem n).mp hn).1⟩
  by_contra hlt
  exact hlt (hfree _ (hgap _ le_rfl (by omega)))

/-- Giving back a nonce at or above `c` brings back nothing below. -/
theorem AtLeast.release (h : s.AtLeast c) (hn : c ≤ n) (hs : s.release n = some s') :
    s'.AtLeast c := by
  unfold NonceState.release at hs
  split at hs
  · cases hs
  split at hs
  · cases hs
    exact .absorb (by omega) h.2
  · cases hs
    refine ⟨h.1, fun m hm => ?_⟩
    rcases Finset.mem_insert.mp hm with rfl | hm
    · exact hn
    · exact h.2 m hm

theorem AtLeast.reset (h : s.AtLeast c) (d : Nat) : (s.reset d).AtLeast c :=
  ⟨h.1.trans (le_max_left _ _), fun n hn => h.2 n (Finset.mem_filter.mp hn).1⟩

theorem atLeast_reset (s : NonceState) (c : Nat) : (s.reset c).AtLeast c :=
  ⟨le_max_right _ _, fun _ hn => (Finset.mem_filter.mp hn).2⟩

end NonceState

section Swaps

/-- The account was moved forward to `c`. -/
def WasReset (log : List PortEvent) (a : Address) (c : Nat) : Prop :=
  ∃ v s f, ev (.casNonceState ⟨a⟩ v s f (.reset c)) (.ok true) ∈ log

theorem WasReset.of_snoc {log : List PortEvent} {e : PortEvent} {a : Address} {c : Nat}
    (h : WasReset (log ++ [e]) a c) : WasReset log a c ∨
      ∃ v s f, e = ev (.casNonceState ⟨a⟩ v s f (.reset c)) (.ok true) := by
  obtain ⟨v, s, f, h⟩ := h
  rcases List.mem_append.mp h with h | h
  · exact .inl ⟨v, s, f, h⟩
  · exact .inr ⟨v, s, f, (List.mem_singleton.mp h).symm⟩

/-- Whether this moved the account forward beyond `n`. -/
def resetBeyond (a : Address) (n : Nat) : PortEvent → Bool
  | ⟨.casNonceState scope _ _ _ (.reset c), r⟩ =>
    match (r : Except StateStoreError Bool) with
    | .ok true => scope.account = a && n < c
    | _ => false
  | _ => false

/-- Whether this is not a release that goes through below a reset of the account. -/
def aboveResets (w : World) : PortEvent → Bool
  | ⟨.casNonceState scope _ _ _ (.release n), r⟩ =>
    match (r : Except StateStoreError Bool) with
    | .ok true => !w.log.any (resetBeyond scope.account n)
    | _ => true
  | _ => true

theorem le_of_aboveResets {w : World} {scope : NonceScope} {v : Nat} {s : NonceState}
    {f : FenceToken} {n c : Nat}
    (h : aboveResets w (ev (.casNonceState scope v s f (.release n)) (.ok true)))
    (hc : WasReset w.log scope.account c) : c ≤ n := by
  obtain ⟨v', s', f', hmem⟩ := hc
  by_contra hlt
  have hbeyond : w.log.any (resetBeyond scope.account n) :=
    List.any_eq_true.mpr ⟨_, hmem, by simp [ev, resetBeyond]; omega⟩
  simp [aboveResets, ev, hbeyond] at h

/-- The nonce this has allocated on the account. -/
def allocatedOn (a : Address) : PortEvent → Option Nat
  | ⟨.casNonceState scope _ _ _ (.allocate n _), r⟩ =>
    match (r : Except StateStoreError Bool) with
    | .ok true => if scope.account = a then some n else none
    | _ => none
  | _ => none

/-- The first nonce that was ever allocated on the account. -/
def firstAllocated (a : Address) (log : List PortEvent) : Option Nat :=
  log.findSome? (allocatedOn a)

theorem allocatedOn_quiet {e : PortEvent} (h : swapped e = none) (a : Address) :
    allocatedOn a e = none := by
  obtain ⟨o, r⟩ := e
  cases o with
  | casNonceState scope v s f note =>
    match note, r, h with
    | .allocate _ _, .ok false, _ | .allocate _ _, .error _, _ => rfl
    | .release _, _, _ | .reset _, _, _ => rfl
  | _ => rfl

theorem firstAllocated_snoc (a : Address) (log : List PortEvent) (e : PortEvent) :
    firstAllocated a (log ++ [e]) = (firstAllocated a log).or (allocatedOn a e) := by
  simp [firstAllocated, List.findSome?_append]

end Swaps

section Reads

/-- An allocation that starts from the pending nonce has read it. -/
def PendingRead (past : List PortEvent) : Op → Prop
  | .casNonceState scope _ _ _ (.allocate _ first) =>
    ∀ pending ∈ first, ev (.pendingNonce scope.account) (.ok pending) ∈ past
  | _ => True

theorem NonceCall.body_reads (c : NonceCall) :
    c.body.wp (.history PendingRead) (fun _ _ => True) [] := by
  cases c with
  | allocate m a =>
    exact Prog.wp_run_map.mpr (LocalNonceManager.allocateLoop_history (P := fun _ => True)
      (fun _ _ _ => ⟨trivial, trivial⟩) (fun _ _ _ => ⟨trivial, trivial⟩)
      (fun _ _ _ _ _ _ _ hread => ⟨hread, fun _ _ => trivial, trivial⟩) (fun _ _ _ => trivial)
      m.attempts trivial)
  | release m a n i =>
    exact Prog.wp_run_map.mpr (LocalNonceManager.releaseLoop_history (P := fun _ => True)
      (fun _ _ _ => ⟨trivial, trivial⟩) (fun _ _ _ _ _ => ⟨trivial, fun _ _ => trivial, trivial⟩)
      (fun _ _ _ _ => trivial) (fun _ _ _ _ _ => trivial) m.attempts trivial)
  | reset m a c =>
    exact Prog.wp_run_map.mpr (LocalNonceManager.resetLoop_history (P := fun _ => True)
      (fun _ _ _ => ⟨trivial, trivial⟩) (fun _ _ _ _ _ => ⟨trivial, fun _ _ => trivial, trivial⟩)
      (fun _ _ _ => trivial) m.attempts trivial)

/-- A reset that has returned has moved its account forward. -/
theorem NonceCall.body_resets (call : NonceCall) :
    call.body.wp (.history fun _ _ => True) (fun r past => ∀ m a c, call = .reset m a c →
      r = .ok none → WasReset past a c) [] := by
  have other : (∀ m a c, call ≠ .reset m a c) → call.body.wp (.history fun _ _ => True)
      (fun r past => ∀ m a c, call = .reset m a c → r = .ok none → WasReset past a c) [] :=
    fun hne => Prog.wp_mono (Prog.wp_history_imp call.body_reads fun _ _ _ => trivial)
      fun _ _ _ m a c hc => absurd hc (hne m a c)
  cases call with
  | reset m a c =>
    refine Prog.wp_run_map.mpr (LocalNonceManager.resetLoop_history (P := fun _ => True)
      (fun _ _ _ => ⟨trivial, trivial⟩) (fun _ v s _ _ => ⟨trivial, fun _ _ => trivial, ?_⟩)
      (fun _ _ _ => ?_) m.attempts trivial)
    · rintro _ _ _ ⟨rfl⟩ -
      exact ⟨v, s, m.fence, by simp⟩
    · rintro _ _ _ - ⟨⟩
  | allocate m a => exact other (by simp)
  | release m a n i => exact other (by simp)

end Reads

namespace NoncePool

variable {p p' : NoncePool} {cond : NoncePool → Nat → PortEvent → Prop}

theorem backed_given : Backed (nonceCalls.given cond) id where
  can ha := ha.1
  next _ := rfl

theorem fresh : Backed.Fresh id start := ⟨rfl, rfl⟩

/-- Only what was allocated is given back. -/
theorem allocated_of_release (h : nonceCalls.Reaches start p) {th : NonceThread}
    (hth : th ∈ p.threads) {m : LocalNonceManager} {a : Address} {n i : Nat}
    (hcall : th.call = .release m a n i) : ∃ e ∈ p.world.log, allocatedOn a e = some n := by
  have hback : Backed nonceCalls id := ⟨fun ha => ha, fun _ => rfl⟩
  obtain ⟨j, hj⟩ := List.mem_iff_getElem?.mp hth
  obtain ⟨⟨m', first, hg⟩, -⟩ := (sound_of_reaches h).kept.released j m a n i
    (by simp [Book.callAt, book_get hj, hcall])
  obtain ⟨holder, hi, hbook⟩ : ∃ holder, p.threads[i]? = some holder ∧
      (holder.call, swaps holder.past) = (.allocate m' a, [.allocate n first]) := by
    simpa [book] using hg
  obtain ⟨hcall', hsw⟩ := Prod.mk.inj hbook
  have hholder : holder ∈ p.threads := List.mem_of_getElem? hi
  obtain ⟨e, he, hswapped⟩ : ∃ e ∈ holder.past, swapped e = some (.allocate n first) :=
    List.mem_filterMap.mp (show _ ∈ swaps holder.past by simp [hsw])
  obtain ⟨scope, v, s, f, rfl⟩ := swapped_eq_some hswapped
  obtain ⟨before, after, hpast⟩ := List.append_of_mem he
  obtain ⟨-, rfl, -⟩ := h.owed NonceCall.body_history rfl holder hholder before _ after hpast
  refine ⟨_, hback.mem_log fresh h hholder he, ?_⟩
  simp [ev, allocatedOn, hcall', NonceCall.account]

/-- What is known of a swap that goes through. -/
structure Swap (w : World) (scope : NonceScope) (s : NonceState) (note : CasNote) : Prop where
  computes : note.Computes (w.store.loadNonceState scope) s
  pending : ∀ n first, note = .allocate n first → ∀ q ∈ first,
    ev (.pendingNonce scope.account) (.ok q) ∈ w.log
  released : ∀ n, note = .release n → ∃ e ∈ w.log, allocatedOn scope.account e = some n

theorem swap_of_reaches (h : nonceCalls.Reaches start p) {th : NonceThread} (hth : th ∈ p.threads)
    {scope : NonceScope} {v : Nat} {s : NonceState} {f : FenceToken} {note : CasNote}
    {k : Except StateStoreError Bool → Io (Except NonceManagerError (Option Nat))}
    (hprog : th.prog = .call (.casNonceState scope v s f note) k)
    (hcan : p.world.can (ev (.casNonceState scope v s f note) (.ok true))) :
    Swap p.world scope s note ∧ (p.world.apply (ev (.casNonceState scope v s f note)
      (.ok true))).store.loadNonceState =
        Function.update p.world.store.loadNonceState scope ⟨s, v + 1⟩ := by
  have hback : Backed nonceCalls id := ⟨fun ha => ha, fun _ => rfl⟩
  have hcall := h.history NonceCall.body_history rfl th hth
  have hreads := h.history NonceCall.body_reads rfl th hth
  rw [hprog] at hcall hreads
  obtain ⟨-, rfl, hsw, old, hload, hcomp⟩ := (Prog.wp_history_call.mp hcall).1
  obtain ⟨hcur, hafter⟩ := hback.swap_current fresh h hth hload hcan
  refine ⟨⟨?_, ?_, ?_⟩, ?_⟩
  · rw [show p.world.store.loadNonceState _ = _ from hcur]
    exact hcomp
  · rintro n first rfl q hq
    exact hback.mem_log fresh h hth ((Prog.wp_history_call.mp hreads).1 q hq)
  · rintro n rfl
    cases hc : th.call with
    | release m a n' i =>
      obtain rfl : n' = n := by simpa [hc, NonceCall.Swaps, eq_comm] using hsw
      exact allocated_of_release h hth hc
    | allocate m a => simp [hc, NonceCall.Swaps] at hsw
    | reset m a c => simp [hc, NonceCall.Swaps] at hsw
  · funext t
    rw [Function.update_apply]
    exact hafter t

/-- What every swap that goes through keeps, and no other call can change, holds along a run. -/
theorem states_kept {I : List PortEvent → (NonceScope → Versioned NonceState) → Prop}
    (h₀ : I [] World.initial.store.loadNonceState)
    (hquiet : ∀ {log e st}, swapped e = none → I log st → I (log ++ [e]) st)
    (hswap : ∀ {p : NoncePool} {i scope v s f note}, (nonceCalls.given cond).Reaches start p →
      cond p i (ev (.casNonceState scope v s f note) (.ok true)) → Swap p.world scope s note →
      I p.world.log p.world.store.loadNonceState →
      I (p.world.log ++ [ev (.casNonceState scope v s f note) (.ok true)])
        (Function.update p.world.store.loadNonceState scope ⟨s, v + 1⟩))
    (h : (nonceCalls.given cond).Reaches start p) :
    I p.world.log p.world.store.loadNonceState := by
  induction h with
  | refl => exact h₀
  | @tail p p' hreach hs ih =>
    cases hs with
    | spawn c _ => exact ih
    | @move i th o k x r hi hprog ha =>
      cases hq : swapped ⟨o, r⟩ with
      | none =>
        have hsame : (p.world.apply ⟨o, r⟩).store.loadNonceState = p.world.store.loadNonceState :=
          funext (loadNonceState_quiet hq)
        change I (p.world.log ++ [⟨o, r⟩]) (p.world.apply ⟨o, r⟩).store.loadNonceState
        rw [hsame]
        exact hquiet hq ih
      | some note =>
        obtain ⟨scope, v, s, f, he⟩ := swapped_eq_some hq
        cases he
        obtain ⟨hswap', hafter⟩ :=
          swap_of_reaches (System.Reaches.of_given hreach) (List.mem_of_getElem? hi) hprog ha.1
        change I (p.world.log ++ [ev (.casNonceState scope v s f note) (.ok true)])
          (p.world.apply (ev (.casNonceState scope v s f note) (.ok true))).store.loadNonceState
        rw [hafter]
        exact hswap hreach ha.2 hswap' ih

section Resets

/-- Nonce calls in which no release goes through below a reset. -/
abbrev steadyReleases : System ports World NonceCall (Except NonceManagerError (Option Nat)) :=
  nonceCalls.given fun p _ e => aboveResets p.world e

/-- A call of `reset` to `c` has returned. -/
def ResetReturned (p : NoncePool) (a : Address) (c : Nat) : Prop :=
  ∃ th ∈ p.threads, ∃ m, th.call = .reset m a c ∧ th.prog = .ret (.ok none)

/-- An account that was moved forward hands out nothing below. -/
theorem atLeast_of_wasReset (h : steadyReleases.Reaches start p) {a : Address} {c : Nat}
    (hc : WasReset p.world.log a c) : (p.world.store.loadNonceState ⟨a⟩).version ≠ 0 ∧
      (p.world.store.loadNonceState ⟨a⟩).value.AtLeast c := by
  refine states_kept (I := fun log st => ∀ a c, WasReset log a c → (st ⟨a⟩).version ≠ 0 ∧
    (st ⟨a⟩).value.AtLeast c) ?_ ?_ ?_ h a c hc
  · rintro a c ⟨_, _, _, hmem⟩
    cases hmem
  · intro log e st hq hI a c hc
    rcases hc.of_snoc with hc | ⟨v, s, f, rfl⟩
    · exact hI a c hc
    · cases hq
  · intro p i scope v s f note hreach hcond hsw hI a c hc
    obtain ⟨b⟩ := scope
    by_cases hab : a = b
    swap
    · rw [Function.update_of_ne (by simpa using hab)]
      refine hI a c (hc.of_snoc.resolve_right ?_)
      rintro ⟨_, _, _, he⟩
      cases he
      exact hab rfl
    subst hab
    rw [Function.update_self]
    refine ⟨Nat.succ_ne_zero v, ?_⟩
    rcases hc.of_snoc with hold | ⟨_, _, _, he⟩
    · obtain ⟨hv, hleast⟩ := hI a c hold
      cases note with
      | allocate n first =>
        obtain ⟨hfirst, hs⟩ := hsw.computes
        have hnone : first = none := by
          cases first with
          | none => rfl
          | some q => exact absurd (hfirst.mp rfl) hv
        rw [hnone] at hs
        exact (hleast.allocate hs).2
      | release n => exact hleast.release (le_of_aboveResets hcond hold) hsw.computes
      | reset d =>
        obtain rfl : NonceState.reset _ d = s := hsw.computes
        exact hleast.reset d
    · cases he
      obtain rfl : NonceState.reset _ c = s := hsw.computes
      exact NonceState.atLeast_reset _ c

/-- **After a reset the allocator stays at or above the chain**, as long as no nonce below it is
given back: in any interleaving of allocations, releases and resets in which no release goes
through below a reset of its account, once `reset` to `c` has returned, no `allocate` returns a
nonce below `c`. -/
theorem allocate_at_or_above_reset (h : steadyReleases.Reaches start p)
    (hs : steadyReleases.Step p p') {a : Address} {c : Nat} (hreset : p.ResetReturned a c)
    {j n : Nat} (hnew : p'.Returned a j n) (hold : ¬p.Returned a j n) : c ≤ n := by
  obtain ⟨th, hth, v, s, f, first, k, hprog, hcan, -⟩ :=
    returned_by_swap h.of_given hs.of_given hnew hold
  obtain ⟨hsw, -⟩ := swap_of_reaches h.of_given hth hprog hcan
  have hc : WasReset p.world.log a c := by
    obtain ⟨rt, hrt, m, hcall, hret⟩ := hreset
    have hend := h.of_given.history NonceCall.body_resets rfl rt hrt
    rw [hret] at hend
    obtain ⟨v, s, f, hmem⟩ := hend m a c hcall rfl
    exact ⟨v, s, f, backed_given.mem_log fresh h hrt hmem⟩
  obtain ⟨hv, hleast⟩ := atLeast_of_wasReset h hc
  obtain ⟨hfirst, hs'⟩ := hsw.computes
  cases first with
  | none => exact (hleast.allocate hs').1
  | some q => exact absurd (hfirst.mp rfl) hv

instance (a : Address) (c : Nat) : Decidable (p.ResetReturned a c) :=
  decidable_of_iff (p.threads.any fun th => match th.call, th.prog with
    | .reset _ b d, .ret (.ok none) => b = a && d = c
    | _, _ => false) (by
    simp only [List.any_eq_true, ResetReturned]
    refine exists_congr fun th => and_congr_right fun _ => ?_
    constructor
    · intro hmatch
      split at hmatch
      · rename_i m b d hcall hprog
        obtain ⟨rfl, rfl⟩ : b = a ∧ d = c := by simpa using hmatch
        exact ⟨m, hcall, hprog⟩
      · cases hmatch
    · rintro ⟨m, hcall, hprog⟩
      simp [hcall, hprog])

/-- A call gives its nonce back after a reset beyond it, and another allocation is about to swap. -/
def resetThenReleased : NoncePool :=
  System.played (S := nonceCalls) start
    [.spawn (.allocate (.new 3) 7), .moves 0 3 () pendingFive, .spawn (.reset (.new 3) 7 6),
      .moves 1 2 () pendingFive, .spawn (.release (.new 3) 7 5 0), .moves 2 2 () pendingFive,
      .spawn (.allocate (.new 3) 7), .moves 3 1 () pendingFive]

theorem release_brings_back_used_nonce : ∃ (p p' : NoncePool) (a : Address) (c j n : Nat),
    nonceCalls.Reaches start p ∧ nonceCalls.Step p p' ∧ p.ResetReturned a c ∧ p'.Returned a j n ∧
      ¬p.Returned a j n ∧ n < c := by
  have hreach : nonceCalls.Reaches start resetThenReleased := System.reaches_played _ _
  have hnew : ∃ p' : NoncePool, System.moveBy (S := nonceCalls) resetThenReleased 3 () pendingFive =
      some p' ∧ p'.Returned 7 3 5 := ⟨_, rfl, by decide⟩
  obtain ⟨p', hmove, hret⟩ := hnew
  exact ⟨resetThenReleased, p', 7, 6, 3, 5, hreach, System.step_of_moveBy hmove, by decide, hret,
    by decide, by decide⟩

/-- The nonce is given back before the reset. -/
def resetAfterRelease : NoncePool :=
  System.played (S := steadyReleases) start
    [.spawn (.allocate (.new 3) 7), .moves 0 3 () pendingFive, .spawn (.release (.new 3) 7 5 0),
      .moves 1 2 () pendingFive, .spawn (.reset (.new 3) 7 6), .moves 2 2 () pendingFive,
      .spawn (.allocate (.new 3) 7), .moves 3 1 () pendingFive]

theorem allocate_at_or_above_reset_six : ∃ p' : NoncePool,
    steadyReleases.Step resetAfterRelease p' ∧ resetAfterRelease.ResetReturned 7 6 ∧
      p'.Returned 7 3 6 ∧ ∀ n, p'.Returned 7 3 n → 6 ≤ n := by
  have hreach : steadyReleases.Reaches start resetAfterRelease := System.reaches_played _ _
  have hnew : ∃ p' : NoncePool, System.moveBy (S := steadyReleases) resetAfterRelease 3 ()
      pendingFive = some p' ∧ p'.Returned 7 3 6 := ⟨_, rfl, by decide⟩
  obtain ⟨p', hmove, hret⟩ := hnew
  have hstep : steadyReleases.Step resetAfterRelease p' := System.step_of_moveBy hmove
  have hreset : resetAfterRelease.ResetReturned 7 6 := by decide
  have hnone : resetAfterRelease.threads[3]?.bind returned = none := by decide
  exact ⟨p', hstep, hreset, hret, fun n hn => allocate_at_or_above_reset hreach hstep hreset hn
    (by simp [Returned, hnone])⟩

end Resets

section FirstUse

variable {mined pending : Address → Nat} {a : Address} {n : Nat}

/-- The chain reports these counts throughout: the pending nonce is as said, and accounts are
moved forward to the mined count only. -/
def reportsCounts (mined pending : Address → Nat) : PortEvent → Bool
  | ⟨.pendingNonce a, r⟩ => (r : Except RpcError Nat).toOption.all (· = pending a)
  | ⟨.casNonceState scope _ _ _ (.reset c), _⟩ => c = mined scope.account
  | _ => true

/-- Whether this is not a reset that goes through before the first allocation of its account,
with transactions of the account still pending. -/
def afterFirstUse (pending : Address → Nat) (w : World) : PortEvent → Bool
  | ⟨.casNonceState scope _ _ _ (.reset c), r⟩ =>
    match (r : Except StateStoreError Bool) with
    | .ok true => pending scope.account ≤ c || (firstAllocated scope.account w.log).isSome
    | _ => true
  | _ => true

/-- Nonce calls on such a chain. -/
abbrev countedNonces (mined pending : Address → Nat) :
    System ports World NonceCall (Except NonceManagerError (Option Nat)) :=
  nonceCalls.given fun _ _ e => reportsCounts mined pending e

/-- Nonce calls on such a chain, in which no account with pending transactions is reset before
its first allocation. -/
abbrev firstUsedNonces (mined pending : Address → Nat) :
    System ports World NonceCall (Except NonceManagerError (Option Nat)) :=
  nonceCalls.given fun p _ e => reportsCounts mined pending e ∧ afterFirstUse pending p.world e

/-- An account that nothing was allocated on is untouched, or has nothing below the pending
nonce; what was allocated first is not below it. -/
def Covered (pending : Address → Nat) (log : List PortEvent)
    (st : NonceScope → Versioned NonceState) : Prop :=
  ∀ a, match firstAllocated a log with
    | none => (st ⟨a⟩).version = 0 ∨ (st ⟨a⟩).value.AtLeast (pending a)
    | some n => pending a ≤ n

theorem covered_of_reaches (h : (firstUsedNonces mined pending).Reaches start p) :
    Covered pending p.world.log p.world.store.loadNonceState := by
  refine states_kept (I := Covered pending) (fun a => .inl rfl) (fun {log e st} hq hI a => ?_)
    (fun {p i scope v s f note} hreach hcond hsw hI a => ?_) h
  · rw [firstAllocated_snoc, allocatedOn_quiet hq, Option.or_none]
    exact hI a
  · obtain ⟨b⟩ := scope
    have hold := hI a
    rw [firstAllocated_snoc]
    cases hfirst : firstAllocated a p.world.log with
    | some m =>
      rw [hfirst] at hold
      exact hold
    | none =>
      rw [hfirst] at hold
      rw [Option.none_or]
      by_cases hab : a = b
      swap
      · rw [Function.update_of_ne (by simpa using hab)]
        have hother : allocatedOn a (ev (.casNonceState ⟨b⟩ v s f note) (.ok true)) = none := by
          cases note <;> simp [ev, allocatedOn, Ne.symm hab]
        rw [hother]
        exact hold
      subst hab
      rw [Function.update_self]
      cases note with
      | allocate m first =>
        simp only [ev, allocatedOn, if_pos]
        obtain ⟨hv, hs⟩ := hsw.computes
        cases first with
        | none =>
          have hleast := hold.resolve_left fun hz => by simp [hz] at hv
          exact (hleast.allocate hs).1
        | some q =>
          -- the first use: the counter starts at the pending nonce that was read
          have hq : q = pending a := by
            obtain ⟨l, l', hl⟩ := List.append_of_mem (hsw.pending m _ rfl q rfl)
            have hans := backed_given.log_answered (K := fun _ e => reportsCounts mined pending e)
              fresh (fun ha => ha.2.1) hreach l _ l' hl
            simpa [ev, reportsCounts, Except.toOption] using hans
          have habsent := backed_given.absent fresh hreach ⟨a⟩ (hv.mp rfl)
          have hleast : (LocalNonceManager.reconciled
              (p.world.store.loadNonceState ⟨a⟩).value (some q)).AtLeast (pending a) := by
            rw [show p.world.store.loadNonceState ⟨a⟩ = _ from habsent]
            exact ⟨hq.ge, by simp [LocalNonceManager.reconciled, Versioned.absent]⟩
          exact (hleast.allocate hs).1
      | release m =>
        obtain ⟨e, he, halloc⟩ := hsw.released m rfl
        have hnone := List.findSome?_eq_none_iff.mp hfirst e he
        simp [halloc] at hnone
      | reset c =>
        obtain rfl : NonceState.reset _ c = s := hsw.computes
        have hc : pending a ≤ c := by
          simpa [ev, afterFirstUse, hfirst] using hcond.2
        refine .inr ⟨hc.trans (NonceState.atLeast_reset _ c).1, fun m hm => ?_⟩
        exact hc.trans ((NonceState.atLeast_reset _ c).2 m hm)

/-- **The first allocation covers the mempool**, as long as no tick gets in before it while
transactions are pending: in any interleaving of allocations, releases and resets to the mined
count, on a chain whose counts stay as they are, in which no account with pending transactions is
reset before its first allocation, the first nonce ever allocated on an account is not below its
pending nonce. -/
theorem first_allocation_covers_pending (h : (firstUsedNonces mined pending).Reaches start p)
    (hn : firstAllocated a p.world.log = some n) : pending a ≤ n := by
  have hcov := covered_of_reaches h a
  rwa [hn] at hcov

/-- Four transactions are mined, six are pending. -/
def sixPending : World → (o : Op) → Option o.Reply := World.serve fun
  | .pendingNonce _ => some (.ok 6)
  | _ => none

def sendBeforeTick : NoncePool :=
  System.played (S := firstUsedNonces (fun _ => 4) fun _ => 6) start
    [.spawn (.allocate (.new 3) 7), .moves 0 3 () sixPending, .spawn (.reset (.new 3) 7 4),
      .moves 1 2 () sixPending]

theorem first_allocation_covers_pending_six :
    firstAllocated 7 sendBeforeTick.world.log = some 6 ∧ sendBeforeTick.ResetReturned 7 4 ∧
      ∀ n, firstAllocated 7 sendBeforeTick.world.log = some n → 6 ≤ n := by
  have hreach : (firstUsedNonces (fun _ => 4) fun _ => 6).Reaches start sendBeforeTick :=
    System.reaches_played _ _
  exact ⟨by decide, by decide, fun n hn => first_allocation_covers_pending hreach hn⟩

/-- The tick's reset comes first. -/
def tickBeforeSend : NoncePool :=
  System.played (S := countedNonces (fun _ => 4) fun _ => 6) start
    [.spawn (.reset (.new 3) 7 4), .moves 0 2 () sixPending, .spawn (.allocate (.new 3) 7),
      .moves 1 2 () sixPending]

theorem reset_hides_pending_nonce : ∃ (mined pending : Address → Nat) (p : NoncePool) (a : Address)
    (n : Nat), (∀ a, mined a ≤ pending a) ∧ (countedNonces mined pending).Reaches start p ∧
      firstAllocated a p.world.log = some n ∧ n < pending a :=
  ⟨fun _ => 4, fun _ => 6, tickBeforeSend, 7, 4, fun _ => by norm_num, System.reaches_played _ _,
    by decide, by decide⟩

end FirstUse

end NoncePool

end WalletKit
