import WalletKit.Nonces.Floor
import WalletKit.Runtime.Alone

/-!
# Nothing is leaked or invented

A nonce state is canonical when all that is free is below the top, and the nonce right below the
top is not. Such a state is determined by the nonces that are taken, so what several releases
leave does not depend on their order. In every run all stored states are canonical, and a taken
nonce has a holder unless the account was started above it or moved past it.
-/
namespace WalletKit

open Machine

namespace NonceState

/-- What is free is below the top, and the top is as low as it can be. -/
structure Canonical (s : NonceState) : Prop where
  freeBelow : s.FreeBelow
  topped : ∀ n, n + 1 = s.next → n ∉ s.free

section Canonical

variable {s s' : NonceState} {n : Nat}

theorem canonical_empty (next : Nat) : Canonical ⟨next, ∅⟩ := ⟨by simp [FreeBelow], by simp⟩

/-- Right below the top of a canonical state is a taken nonce. -/
theorem Canonical.taken_below (h : s.Canonical) (hn : n + 1 = s.next) : s.Taken n :=
  ⟨by omega, h.topped n hn⟩

theorem Canonical.next_le (h : s.Canonical) (ht : ∀ n, s.Taken n → s'.Taken n) :
    s.next ≤ s'.next := by
  cases hs : s.next with
  | zero => exact Nat.zero_le _
  | succ k => exact (ht k (h.taken_below hs.symm)).1

/-- A canonical state is determined by what is taken. -/
theorem Canonical.eq_of_taken (h : s.Canonical) (h' : s'.Canonical)
    (ht : ∀ n, s.Taken n ↔ s'.Taken n) : s = s' := by
  have hnext : s.next = s'.next :=
    le_antisymm (h.next_le fun n => (ht n).mp) (h'.next_le fun n => (ht n).mpr)
  have hfree : s.free = s'.free := by
    ext n
    by_cases hn : n < s.next
    · have := ht n
      simp only [Taken, hn, ← hnext, true_and] at this
      exact not_iff_not.mp this
    · exact ⟨fun hf => absurd (h.freeBelow n hf) hn,
        fun hf => absurd (h'.freeBelow n hf) (hnext ▸ hn)⟩
  cases s
  cases s'
  simp_all

theorem absorb_topped (k : Nat) (free : Finset Nat) :
    ∀ n, n + 1 = (absorb k free).next → n ∉ (absorb k free).free := by
  induction k generalizing free with
  | zero => simp [absorb]
  | succ k ih =>
    unfold absorb
    split
    · exact ih _
    · rename_i hk
      intro n hn
      obtain rfl : n = k := by simpa using hn
      exact hk

theorem Canonical.allocate (h : s.Canonical) (hs : s.allocate = (n, s')) : s'.Canonical := by
  refine ⟨(taken_allocate h.freeBelow hs).2.1, ?_⟩
  rcases s.allocate_cases with ⟨-, hs'⟩ | ⟨-, hs'⟩
  · rw [hs] at hs'
    dsimp only at hs'
    subst hs'
    exact fun m hm hf => h.topped m hm (Finset.mem_of_mem_erase hf)
  · rw [hs, Prod.mk.injEq] at hs'
    obtain ⟨-, rfl⟩ := hs'
    simp

theorem Canonical.release (h : s.Canonical) (hn : s.Taken n) (hs : s.release n = some s') :
    s'.Canonical := by
  refine ⟨(taken_release h.freeBelow hn hs).1, ?_⟩
  unfold NonceState.release at hs
  split at hs
  · cases hs
  split at hs
  · cases hs
    exact absorb_topped _ _
  · rename_i htop
    cases hs
    intro m hm hf
    rcases Finset.mem_insert.mp hf with rfl | hf
    · exact htop hm
    · exact h.topped m hm hf

theorem Canonical.reset (h : s.Canonical) (c : Nat) : (s.reset c).Canonical := by
  refine ⟨(taken_reset h.freeBelow c).1, fun n hn hf => ?_⟩
  obtain ⟨hfree, hc⟩ := Finset.mem_filter.mp hf
  have hlt := h.freeBelow n hfree
  have hnext : (s.reset c).next = max s.next c := rfl
  exact h.topped n (by omega) hfree

/-- Giving back what was just allocated restores the state. -/
theorem Canonical.release_allocate (h : s.Canonical) (hs : s.allocate = (n, s')) :
    s'.release n = some s := by
  obtain ⟨hfresh, hf, htaken⟩ := taken_allocate h.freeBelow hs
  have hn : s'.Taken n := (htaken n).mpr (.inr rfl)
  obtain ⟨s'', hs''⟩ := Option.isSome_iff_exists.mp (release_isSome hn.1)
  obtain ⟨-, htaken'⟩ := taken_release hf hn hs''
  rw [hs'']
  refine congrArg some (((h.allocate hs).release hn hs'').eq_of_taken h fun m => ?_)
  rw [htaken', htaken]
  refine ⟨fun hm => hm.1.resolve_right hm.2, fun hm => ⟨.inl hm, ?_⟩⟩
  rintro rfl
  exact hfresh hm

end Canonical

end NonceState

namespace Book

variable {b : Book} {a : Address} {i j n : Nat} {c : NonceCall} {note : CasNote}

theorem granted_append (h : b.Granted a i n) : Granted (b ++ [(c, [])]) a i n := by
  obtain ⟨m, first, h⟩ := h
  exact ⟨m, first, by rwa [List.getElem?_append_left (List.getElem?_eq_some_iff.mp h).1]⟩

/-- A call that has done nothing yet ends no holding. -/
theorem holds_append (h : b.Holds a i n) : Holds (b ++ [(c, [])]) a i n := by
  refine ⟨granted_append h.1, fun ⟨x, hx, hr, hne⟩ => ?_⟩
  rcases List.mem_append.mp hx with hx | hx
  · exact h.2 ⟨x, hx, hr, hne⟩
  · rw [List.mem_singleton.mp hx] at hne
    exact hne rfl

/-- A swap ends no holding but the one it is made for. -/
theorem holds_set (hi : b[i]? = some (c, [])) (h : b.Holds a j n) (hc : c.releases j = false) :
    Holds (b.set i (c, [note])) a j n := by
  obtain ⟨⟨m, first, hg⟩, hnot⟩ := h
  have hij : i ≠ j := by
    rintro rfl
    rw [hi] at hg
    cases hg
  refine ⟨⟨m, first, by rwa [List.getElem?_set_ne hij]⟩, fun ⟨x, hx, hr, hne⟩ => ?_⟩
  rcases List.mem_or_eq_of_mem_set hx with hx | rfl
  · exact hnot ⟨x, hx, hr, hne⟩
  · rw [hc] at hr
    cases hr

/-- Nothing is given back for a call that has not been given anything. -/
theorem Kept.not_releases {s : NonceScope → Versioned NonceState} (h : Kept s b)
    (hi : b[i]? = some (c, [])) {x : NonceCall × List CasNote} (hx : x ∈ b) :
    x.1.releases i = false := by
  obtain ⟨j, hj⟩ := List.mem_iff_getElem?.mp hx
  cases hcall : x.1 with
  | release m a n k =>
    by_contra hk
    obtain rfl : k = i := by simpa [NonceCall.releases] using hk
    obtain ⟨⟨_, _, hg⟩, -⟩ := h.released j m a n k (by simp [callAt, hj, hcall])
    rw [hi] at hg
    cases hg
  | allocate | reset => rfl

/-- A release ends a holding of its own account. -/
theorem Kept.releases_account {s : NonceScope → Versioned NonceState} (h : Kept s b)
    (hi : b[i]? = some (c, [])) (hg : b.Granted a j n) (hc : c.releases j) : c.account = a := by
  cases c with
  | release m a' n' k =>
    obtain rfl : k = j := by simpa [NonceCall.releases] using hc
    obtain ⟨⟨_, _, hg'⟩, -⟩ := h.released i m a' n' k (by simp [callAt, hi])
    obtain ⟨_, _, hg⟩ := hg
    rw [hg] at hg'
    cases hg'
    rfl
  | allocate | reset => cases hc

/-- A call is given one nonce. -/
theorem granted_unique {m : Nat} (h : b.Granted a i n) (h' : b.Granted a i m) : n = m := by
  obtain ⟨_, _, h⟩ := h
  obtain ⟨_, _, h'⟩ := h'
  rw [h] at h'
  cases h'
  rfl

end Book

/-- How far a swap starts or moves an account. -/
def startsAt (a : Address) : PortEvent → Nat
  | ⟨.casNonceState scope _ _ _ note, r⟩ =>
    match note, (r : Except StateStoreError Bool) with
    | .allocate _ (some pending), .ok true => if scope = ⟨a⟩ then pending else 0
    | .reset c, .ok true => if scope = ⟨a⟩ then c else 0
    | _, _ => 0
  | _ => 0

/-- The largest of the pending nonce an account was started at and all it was reset to. -/
def floorOf (a : Address) (log : List PortEvent) : Nat := (log.map (startsAt a)).foldr max 0

theorem floorOf_snoc (a : Address) (log : List PortEvent) (e : PortEvent) :
    floorOf a (log ++ [e]) = max (floorOf a log) (startsAt a e) := by
  induction log with
  | nil => simp [floorOf]
  | cons x log ih =>
    unfold floorOf at ih ⊢
    simp only [List.cons_append, List.map_cons, List.foldr_cons, ih, max_assoc]

namespace NoncePool

variable {p q : NoncePool} {a : Address}

/-- Everything a step can be: a new call, an event that is no successful swap, or one. -/
theorem step_cases (h : nonceCalls.Reaches start p) (hs : nonceCalls.Step p q) :
    (∃ c, q.world = p.world ∧ q.book = p.book ++ [(c, [])]) ∨
    (∃ e, swapped e = none ∧ q.world.log = p.world.log ++ [e] ∧
      q.world.store.loadNonceState = p.world.store.loadNonceState ∧ q.book = p.book) ∨
    ∃ i c v s f note, p.book[i]? = some (c, []) ∧ c.Swaps note ∧
      Swap p.world ⟨c.account⟩ s note ∧
      q.world.log = p.world.log ++ [ev (.casNonceState ⟨c.account⟩ v s f note) (.ok true)] ∧
      q.world.store.loadNonceState =
        Function.update p.world.store.loadNonceState ⟨c.account⟩ ⟨s, v + 1⟩ ∧
      q.book = p.book.set i (c, [note]) := by
  cases hs with
  | spawn c _ => exact .inl ⟨c, rfl, book_spawn c _⟩
  | @move i th o k x r hi hprog hcan =>
    refine .inr ?_
    have hth := List.mem_of_getElem? hi
    cases hq : swapped ⟨o, r⟩ with
    | none =>
      have hsw : swaps (th.past ++ [⟨o, r⟩]) = swaps th.past := by simp [swaps, hq]
      obtain ⟨_, hget⟩ := List.getElem?_eq_some_iff.mp (book_get hi)
      refine .inl ⟨⟨o, r⟩, hq, rfl, funext (loadNonceState_quiet hq), ?_⟩
      rw [book_answer, hsw, ← hget, List.set_getElem_self]
    | some note =>
      obtain ⟨scope, v, s, f, he⟩ := swapped_eq_some hq
      cases he
      obtain ⟨hswap, hafter⟩ := swap_of_reaches h hth hprog hcan
      have hcall := h.history NonceCall.body_history rfl th hth
      rw [hprog] at hcall
      obtain ⟨hnone, rfl, hsw, -⟩ := (Prog.wp_history_call.mp hcall).1
      refine .inr ⟨i, th.call, v, s, f, note, by rw [book_get hi, hnone], hsw, hswap, rfl,
        hafter, ?_⟩
      rw [book_answer, swaps_append, hnone]
      rfl

/-- What is known of one account between its state and the book. -/
structure Complete (log : List PortEvent) (s : Versioned NonceState) (b : Book) (a : Address) :
    Prop where
  canonical : s.value.Canonical
  covered : ∀ n, s.value.Taken n → floorOf a log ≤ n → ∃ i, b.Holds a i n

section Swaps

variable {log : List PortEvent} {st : NonceScope → Versioned NonceState} {b : Book} {i v n : Nat}
  {s : NonceState} {f : FenceToken} {m : LocalNonceManager}

theorem Complete.allocate {first : Option Nat} (h : Complete log (st ⟨a⟩) b a) (hkept : b.Kept st)
    (hi : b[i]? = some (.allocate m a, []))
    (hcomp : CasNote.Computes (st ⟨a⟩) s (.allocate n first)) :
    Complete (log ++ [ev (.casNonceState ⟨a⟩ v s f (.allocate n first)) (.ok true)]) ⟨s, v + 1⟩
      (b.set i (.allocate m a, [.allocate n first])) a := by
  obtain ⟨hfirst, hs⟩ := hcomp
  -- the caller holds what it was given
  have hnew : Book.Holds (b.set i (.allocate m a, [.allocate n first])) a i n := by
    refine ⟨⟨m, first, by rw [List.getElem?_set_self (List.getElem?_eq_some_iff.mp hi).1]⟩, ?_⟩
    rintro ⟨x, hx, hr, -⟩
    rcases List.mem_or_eq_of_mem_set hx with hx | rfl
    · rw [hkept.not_releases hi hx] at hr
      cases hr
    · cases hr
  cases first with
  | none =>
    obtain ⟨-, -, htaken⟩ := NonceState.taken_allocate h.canonical.freeBelow hs
    refine ⟨h.canonical.allocate hs, fun x hx hle => ?_⟩
    rw [floorOf_snoc] at hle
    rcases (htaken x).mp hx with hx | rfl
    · obtain ⟨j, hj⟩ := h.covered x hx ((le_max_left _ _).trans hle)
      exact ⟨j, Book.holds_set hi hj rfl⟩
    · exact ⟨i, hnew⟩
  | some pending =>
    have habsent : st ⟨a⟩ = .absent := hkept.absent _ (hfirst.mp rfl)
    have hempty : LocalNonceManager.reconciled (st ⟨a⟩).value (some pending) = ⟨pending, ∅⟩ := by
      simp [LocalNonceManager.reconciled, habsent, Versioned.absent]
    rw [hempty] at hs
    have hcanonical := NonceState.canonical_empty pending
    obtain ⟨-, -, htaken⟩ := NonceState.taken_allocate hcanonical.freeBelow hs
    refine ⟨hcanonical.allocate hs, fun x hx hle => ?_⟩
    rw [floorOf_snoc] at hle
    rcases (htaken x).mp hx with hx | rfl
    · -- below where the account was started
      have hlt : x < pending := hx.1
      have hstart : startsAt a (ev (.casNonceState ⟨a⟩ v s f (.allocate n (some pending)))
          (.ok true)) = pending := by simp [ev, startsAt]
      omega
    · exact ⟨i, hnew⟩

theorem Complete.release {k : Nat} (h : Complete log (st ⟨a⟩) b a) (hkept : b.Kept st)
    (hi : b[i]? = some (.release m a n k, []))
    (hcomp : CasNote.Computes (st ⟨a⟩) s (.release n)) :
    Complete (log ++ [ev (.casNonceState ⟨a⟩ v s f (.release n)) (.ok true)]) ⟨s, v + 1⟩
      (b.set i (.release m a n k, [.release n])) a := by
  have hholds : b.Holds a k n := hkept.holds_of_release hi
  have hn : (st ⟨a⟩).value.Taken n := (hkept.ledger a).taken k n hholds
  obtain ⟨-, htaken⟩ := NonceState.taken_release h.canonical.freeBelow hn hcomp
  refine ⟨h.canonical.release hn hcomp, fun x hx hle => ?_⟩
  rw [floorOf_snoc] at hle
  obtain ⟨hx, hne⟩ := (htaken x).mp hx
  obtain ⟨j, hj⟩ := h.covered x hx ((le_max_left _ _).trans hle)
  refine ⟨j, Book.holds_set hi hj ?_⟩
  -- the holder of another nonce is another call
  have hkj : k ≠ j := by
    rintro rfl
    exact hne (Book.granted_unique hj.1 hholds.1)
  simpa [NonceCall.releases] using hkj

theorem Complete.reset {c : Nat} (h : Complete log (st ⟨a⟩) b a)
    (hi : b[i]? = some (.reset m a c, [])) (hcomp : CasNote.Computes (st ⟨a⟩) s (.reset c)) :
    Complete (log ++ [ev (.casNonceState ⟨a⟩ v s f (.reset c)) (.ok true)]) ⟨s, v + 1⟩
      (b.set i (.reset m a c, [.reset c])) a := by
  obtain rfl : (st ⟨a⟩).value.reset c = s := hcomp
  obtain ⟨-, -, htaken⟩ := NonceState.taken_reset h.canonical.freeBelow c
  refine ⟨h.canonical.reset c, fun x hx hle => ?_⟩
  have hmoved : startsAt a (ev (.casNonceState ⟨a⟩ v ((st ⟨a⟩).value.reset c) f (.reset c))
      (.ok true)) = c := by simp [ev, startsAt]
  rw [floorOf_snoc, hmoved] at hle
  obtain ⟨j, hj⟩ := h.covered x (htaken x hx ((le_max_right _ _).trans hle))
    ((le_max_left _ _).trans hle)
  exact ⟨j, Book.holds_set hi hj rfl⟩

end Swaps

theorem complete_of_reaches (h : nonceCalls.Reaches start p) (a : Address) :
    Complete p.world.log (p.world.store.loadNonceState ⟨a⟩) p.book a := by
  induction h with
  | refl =>
    exact ⟨NonceState.canonical_empty 0, fun n hn =>
      absurd hn (NonceState.not_taken_of_next_le (Nat.zero_le n))⟩
  | @tail p q hreach hs ih =>
    rcases step_cases hreach hs with ⟨c, hworld, hbook⟩ | ⟨e, -, hlog, hload, hbook⟩ |
      ⟨i, c, v, s, f, note, hi, hc, hsw, hlog, hload, hbook⟩
    · rw [hworld, hbook]
      exact ⟨ih.canonical, fun n hn hle =>
        (ih.covered n hn hle).imp fun i hi => Book.holds_append hi⟩
    · rw [hlog, hload, hbook]
      refine ⟨ih.canonical, fun n hn hle => ih.covered n hn ?_⟩
      rw [floorOf_snoc] at hle
      exact (le_max_left _ _).trans hle
    · have hkept := (sound_of_reaches hreach).kept
      rw [hlog, hload, hbook]
      by_cases ha : a = c.account
      swap
      · rw [Function.update_of_ne (by simpa using ha)]
        refine ⟨ih.canonical, fun n hn hle => ?_⟩
        rw [floorOf_snoc] at hle
        obtain ⟨j, hj⟩ := ih.covered n hn ((le_max_left _ _).trans hle)
        refine ⟨j, Book.holds_set hi hj ?_⟩
        by_contra hrel
        exact ha (hkept.releases_account hi hj.1 (by simpa using hrel)).symm
      subst ha
      rw [Function.update_self]
      cases c with
      | allocate m a =>
        obtain ⟨n, first, rfl⟩ := hc
        exact ih.allocate hkept hi hsw.computes
      | release m a n k =>
        obtain rfl := hc
        exact ih.release hkept hi hsw.computes
      | reset m a d =>
        obtain rfl := hc
        exact ih.reset hi hsw.computes

section Returns

/-- An allocation goes on until it has swapped. -/
def untilSwap (c : NonceCall) : Spec ports (List PortEvent) where
  step h o r h' := h' = h ++ [⟨o, r⟩]
  owes _ _ := True
  stuck h := ∀ m a, c = .allocate m a → swaps h = []

theorem asks_untilSwap {c : NonceCall} {o : Op} {Q : o.Reply → List PortEvent → Prop}
    {past : List PortEvent} : Spec.Asks (untilSwap c) o Q past ↔ ∀ r, Q r (past ++ [ev o r]) := by
  refine ⟨fun h r => h.2 r _ rfl, fun h => ⟨trivial, ?_⟩⟩
  rintro r _ rfl
  exact h r

theorem swaps_quiet {past : List PortEvent} {e : PortEvent} (h : swaps past = [])
    (he : swapped e = none) : swaps (past ++ [e]) = [] := by
  rw [swaps_append, h]
  simp [swaps, he]

/-- An allocation that has swapped returns what it took. -/
theorem allocateLoop_untilSwap {c : NonceCall} (m : LocalNonceManager) (a : Address) (rounds : Nat)
    {past : List PortEvent} (hpast : swaps past = []) :
    (m.allocateLoop a rounds).run.wp (untilSwap c) (fun r past =>
      ∀ n first, swaps past = [.allocate n first] → r = .ok n) past := by
  have failed : ∀ {past : List PortEvent} {r : Except NonceManagerError Nat}, swaps past = [] →
      ∀ n first, swaps past = [.allocate n first] → r = .ok n := by
    intro past r h n first h'
    rw [h] at h'
    cases h'
  induction rounds generalizing past with
  | zero => exact fun _ _ _ => hpast
  | succ rounds ih =>
    have swap : ∀ {past : List PortEvent} (v n : Nat) (s : NonceState) (first : Option Nat),
        swaps past = [] → (do
          if ← m.cas ⟨a⟩ v s (.allocate n first) then return n
          m.allocateLoop a rounds : ExceptT NonceManagerError Io Nat).run.wp (untilSwap c)
        (fun r past => ∀ n first, swaps past = [.allocate n first] → r = .ok n) past := by
      intro past v n s first hpast
      unfold LocalNonceManager.cas
      simp only [Prog.wp_run_bind, Prog.wp_run_orThrow, StateStore.wp_casNonceState, asks_untilSwap]
      rintro (e | _ | _)
      · exact failed (swaps_quiet hpast rfl)
      · exact ih (swaps_quiet hpast rfl)
      · intro n' first' hsw
        rw [swaps_append, hpast] at hsw
        cases hsw
        rfl
    unfold LocalNonceManager.allocateLoop LocalNonceManager.load
    refine Prog.wp_run_bind.mpr (Prog.wp_run_orThrow.mpr ?_)
    refine (StateStore.wp_loadNonceState).mpr (asks_untilSwap.mpr fun r => ?_)
    cases r with
    | error e => exact failed (swaps_quiet hpast rfl)
    | ok loaded =>
      have hloaded : swaps (past ++ [ev (.loadNonceState ⟨a⟩) (.ok loaded)]) = [] :=
        swaps_quiet hpast rfl
      refine Prog.wp_run_bind.mpr (LocalNonceManager.wp_firstUse
        (fun _ => asks_untilSwap.mpr fun r => ?_) fun _ => swap _ _ _ _ hloaded)
      cases r with
      | error e => exact failed (swaps_quiet hloaded rfl)
      | ok pending => exact swap _ _ _ _ (swaps_quiet hloaded rfl)

/-- What a swap has given to a call is what the call returns. -/
theorem returned_of_granted (h : nonceCalls.Reaches start p) {i n : Nat}
    (hg : p.book.Granted a i n) : p.Returned a i n := by
  obtain ⟨m, first, hg⟩ := hg
  obtain ⟨th, hi, hth⟩ : ∃ th, p.threads[i]? = some th ∧
      (th.call, swaps th.past) = (.allocate m a, [.allocate n first]) := by
    simpa [book] using hg
  obtain ⟨hcall, hsw⟩ := Prod.mk.inj hth
  have hmem := List.mem_of_getElem? hi
  have htraced := h.traced (σ := untilSwap) (Q := fun c r past => ∀ m a n first,
    c = .allocate m a → swaps past = [.allocate n first] → r = .ok (some n))
    (fun _ _ _ _ => rfl) ?_ rfl th hmem
  · cases hprog : th.prog with
    | call o k =>
      rw [swaps_poised h hmem hprog] at hsw
      cases hsw
    | halt =>
      rw [hprog] at htraced
      rw [htraced m a hcall] at hsw
      cases hsw
    | ret r =>
      rw [hprog] at htraced
      have hr : r = .ok (some n) := htraced m a n first hcall hsw
      simp [Returned, hi, returned, hcall, hprog, hr]
  · intro c
    cases c with
    | allocate m a =>
      refine Prog.wp_run_map.mpr (Prog.wp_mono (allocateLoop_untilSwap m a m.attempts rfl) ?_)
      rintro r past hr _ _ n first ⟨rfl, rfl⟩ hsw
      rw [hr n first hsw]
      rfl
    | release | reset =>
      exact Prog.wp_of_trivial _ _ (fun _ _ => trivial) (by rintro _ _ _ ⟨⟩)
        (by rintro _ _ _ _ _ _ ⟨⟩)

theorem held_iff (h : nonceCalls.Reaches start p) {i n : Nat} :
    p.Held a i n ↔ p.book.Holds a i n :=
  ⟨fun hh => ⟨granted_of_returned h hh.1, fun hr => hh.2 (released_iff.mpr hr)⟩,
    fun hh => ⟨returned_of_granted h hh.1, fun hr => hh.2 (released_iff.mp hr)⟩⟩

end Returns

section Restores

open LocalNonceManager World

variable {w : World} {m : LocalNonceManager}

/-- Alone, one round of a loop swaps what it has computed from the stored state. -/
theorem casOrRetry_swaps {α : Type} {v : Nat} {s : NonceState} {note : CasNote} {x : α}
    {retry : ExceptT NonceManagerError Io α} {Q : Except NonceManagerError α → World → Prop}
    (hv : v = (w.store.loadNonceState ⟨a⟩).version)
    (hQ : ∀ u, u.store.loadNonceState ⟨a⟩ = ⟨s, v + 1⟩ → Q (.ok x) u) :
    (do if ← m.cas ⟨a⟩ v s note then return x
        retry).run.wp alone Q w := by
  subst hv
  unfold cas
  simp only [Prog.wp_run_bind, Prog.wp_run_orThrow, StateStore.wp_casNonceState]
  refine asks_alone.mpr fun r hc hw => ?_
  rcases r with _ | _ | _
  · cases hw
  · cases Store.casNonceState_loaded (of_decide_eq_true hc)
  · refine hQ _ ?_
    rw [(loadNonceState_swap hc).2, if_pos rfl]

/-- Alone, a load reports the stored state. -/
theorem load_reports {α : Type} {f : Versioned NonceState → ExceptT NonceManagerError Io α}
    {Q : Except NonceManagerError α → World → Prop}
    (hQ : ∀ u, u.store = w.store → (f (w.store.loadNonceState ⟨a⟩)).run.wp alone Q u) :
    (load ⟨a⟩ >>= f).run.wp alone Q w := by
  unfold load
  simp only [Prog.wp_run_bind, Prog.wp_run_orThrow, StateStore.wp_loadNonceState]
  refine asks_alone.mpr fun r hc hw => ?_
  cases r with
  | error => cases hw
  | ok v =>
    obtain rfl : v = w.store.loadNonceState ⟨a⟩ := of_decide_eq_true hc
    exact hQ _ rfl

/-- Allocating on an account that was used before, and nothing else. -/
theorem allocate_alone_swaps (hv : (w.store.loadNonceState ⟨a⟩).version ≠ 0)
    {Q : Except NonceManagerError Nat → World → Prop}
    (hQ : ∀ u k, u.store.loadNonceState ⟨a⟩ =
      ⟨(w.store.loadNonceState ⟨a⟩).value.allocate.2, k⟩ →
      Q (.ok (w.store.loadNonceState ⟨a⟩).value.allocate.1) u) :
    (m.allocate a).run.wp alone Q w := by
  unfold LocalNonceManager.allocate
  cases m.attempts with
  | zero => trivial
  | succ rounds =>
    refine load_reports fun u hu => ?_
    refine Prog.wp_run_bind.mpr (wp_firstUse (fun h₀ => absurd h₀ hv) fun _ => ?_)
    exact casOrRetry_swaps (by rw [hu]) fun u hu => hQ u _ hu

theorem release_alone_swaps {n : Nat} {s : NonceState}
    (hs : (w.store.loadNonceState ⟨a⟩).value.release n = some s)
    {Q : Except NonceManagerError Unit → World → Prop}
    (hQ : ∀ u k, u.store.loadNonceState ⟨a⟩ = ⟨s, k⟩ → Q (.ok ()) u) :
    (m.release a n).run.wp alone Q w := by
  unfold LocalNonceManager.release
  cases m.attempts with
  | zero => trivial
  | succ rounds =>
    refine load_reports fun u hu => ?_
    simp only [hs]
    exact casOrRetry_swaps (by rw [hu]) fun u hu => hQ u _ hu

end Restores

/-- **The allocator neither leaks nor invents.** In every run, what is free and what is held are
apart and below the top, the nonce right below the top is not free, and every nonce from the floor
of the account up to the top is free or held. So an allocation that is given back directly leaves
the state it has found. -/
theorem free_or_held (h : nonceCalls.Reaches start p) (a : Address) :
    let s := p.world.store.loadNonceState ⟨a⟩
    (∀ i n, p.Held a i n → n ∉ s.value.free ∧ n < s.value.next) ∧
    (∀ n ∈ s.value.free, n < s.value.next) ∧ (∀ n, n + 1 = s.value.next → n ∉ s.value.free) ∧
    (∀ n, floorOf a p.world.log ≤ n → n < s.value.next →
      n ∈ s.value.free ∨ ∃ i, p.Held a i n) ∧
    (s.version ≠ 0 → ∀ m m' : LocalNonceManager, (m.allocate a).run.wp World.alone (fun r v =>
      ∃ n, r = .ok n ∧ (m'.release a n).run.wp World.alone (fun r' u =>
        r' = .ok () ∧ (u.store.loadNonceState ⟨a⟩).value = s.value) v) p.world) := by
  obtain ⟨hcanonical, hcovered⟩ := complete_of_reaches h a
  have hledger := (sound_of_reaches h).kept.ledger a
  refine ⟨fun i n hheld => ?_, hcanonical.freeBelow, hcanonical.topped, fun n hle hlt => ?_,
    fun hv m m' => ?_⟩
  · exact (hledger.taken i n ((held_iff h).mp hheld)).symm
  · by_cases hfree : n ∈ (p.world.store.loadNonceState ⟨a⟩).value.free
    · exact .inl hfree
    · obtain ⟨i, hi⟩ := hcovered n ⟨hlt, hfree⟩ hle
      exact .inr ⟨i, (held_iff h).mpr hi⟩
  · refine allocate_alone_swaps hv fun u k hu => ⟨_, rfl, ?_⟩
    refine release_alone_swaps (s := (p.world.store.loadNonceState ⟨a⟩).value) ?_
      fun u k hu => ⟨rfl, by rw [hu]⟩
    rw [hu]
    exact hcanonical.release_allocate rfl

section Orders

/-- The swaps of an account that went through, oldest first. -/
def swapsOn (a : Address) (log : List PortEvent) : List CasNote :=
  log.filterMap fun
    | ⟨.casNonceState scope _ _ _ note, r⟩ =>
      if scope = ⟨a⟩ ∧ (r : Except StateStoreError Bool).toOption = some true then some note
      else none
    | _ => none

theorem swapsOn_snoc (a : Address) (log : List PortEvent) (e : PortEvent) :
    swapsOn a (log ++ [e]) = swapsOn a log ++ swapsOn a [e] := List.filterMap_append

theorem swapsOn_quiet {e : PortEvent} (h : swapped e = none) (a : Address) :
    swapsOn a [e] = [] := by
  obtain ⟨o, r⟩ := e
  cases o with
  | casNonceState scope v s f note =>
    match r with
    | .ok true => cases h
    | .ok false => simp [swapsOn, Except.toOption]
    | .error _ => simp [swapsOn, Except.toOption]
  | _ => rfl

/-- Since then the swaps that went through on this account are these releases, in this order. -/
def ReleasedSince (p q : NoncePool) (a : Address) (ns : List Nat) : Prop :=
  ∃ l, q.world.log = p.world.log ++ l ∧ swapsOn a l = ns.map .release

/-- The log only grows. -/
theorem log_suffix (h : nonceCalls.Reaches p q) : ∃ l, q.world.log = p.world.log ++ l := by
  refine h.invariant (I := fun q => ∃ l, q.world.log = p.world.log ++ l) ⟨[], by simp⟩ ?_
  rintro q q' ⟨l, hl⟩ hs
  cases hs with
  | spawn c _ => exact ⟨l, hl⟩
  | @move i th o k x r hi hprog _ => exact ⟨l ++ [⟨o, r⟩], by
      change q.world.log ++ [⟨o, r⟩] = _
      rw [hl, List.append_assoc]⟩

/-- What was taken and is not among what was given back is taken. -/
theorem taken_since (h : nonceCalls.Reaches start p) (hq : nonceCalls.Reaches p q) {ns : List Nat}
    (hns : ReleasedSince p q a ns) (n : Nat) :
    (q.world.store.loadNonceState ⟨a⟩).value.Taken n ↔
      (p.world.store.loadNonceState ⟨a⟩).value.Taken n ∧ n ∉ ns := by
  induction hq generalizing ns with
  | refl =>
    obtain ⟨l, hl, hsw⟩ := hns
    obtain rfl : l = [] := by simpa using hl
    obtain rfl : ns = [] := by simpa [swapsOn] using hsw.symm
    simp
  | @tail q q' hreach hs ih =>
    have hstart : nonceCalls.Reaches start q := h.trans hreach
    obtain ⟨l, hl, hsw⟩ := hns
    obtain ⟨before, hbefore⟩ := log_suffix hreach
    have split : ∀ e, q'.world.log = q.world.log ++ [e] →
        swapsOn a before ++ swapsOn a [e] = ns.map .release := by
      intro e he
      rw [he, hbefore, List.append_assoc] at hl
      rw [← swapsOn_snoc, List.append_cancel_left hl, hsw]
    rcases step_cases hstart hs with ⟨c, hworld, -⟩ | ⟨e, hquiet, hlog, hload, -⟩ |
      ⟨i, c, v, s, f, note, hi, hc, hswap, hlog, hload, -⟩
    · rw [hworld] at hl ⊢
      exact ih ⟨l, hl, hsw⟩
    · have hns := split e hlog
      rw [swapsOn_quiet hquiet, List.append_nil] at hns
      rw [hload]
      exact ih ⟨before, hbefore, hns⟩
    · have hns := split _ hlog
      by_cases ha : a = c.account
      swap
      · have hother : swapsOn a [ev (.casNonceState ⟨c.account⟩ v s f note) (.ok true)] = [] := by
          simp [swapsOn, ev, Ne.symm ha]
        rw [hother, List.append_nil] at hns
        rw [hload, Function.update_of_ne (by simpa using ha)]
        exact ih ⟨before, hbefore, hns⟩
      subst ha
      have hlast : swapsOn c.account [ev (.casNonceState ⟨c.account⟩ v s f note) (.ok true)] =
          [note] := by simp [swapsOn, ev, Except.toOption]
      rw [hlast] at hns
      obtain ⟨earlier, last, rfl, hearlier, hnote⟩ := List.append_eq_map_iff.mp hns
      obtain ⟨m, rfl, rfl⟩ : ∃ m, last = [m] ∧ note = .release m := by
        obtain ⟨m, rfl, hm⟩ := List.map_eq_singleton_iff.mp hnote
        exact ⟨m, rfl, hm.symm⟩
      have hkept := (sound_of_reaches hstart).kept
      have htaken : (q.world.store.loadNonceState ⟨c.account⟩).value.Taken m := by
        cases c with
        | release _ a n k =>
          obtain rfl : m = n := by simpa [NonceCall.Swaps] using hc
          exact (hkept.ledger a).taken k m (hkept.holds_of_release hi)
        | allocate => simp [NonceCall.Swaps] at hc
        | reset => simp [NonceCall.Swaps] at hc
      obtain ⟨-, hrel⟩ := NonceState.taken_release (hkept.ledger c.account).freeBelow htaken
        hswap.computes
      rw [hload, Function.update_self, hrel, ih ⟨before, hbefore, hearlier.symm⟩]
      simp [and_assoc]

/-- A release that returns has swapped, or has found its nonce at or above the top. -/
def ReleaseEnds (c : NonceCall) (r : Except NonceManagerError (Option Nat))
    (past : List PortEvent) : Prop :=
  ∀ m a n k, c = .release m a n k → r = .ok none → .release n ∈ swaps past ∨
    ∃ v : Versioned NonceState, ev (.loadNonceState ⟨a⟩) (.ok v) ∈ past ∧ v.value.next ≤ n

theorem body_releaseEnds (c : NonceCall) :
    c.body.wp (.history fun _ _ => True) (ReleaseEnds c) [] := by
  cases c with
  | release m a n k =>
    refine Prog.wp_run_map.mpr (LocalNonceManager.releaseLoop_history (P := fun _ => True)
      (fun _ _ _ => ⟨trivial, trivial⟩) (fun h v s _ _ => ⟨trivial, fun _ _ => trivial, ?_⟩)
      (fun h v _ hv => ?_) (fun h x e _ _ => ?_) m.attempts trivial)
    · rintro _ _ _ _ ⟨rfl⟩ -
      exact .inl (by simp [swaps, ev, swapped])
    · rintro _ _ _ _ ⟨rfl⟩ -
      exact .inr ⟨v, by simp, hv⟩
    · rintro _ _ _ _ - ⟨⟩
  | allocate | reset =>
    exact Prog.wp_of_trivial _ _ (fun _ _ => trivial) (fun _ => trivial) (by rintro _ _ _ _ _ _ ⟨⟩)

/-- A release that is under way has seen its nonce below the top. -/
theorem below_top_of_release (h : nonceCalls.Reaches start p) {th : NonceThread}
    (hth : th ∈ p.threads) {m : LocalNonceManager} {n k : Nat}
    (hcall : th.call = .release m a n k) {v : Versioned NonceState}
    (hload : ev (.loadNonceState ⟨a⟩) (.ok v) ∈ th.past) : n < v.value.next := by
  induction h generalizing th with
  | refl => cases hth
  | @tail p p' hreach hs ih =>
    cases hs with
    | spawn c _ =>
      rcases Pool.mem_spawn.mp hth with hth | rfl
      · exact ih hth hcall hload
      · cases hload
    | @move i th' o k' x r hi hprog hcan =>
      have hth' := List.mem_of_getElem? hi
      rcases Pool.mem_answer hth with hth | rfl
      · exact ih hth hcall hload
      rcases List.mem_append.mp hload with hload | hload
      · exact ih hth' hcall hload
      · cases List.mem_singleton.mp hload
        have hkept := (sound_of_reaches hreach).kept
        have hholds : p.book.Holds a k n := hkept.holds_of_release (m := m) (i := i) (by
          rw [book_get hi, swaps_poised hreach hth' hprog, hcall])
        have hv : v = p.world.store.loadNonceState ⟨a⟩ := of_decide_eq_true hcan
        rw [hv]
        exact ((hkept.ledger a).taken k n hholds).1

/-- **Releases commute.** From any reachable state, releases in whatever order, one after another
or interleaved, leave the same state. And a release that has returned is among those. -/
theorem releases_commute (h : nonceCalls.Reaches start p) :
    (∀ a q q' ns ns', nonceCalls.Reaches p q → nonceCalls.Reaches p q' → ReleasedSince p q a ns →
      ReleasedSince p q' a ns' → ns.Perm ns' →
      (q.world.store.loadNonceState ⟨a⟩).value = (q'.world.store.loadNonceState ⟨a⟩).value) ∧
    ∀ th ∈ p.threads, ∀ m a n k, th.call = .release m a n k → th.prog = .ret (.ok none) →
      .release n ∈ swaps th.past := by
  refine ⟨fun a q q' ns ns' hq hq' hns hns' hperm => ?_, fun th hth m a n k hcall hprog => ?_⟩
  · have hcanonical := (complete_of_reaches (h.trans hq) a).canonical
    have hcanonical' := (complete_of_reaches (h.trans hq') a).canonical
    refine hcanonical.eq_of_taken hcanonical' fun n => ?_
    rw [taken_since h hq hns, taken_since h hq' hns', hperm.mem_iff]
  · have hend := h.history body_releaseEnds rfl th hth
    rw [hprog] at hend
    refine (hend m a n k hcall rfl).resolve_right ?_
    rintro ⟨v, hload, hle⟩
    exact absurd (below_top_of_release h hth hcall hload) (by omega)

end Orders

section CoverageRuns

/-- Nonces 5, 6 and 7 are given out, and 5 is given back. -/
def gapAtFive : NoncePool :=
  System.played (S := nonceCalls) start
    [.spawn (.allocate (.new 3) 7), .moves 0 9 () pendingFive,
      .spawn (.allocate (.new 3) 7), .moves 1 9 () pendingFive,
      .spawn (.allocate (.new 3) 7), .moves 2 9 () pendingFive,
      .spawn (.release (.new 3) 7 5 0), .moves 3 9 () pendingFive]

theorem free_or_held_gap : ∃ p : NoncePool, nonceCalls.Reaches start p ∧
    (p.world.store.loadNonceState ⟨7⟩).value = ⟨8, {5}⟩ ∧ floorOf 7 p.world.log = 5 ∧
    p.Held 7 1 6 ∧ 6 ∉ (p.world.store.loadNonceState ⟨7⟩).value.free := by
  have hreach : nonceCalls.Reaches start gapAtFive := System.reaches_played _ _
  have hheld : gapAtFive.Held 7 1 6 := by decide +kernel
  exact ⟨gapAtFive, hreach, by decide +kernel, by decide +kernel, hheld,
    ((free_or_held hreach 7).1 1 6 hheld).1⟩

theorem releasedSince_of_drop (h : nonceCalls.Reaches p q) {ns : List Nat}
    (hns : swapsOn a (q.world.log.drop p.world.log.length) = ns.map .release) :
    ReleasedSince p q a ns := by
  obtain ⟨l, hl⟩ := log_suffix h
  rw [hl, List.drop_left] at hns
  exact ⟨l, hl, hns⟩

/-- From there 6 and 7 are given back, one after the other. -/
def givenBack (i j n m : Nat) : NoncePool :=
  System.played (S := nonceCalls) gapAtFive
    [.spawn (.release (.new 3) 7 n i), .moves 4 9 () pendingFive,
      .spawn (.release (.new 3) 7 m j), .moves 5 9 () pendingFive]

theorem releases_commute_both : ReleasedSince gapAtFive (givenBack 1 2 6 7) 7 [6, 7] ∧
    ReleasedSince gapAtFive (givenBack 2 1 7 6) 7 [7, 6] ∧
    ((givenBack 1 2 6 7).world.store.loadNonceState ⟨7⟩).value = ⟨5, ∅⟩ ∧
    ((givenBack 1 2 6 7).world.store.loadNonceState ⟨7⟩).value =
      ((givenBack 2 1 7 6).world.store.loadNonceState ⟨7⟩).value := by
  have hreach : nonceCalls.Reaches start gapAtFive := System.reaches_played _ _
  have hup : nonceCalls.Reaches gapAtFive (givenBack 1 2 6 7) := System.reaches_played _ _
  have hdown : nonceCalls.Reaches gapAtFive (givenBack 2 1 7 6) := System.reaches_played _ _
  have hns : ReleasedSince gapAtFive (givenBack 1 2 6 7) 7 [6, 7] :=
    releasedSince_of_drop hup (by decide +kernel)
  have hns' : ReleasedSince gapAtFive (givenBack 2 1 7 6) 7 [7, 6] :=
    releasedSince_of_drop hdown (by decide +kernel)
  exact ⟨hns, hns', by decide +kernel,
    (releases_commute hreach).1 7 _ _ _ _ hup hdown hns hns' (.swap 7 6 [])⟩

end CoverageRuns

end NoncePool

end WalletKit
