import WalletKit.Machine.Object
import WalletKit.Nonces.Accounts
import WalletKit.Nonces.Coverage

/-!
# Nonce managers as one atomic object

The calls of any number of managers on one store, in any interleaving and with no discipline on
who releases what, behave as if each took effect at one moment. What they act on is, for every
account, the set of nonces that may be handed out: an allocation takes the least of them, a
release puts one back, and a reset drops those below the chain's next nonce. Only the first
allocation of an account is not determined by that set, since the chain is asked where to start.
-/
namespace WalletKit

open Machine

namespace NonceState

variable {s s' : NonceState} {n : Nat}

/-- The nonces that may be handed out. -/
def available (s : NonceState) : Set Nat := {n | ¬s.Taken n}

theorem mem_available : n ∈ s.available ↔ s.next ≤ n ∨ n ∈ s.free := by
  simp only [available, Taken, Set.mem_ofPred_eq, not_and, not_not]
  constructor
  · intro h
    by_cases hn : n < s.next
    · exact .inr (h hn)
    · exact .inl (by omega)
  · rintro (h | h) hn
    · omega
    · exact h

/-- An allocation takes the least nonce there is. -/
theorem available_allocate (hf : s.FreeBelow) (h : s.allocate = (n, s')) :
    IsLeast s.available n ∧ s'.available = s.available \ {n} := by
  obtain ⟨hfresh, -, htaken⟩ := taken_allocate hf h
  refine ⟨⟨hfresh, fun m hm => ?_⟩, ?_⟩
  · unfold allocate at h
    split at h
    · rename_i hfree
      cases h
      rcases mem_available.mp hm with hm | hm
      · exact ((hf _ (s.free.min'_mem hfree)).trans_le hm).le
      · exact s.free.min'_le m hm
    · rename_i hfree
      cases h
      rcases mem_available.mp hm with hm | hm
      · exact hm
      · exact absurd ⟨m, hm⟩ hfree
  · ext m
    simp [available, htaken]

/-- Giving back a nonce that is free already changes nothing. -/
theorem Canonical.release_free (h : s.Canonical) (hn : n ∈ s.free) : s.release n = some s := by
  have hlt := h.freeBelow n hn
  unfold NonceState.release
  rw [if_neg (by omega), if_neg fun htop => h.topped n htop hn, Finset.insert_eq_of_mem hn]

/-- A release puts its nonce back, whether it was taken or not. -/
theorem Canonical.available_release (h : s.Canonical) (hs : s.release n = some s') :
    s'.Canonical ∧ s'.available = insert n s.available := by
  by_cases hn : n ∈ s.free
  · obtain rfl := Option.some.inj ((h.release_free hn).symm.trans hs)
    exact ⟨h, (Set.insert_eq_of_mem (mem_available.mpr (.inr hn))).symm⟩
  · have hlt : n < s.next := (release_spec hs hn).1
    obtain ⟨-, htaken⟩ := taken_release h.freeBelow ⟨hlt, hn⟩ hs
    refine ⟨h.release ⟨hlt, hn⟩ hs, ?_⟩
    ext m
    simp only [available, htaken, Set.mem_ofPred_eq, Set.mem_insert_iff, not_and, not_not]
    tauto

theorem available_reset (s : NonceState) (c : Nat) :
    (s.reset c).available = s.available ∩ Set.Ici c := by
  ext m
  simp only [mem_available, reset, Finset.mem_filter, Set.mem_inter_iff, Set.mem_Ici, max_le_iff]
  tauto

end NonceState

/-- What is kept for an account: whether it has been used, and what may be handed out. -/
structure Shelf where
  started : Bool
  available : Set Nat

/-- What a call does at once to the shelf of its account. -/
inductive Shelf.Serves : Shelf → NonceCall → Option Nat → Shelf → Prop where
  | first {A : Set Nat} {m : LocalNonceManager} {a : Address} (n : Nat) :
      Serves ⟨false, A⟩ (.allocate m a) (some n) ⟨true, Set.Ioi n⟩
  | least {A : Set Nat} {m : LocalNonceManager} {a : Address} {n : Nat} :
      IsLeast A n → Serves ⟨true, A⟩ (.allocate m a) (some n) ⟨true, A \ {n}⟩
  | release {started : Bool} {A : Set Nat} {m : LocalNonceManager} {a : Address} {n holder : Nat} :
      Serves ⟨started, A⟩ (.release m a n holder) none ⟨started, insert n A⟩
  | reset {started : Bool} {A : Set Nat} {m : LocalNonceManager} {a : Address} {c : Nat} :
      Serves ⟨started, A⟩ (.reset m a c) none ⟨true, A ∩ Set.Ici c⟩

theorem Shelf.serves_release_of_mem {s : Shelf} {m : LocalNonceManager} {a : Address}
    {n holder : Nat} (h : n ∈ s.available) : s.Serves (.release m a n holder) none s := by
  have hserves : s.Serves (.release m a n holder) none ⟨s.started, insert n s.available⟩ := .release
  rwa [Set.insert_eq_of_mem h] at hserves

/-- One shelf for every account; a call acts on its own. -/
def shelves : Object NonceCall (Option Nat) where
  State := Address → Shelf
  does s c r s' := (s c.account).Serves c r (s' c.account) ∧ ∀ a, a ≠ c.account → s' a = s a

/-- The shelf that a stored nonce state stands for. -/
def shelf (v : Versioned NonceState) : Shelf := ⟨v.version ≠ 0, v.value.available⟩

def World.shelves (w : World) (a : Address) : Shelf := shelf (w.store.loadNonceState ⟨a⟩)

theorem World.shelves_quiet {w : World} {e : PortEvent} (hq : swapped e = none) :
    (w.apply e).shelves = w.shelves :=
  funext fun a => congrArg shelf (loadNonceState_apply_quiet hq ⟨a⟩)

namespace CasNote

/-- The nonce that a swap hands out. -/
def given : CasNote → Option Nat
  | .allocate n _ => some n
  | .release _ | .reset _ => none

/-- A swap computed from a state serves its call. -/
theorem Computes.serves {note : CasNote} {c : NonceCall} {old : Versioned NonceState}
    {value : NonceState} (h : note.Computes old value) (hc : c.Swaps note)
    (habsent : old.version = 0 → old = .absent) (hold : old.value.Canonical) :
    value.Canonical ∧ (shelf old).Serves c note.given (shelf ⟨value, old.version + 1⟩) := by
  have hafter : shelf ⟨value, old.version + 1⟩ = ⟨true, value.available⟩ := by simp [shelf]
  rw [hafter]
  cases c with
  | allocate m a =>
    obtain ⟨n, first, rfl⟩ := hc
    obtain ⟨hfirst, hs⟩ := h
    cases first with
    | none =>
      have hv : old.version ≠ 0 := fun hv => by simpa using hfirst.mpr hv
      obtain ⟨hleast, hrest⟩ := NonceState.available_allocate hold.freeBelow hs
      refine ⟨hold.allocate hs, ?_⟩
      rw [hrest, show shelf old = ⟨true, old.value.available⟩ by simp [shelf, hv]]
      exact .least hleast
    | some pending =>
      -- the first use: the counter starts at the pending nonce, with nothing free
      have hv : old.version = 0 := hfirst.mp rfl
      obtain rfl := habsent hv
      obtain ⟨rfl, rfl⟩ : pending = n ∧ (⟨pending + 1, ∅⟩ : NonceState) = value := by
        simpa [LocalNonceManager.reconciled, Versioned.absent, NonceState.allocate] using hs
      refine ⟨NonceState.canonical_empty _, ?_⟩
      have hrest : NonceState.available ⟨pending + 1, ∅⟩ = Set.Ioi pending := by
        ext k
        simp [NonceState.mem_available]
      rw [hrest]
      exact .first pending
  | release m a n holder =>
    obtain rfl := hc
    obtain ⟨hcanon, hrest⟩ := hold.available_release h
    refine ⟨hcanon, ?_⟩
    have hv : old.version ≠ 0 := by
      intro hv
      rw [habsent hv] at h
      cases h
    rw [hrest, show shelf old = ⟨true, old.value.available⟩ by simp [shelf, hv]]
    exact .release
  | reset m a k =>
    obtain rfl := hc
    obtain rfl : old.value.reset k = value := h
    refine ⟨hold.reset k, ?_⟩
    rw [NonceState.available_reset]
    exact .reset

end CasNote

namespace NonceCall

/-- The result that an event fixes for the call that sees it: that of a swap which went through,
and for a release also a load that shows nothing to give back. -/
def settles (c : NonceCall) (e : PortEvent) : Option (Option Nat) :=
  match swapped e with
  | some note => some note.given
  | none =>
    match c, e with
    | .release _ _ n _, ⟨.loadNonceState _, r⟩ =>
      match (r : Except StateStoreError (Versioned NonceState)) with
      | .ok v => if v.value.next ≤ n then some none else none
      | .error _ => none
    | _, _ => none

/-- The result that the events of a call have fixed. -/
def result (c : NonceCall) (past : List PortEvent) : Option (Option Nat) := past.findSome? c.settles

variable {c : NonceCall} {past : List PortEvent} {e : PortEvent}

theorem result_snoc : c.result (past ++ [e]) = (c.result past).or (c.settles e) := by
  simp [result, List.findSome?_append]

theorem result_snoc_none (h : c.result past = none) (he : c.settles e = none) :
    c.result (past ++ [e]) = none := by
  rw [result_snoc, h, he]
  rfl

theorem result_snoc_some {r : Option Nat} (h : c.result past = none) (he : c.settles e = some r) :
    c.result (past ++ [e]) = some r := by
  rw [result_snoc, h, he]
  rfl

theorem settles_of_swapped {note : CasNote} (h : swapped e = some note) :
    c.settles e = some note.given := by
  unfold settles
  rw [h]

/-- What an event settles for a call, it settles by a swap or by showing nothing to give back. -/
theorem settles_eq_some {r : Option Nat} (h : c.settles e = some r) :
    (∃ note, swapped e = some note ∧ r = note.given) ∨
      swapped e = none ∧ r = none ∧ ∃ m a n holder scope v, c = .release m a n holder ∧
        e = ev (.loadNonceState scope) (.ok v) ∧ v.value.next ≤ n := by
  cases hq : swapped e with
  | some note =>
    rw [settles_of_swapped hq] at h
    exact .inl ⟨note, rfl, (Option.some.inj h).symm⟩
  | none =>
    unfold settles at h
    rw [hq] at h
    dsimp only at h
    split at h
    · rename_i m a n holder scope x
      split at h
      · rename_i v
        split at h
        · rename_i hv
          exact .inr ⟨rfl, (Option.some.inj h).symm, m, a, n, holder, scope, v, rfl, rfl, hv⟩
        · cases h
      · cases h
    · cases h

/-- A call goes on until its result is fixed, and what it swaps was computed from what it
loaded. -/
def Unsettled (c : NonceCall) (past : List PortEvent) (o : Op) : Prop :=
  c.result past = none ∧
    match o with
    | .casNonceState scope v s _ note =>
      scope = ⟨c.account⟩ ∧ c.Swaps note ∧ note.ComputedFrom past scope v s
    | .loadNonceState scope => scope = ⟨c.account⟩
    | _ => True

/-- A call returns the result that its events have fixed. -/
def Settled (c : NonceCall) (r : Except NonceManagerError (Option Nat))
    (past : List PortEvent) : Prop := ∀ x, r = .ok x → c.result past = some x

theorem releaseLoop_settled (m : LocalNonceManager) (a : Address) (n holder rounds : Nat)
    {h : List PortEvent} (hh : result (.release m a n holder) h = none) :
    (m.releaseLoop a n rounds).run.wp (.history (Unsettled (.release m a n holder)))
      (fun r past => Settled (.release m a n holder) (r.map fun _ => none) past) h := by
  induction rounds generalizing h with
  | zero => exact trivial
  | succ rounds ih =>
    unfold LocalNonceManager.releaseLoop
    refine LocalNonceManager.load_history ⟨hh, rfl⟩ (by rintro e _ ⟨⟩) fun loaded => ?_
    by_cases hdead : loaded.value.next ≤ n
    · -- nothing to give back: the load itself has settled the call
      have hnone : loaded.value.release n = none := by simp [NonceState.release, hdead]
      rw [hnone]
      rintro _ ⟨⟩
      exact result_snoc_some hh (by simp [settles, ev, swapped, hdead])
    · obtain ⟨s, hs⟩ := Option.isSome_iff_exists.mp
        (NonceState.release_isSome (show n < loaded.value.next by omega))
      rw [hs]
      have hh₁ := result_snoc_none hh (show settles (.release m a n holder)
        (ev (.loadNonceState ⟨a⟩) (.ok loaded)) = none by simp [settles, ev, swapped, hdead])
      refine LocalNonceManager.casOrRetry_history
        (P := fun h => result (.release m a n holder) h = none)
        ⟨⟨hh₁, rfl, rfl, loaded.value, by simp, hs⟩, fun r hr => result_snoc_none hh₁ ?_, ?_⟩
        (by rintro e _ ⟨⟩) fun _ => ih
      · unfold settles
        rw [swapped_cas hr]
        rfl
      · rintro _ ⟨⟩
        exact result_snoc_some hh₁ rfl

theorem body_settles (c : NonceCall) : c.body.wp (.history c.Unsettled) c.Settled [] := by
  cases c with
  | allocate m a =>
    refine Prog.wp_run_map.mpr (LocalNonceManager.allocateLoop_history
      (P := fun h => result (.allocate m a) h = none)
      (fun h r hh => ⟨⟨hh, rfl⟩, result_snoc_none hh rfl⟩)
      (fun h r hh => ⟨⟨hh, trivial⟩, result_snoc_none hh rfl⟩)
      (fun h n v s first hh hfrom _ => ⟨⟨hh, rfl, ⟨n, first, rfl⟩, hfrom⟩, fun r hr => ?_, ?_⟩)
      (fun h e hh => by rintro _ ⟨⟩) m.attempts rfl)
    · refine result_snoc_none hh ?_
      unfold settles
      rw [swapped_cas hr]
    · rintro _ ⟨⟩
      exact result_snoc_some hh rfl
  | release m a n holder =>
    refine Prog.wp_run_map.mpr (Prog.wp_mono (releaseLoop_settled m a n holder m.attempts rfl) ?_)
    intro r past hr
    exact hr
  | reset m a k =>
    refine Prog.wp_run_map.mpr (LocalNonceManager.resetLoop_history
      (P := fun h => result (.reset m a k) h = none)
      (fun h r hh => ⟨⟨hh, rfl⟩, result_snoc_none hh rfl⟩)
      (fun h v s hh hfrom => ⟨⟨hh, rfl, rfl, hfrom⟩, fun r hr => ?_, ?_⟩)
      (fun h e hh => by rintro _ ⟨⟩) m.attempts rfl)
    · refine result_snoc_none hh ?_
      unfold settles
      rw [swapped_cas hr]
    · rintro _ ⟨⟩
      exact result_snoc_some hh rfl

end NonceCall

/-- Nonce managers over one store, with releases made by anyone at any time. -/
def anyNonceCalls : System ports World NonceCall (Except NonceManagerError (Option Nat)) :=
  { nonceCalls with admits := fun _ _ => True }

namespace NoncePool

variable {p q : NoncePool}

theorem backed_any : Backed anyNonceCalls id := ⟨fun ha => ha, fun _ => rfl⟩

/-- What a running call is about to do, seen from its own events. -/
theorem unsettled (h : anyNonceCalls.Reaches start p) {i : Nat} {th : NonceThread}
    (hi : p.threads[i]? = some th) {o : Op} {k : o.Reply → Io _} (hprog : th.prog = .call o k) :
    th.call.Unsettled th.past o := by
  have hcall := h.history NonceCall.body_settles rfl th (List.mem_of_getElem? hi)
  rw [hprog] at hcall
  exact (Prog.wp_history_call.mp hcall).1

/-- A swap that goes through serves its call from the shelves as they are. -/
theorem swap_serves (h : anyNonceCalls.Reaches start p) {th : NonceThread} (hth : th ∈ p.threads)
    {scope : NonceScope} {v : Nat} {s : NonceState} {f : FenceToken} {note : CasNote}
    (howes : th.call.Unsettled th.past (.casNonceState scope v s f note))
    (hcan : p.world.can (ev (.casNonceState scope v s f note) (.ok true)))
    (hcanon : ∀ a, (p.world.store.loadNonceState ⟨a⟩).value.Canonical) :
    (∀ a, ((p.world.apply (ev (.casNonceState scope v s f note)
        (.ok true))).store.loadNonceState ⟨a⟩).value.Canonical) ∧
      shelves.does p.world.shelves th.call note.given
        (p.world.apply (ev (.casNonceState scope v s f note) (.ok true))).shelves := by
  obtain ⟨-, rfl, hsw, old, hload, hcomp⟩ := howes
  obtain ⟨hcur, hafter⟩ := backed_any.swap_current fresh h hth hload hcan
  have habsent := backed_any.absent fresh h ⟨th.call.account⟩
  rw [hcur] at habsent
  rw [id] at hcur hafter
  obtain ⟨hval, hserves⟩ := hcomp.serves hsw habsent (by simpa [hcur] using hcanon th.call.account)
  refine ⟨fun a => ?_, ?_, fun a ha => ?_⟩
  · rw [hafter]
    split
    · exact hval
    · exact hcanon a
  · have hnow := (hafter ⟨th.call.account⟩).trans (if_pos rfl)
    rw [World.shelves, World.shelves, hcur, hnow]
    exact hserves
  · exact congrArg shelf ((hafter ⟨a⟩).trans (if_neg (by simpa using ha)))

/-- All stored nonce states are canonical, whoever releases what. -/
theorem canonical_of_reaches (h : anyNonceCalls.Reaches start p) (a : Address) :
    (p.world.store.loadNonceState ⟨a⟩).value.Canonical := by
  revert a
  induction h with
  | refl => exact fun a => NonceState.canonical_empty 0
  | @tail p p' hreach hs ih =>
    cases hs with
    | spawn c _ => exact ih
    | @move i th o k x r hi hprog ha =>
      cases hq : swapped ⟨o, r⟩ with
      | none =>
        intro a
        change ((p.world.apply ⟨o, r⟩).store.loadNonceState ⟨a⟩).value.Canonical
        rw [World.loadNonceState_apply_quiet hq]
        exact ih a
      | some note =>
        have howes := unsettled hreach hi hprog
        obtain ⟨scope, v, s, f, he⟩ := swapped_eq_some hq
        cases he
        exact (swap_serves hreach (List.mem_of_getElem? hi) howes ha ih).1

/-- Where each call takes effect: at its swap, or at the load that shows nothing to release. -/
def linearization : Linearization anyNonceCalls shelves start where
  abs := World.shelves
  result := NonceCall.result
  result_nil _ := rfl
  move := by
    intro p i th x o r k h hi hprog ha
    have howes := unsettled h hi hprog
    cases hset : th.call.settles ⟨o, r⟩ with
    | none =>
      have hq : swapped ⟨o, r⟩ = none := by
        cases hq : swapped ⟨o, r⟩ with
        | none => rfl
        | some note => cases hset.symm.trans (NonceCall.settles_of_swapped hq)
      exact .inl ⟨(NonceCall.result_snoc_none howes.1 hset).trans howes.1.symm,
        World.shelves_quiet hq⟩
    | some a =>
      refine .inr ⟨howes.1, a, NonceCall.result_snoc_some howes.1 hset, ?_⟩
      rcases NonceCall.settles_eq_some hset with
        ⟨note, hq, rfl⟩ | ⟨hq, rfl, m, b, n, holder, scope, v, hcall, he, hv⟩
      · obtain ⟨scope, v, s, f, he⟩ := swapped_eq_some hq
        cases he
        exact (swap_serves h (List.mem_of_getElem? hi) howes ha (canonical_of_reaches h)).2
      · -- the nonce is on the shelf already, so putting it back changes nothing
        cases he
        have hsame : (p.world.apply ⟨.loadNonceState scope, .ok v⟩).shelves = p.world.shelves :=
          World.shelves_quiet hq
        change shelves.does p.world.shelves th.call none
          (p.world.apply ⟨.loadNonceState scope, .ok v⟩).shelves
        rw [hsame]
        refine ⟨?_, fun _ _ => rfl⟩
        obtain rfl : scope = ⟨th.call.account⟩ := howes.2
        obtain rfl : v = p.world.store.loadNonceState ⟨th.call.account⟩ := of_decide_eq_true ha
        have hserve : (p.world.shelves th.call.account).Serves (.release m b n holder) none
            (p.world.shelves th.call.account) :=
          Shelf.serves_release_of_mem (NonceState.mem_available.mpr (.inl hv))
        rwa [← hcall] at hserve

/-- The use of the shelves that a pool stands for. -/
def uses (p : NoncePool) : shelves.Uses := linearization.uses p

/-- Nonce managers that share a store are linearizable: what a run does between two of its pools
is a run of the atomic shelves between the uses they stand for, and a call that has returned has
taken effect there, with the result it returned. -/
theorem nonce_managers_linearizable (h : anyNonceCalls.Reaches start p)
    (hq : anyNonceCalls.Reaches p q) :
    start.uses = ⟨fun _ => ⟨false, Set.univ⟩, []⟩ ∧ shelves.Reaches p.uses q.uses ∧
      q.uses.calls.map Prod.fst = q.threads.map (·.call) ∧
      ∀ (i : Nat) (th : NonceThread) r, q.threads[i]? = some th → th.prog = .ret (.ok r) →
        q.uses.calls[i]? = some (th.call, some r) := by
  refine ⟨?_, linearization.reaches h hq, ?_, fun i th r hi hret => ?_⟩
  · have hnone : NonceState.available ⟨0, ∅⟩ = Set.univ := by
      ext n
      simp [NonceState.mem_available]
    exact congrArg (fun A => (⟨fun _ => ⟨false, A⟩, []⟩ : shelves.Uses)) hnone
  · simp [uses, Linearization.uses]
  · have hreach : anyNonceCalls.Reaches start q := h.trans hq
    have hend := hreach.history NonceCall.body_settles rfl th (List.mem_of_getElem? hi)
    rw [hret] at hend
    refine (linearization.uses_get hi).trans ?_
    exact congrArg (fun x => some (th.call, x)) (Prog.wp_ret.mp hend r rfl)

instance (p : NoncePool) (i : Nat) (x : anyNonceCalls.Choice) (o : ports.Op) (r : ports.Reply o) :
    Decidable (anyNonceCalls.allow p i x o r) := inferInstanceAs (Decidable (_ = true))

instance (p : NoncePool) (c : NonceCall) : Decidable (anyNonceCalls.admits p c) :=
  inferInstanceAs (Decidable True)

/-- A nonce is given back twice, both times by calls that never held it, while a second allocation
has loaded the state before; it has to go round again and is given the same nonce. -/
def releasedByStrangers : NoncePool :=
  System.played (S := anyNonceCalls) start
    [.spawn (.allocate (.new 3) 7), .moves 0 3 () pendingFive, .spawn (.allocate (.new 3) 7),
      .moves 1 1 () pendingFive, .spawn (.release (.new 3) 7 5 9), .moves 2 2 () pendingFive,
      .spawn (.release (.new 3) 7 5 9), .moves 3 2 () pendingFive, .moves 1 3 () pendingFive]

theorem nonce_managers_linearizable_strangers :
    shelves.Reaches start.uses releasedByStrangers.uses ∧
      releasedByStrangers.uses.calls.map Prod.fst = [.allocate (.new 3) 7, .allocate (.new 3) 7,
        .release (.new 3) 7 5 9, .release (.new 3) 7 5 9] ∧
      releasedByStrangers.uses.calls[1]? = some (.allocate (.new 3) 7, some (some 5)) := by
  have hreach : anyNonceCalls.Reaches start releasedByStrangers := System.reaches_played _ _
  obtain ⟨-, hrun, hcalls, hends⟩ := nonce_managers_linearizable .refl hreach
  have hdone : ∃ th : NonceThread, releasedByStrangers.threads[1]? = some th ∧
      th.call = .allocate (.new 3) 7 ∧ th.prog = .ret (.ok (some 5)) := ⟨_, rfl, rfl, rfl⟩
  obtain ⟨th, hi, hcall, hret⟩ := hdone
  exact ⟨hrun, hcalls.trans rfl, hcall ▸ hends 1 th (some 5) hi hret⟩

end NoncePool

end WalletKit
