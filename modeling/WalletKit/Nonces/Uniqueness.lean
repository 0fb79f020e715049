import WalletKit.Nonces.Rules
import WalletKit.Runtime.Runs

/-!
# Nonce managers over one store

Any number of nonce managers share a store, and their `allocate`, `release` and `reset`
calls interleave at every load, chain read and swap. A release is made for a holding: by
the call that was given the nonce, and at most once.

A swap goes through only if nothing was swapped since the state it was computed from was
loaded, so each successful swap acts on the present state as one atomic computation. What
the calls have swapped so far is their `Book`; the ledger of `Nonces.Ledger` is kept
between the stored state and the book.
-/
namespace WalletKit

open Machine

inductive NonceCall where
  | allocate (manager : LocalNonceManager) (account : Address)
  | release (manager : LocalNonceManager) (account : Address) (nonce holder : Nat)
  | reset (manager : LocalNonceManager) (account : Address) (chainNext : Nat)

namespace NonceCall

def body : NonceCall → Io (Except NonceManagerError (Option Nat))
  | .allocate m a => (some <$> m.allocate a).run
  | .release m a n _ => ((fun _ => none) <$> m.release a n).run
  | .reset m a c => ((fun _ => none) <$> m.reset a c).run

def account : NonceCall → Address
  | .allocate _ a | .release _ a _ _ | .reset _ a _ => a

/-- What a swap of this call stands for. -/
def Swaps : NonceCall → CasNote → Prop
  | .allocate _ _, note => ∃ n first, note = .allocate n first
  | .release _ _ n _, note => note = .release n
  | .reset _ _ c, note => note = .reset c

/-- Whether the call gives back what call `i` was given. -/
def releases (i : Nat) : NonceCall → Bool
  | .release _ _ _ holder => holder = i
  | _ => false

end NonceCall

/-- The swaps that went through, oldest first. -/
def swaps (past : List PortEvent) : List CasNote := past.filterMap swapped

@[simp] theorem swaps_append (h h' : List PortEvent) : swaps (h ++ h') = swaps h ++ swaps h' :=
  List.filterMap_append

section History

/-- A call does nothing more once it has swapped, and what it swaps was computed from what
it loaded. -/
def NonceCall.owes (c : NonceCall) (past : List PortEvent) (o : Op) : Prop :=
  swaps past = [] ∧
    match o with
    | .casNonceState scope v s _ note =>
      scope = ⟨c.account⟩ ∧ c.Swaps note ∧ note.ComputedFrom past scope v s
    | _ => True

/-- A nonce is returned by the swap that took it. -/
def NonceCall.ends (c : NonceCall) (r : Except NonceManagerError (Option Nat))
    (past : List PortEvent) : Prop :=
  ∀ m a n, c = .allocate m a → r = .ok (some n) → ∃ first, swaps past = [.allocate n first]

theorem NonceCall.body_history (c : NonceCall) :
    c.body.wp (.history c.owes) c.ends [] := by
  have quiet : ∀ (h : List PortEvent) (e : PortEvent), swaps h = [] → swapped e = none →
      swaps (h ++ [e]) = [] := fun h e hh he => by
    rw [swaps_append, hh]
    simp [swaps, he]
  cases c with
  | allocate m a =>
    refine Prog.wp_run_map.mpr (LocalNonceManager.allocateLoop_history (P := (swaps · = []))
      (fun h r hh => ⟨⟨hh, trivial⟩, quiet h _ hh rfl⟩)
      (fun h r hh => ⟨⟨hh, trivial⟩, quiet h _ hh rfl⟩)
      (fun h n v s first hh hfrom _ =>
        ⟨⟨hh, rfl, ⟨n, first, rfl⟩, hfrom⟩, fun r hr => quiet h _ hh (swapped_cas hr), ?_⟩)
      (fun h e hh => ?_) m.attempts rfl)
    · rintro _ _ _ - ⟨rfl⟩
      exact ⟨first, by rw [swaps_append, hh]; rfl⟩
    · rintro _ _ _ - ⟨⟩
  | release m a n i =>
    refine Prog.wp_run_map.mpr (LocalNonceManager.releaseLoop_history (P := (swaps · = []))
      (fun h r hh => ⟨⟨hh, trivial⟩, quiet h _ hh rfl⟩)
      (fun h v s hh hfrom =>
        ⟨⟨hh, rfl, rfl, hfrom⟩, fun r hr => quiet h _ hh (swapped_cas hr), ?_⟩)
      (fun h v _ _ => ?_) (fun h x e _ _ => ?_) m.attempts rfl)
    all_goals rintro _ _ _ ⟨⟩
  | reset m a c =>
    refine Prog.wp_run_map.mpr (LocalNonceManager.resetLoop_history (P := (swaps · = []))
      (fun h r hh => ⟨⟨hh, trivial⟩, quiet h _ hh rfl⟩)
      (fun h v s hh hfrom =>
        ⟨⟨hh, rfl, rfl, hfrom⟩, fun r hr => quiet h _ hh (swapped_cas hr), ?_⟩)
      (fun h e hh => ?_) m.attempts rfl)
    all_goals rintro _ _ _ ⟨⟩

end History

abbrev NonceThread := Thread ports NonceCall (Except NonceManagerError (Option Nat))
abbrev NoncePool := Pool ports World NonceCall (Except NonceManagerError (Option Nat))

namespace NoncePool

/-- The nonce an `allocate` call has returned, with its account. -/
def returned (th : NonceThread) : Option (Address × Nat) :=
  match th.call, th.prog with
  | .allocate _ a, .ret (.ok (some n)) => some (a, n)
  | _, _ => none

/-- Call `i` is an `allocate` on `a` that has returned `n`. -/
def Returned (p : NoncePool) (a : Address) (i n : Nat) : Prop :=
  p.threads[i]?.bind returned = some (a, n)

/-- The nonce that call `i` was given has been given back: a release made for it has
swapped. -/
def Released (p : NoncePool) (i : Nat) : Prop :=
  ∃ th ∈ p.threads, th.call.releases i ∧ swaps th.past ≠ []

/-- Returned by an `allocate` and not yet released. -/
def Held (p : NoncePool) (a : Address) (i n : Nat) : Prop := p.Returned a i n ∧ ¬p.Released i

instance (p : NoncePool) (a : Address) (i n : Nat) : Decidable (p.Returned a i n) :=
  inferInstanceAs (Decidable (_ = _))

/-- A release is called by the holder, at most once per holding. -/
def Admits (p : NoncePool) : NonceCall → Prop
  | .release _ a n i => p.Returned a i n ∧ ∀ th ∈ p.threads, th.call.releases i = false
  | _ => True

/-- No manager has been used yet. -/
def start : NoncePool := ⟨.initial, []⟩

end NoncePool

/-- The calls of any number of nonce managers over one store, in any interleaving. -/
def nonceCalls : System ports World NonceCall (Except NonceManagerError (Option Nat)) where
  Choice := Unit
  body := NonceCall.body
  admits := NoncePool.Admits
  allow p _ _ o r := p.world.can ⟨o, r⟩
  next w _ o r := w.apply ⟨o, r⟩

/-- Every call with the swaps it has done. -/
abbrev Book := List (NonceCall × List CasNote)

namespace Book

def callAt (b : Book) (i : Nat) : Option NonceCall := b[i]?.map Prod.fst

def Granted (b : Book) (a : Address) (i n : Nat) : Prop :=
  ∃ m first, b[i]? = some (.allocate m a, [.allocate n first])

def Released (b : Book) (i : Nat) : Prop := ∃ x ∈ b, x.1.releases i ∧ x.2 ≠ []

def Holds (b : Book) (a : Address) (i n : Nat) : Prop := b.Granted a i n ∧ ¬b.Released i

variable {b : Book} {a : Address} {i j n : Nat} {c : NonceCall} {note : CasNote}

theorem granted_call {x : Nat} (h : Granted (b ++ [(c, [])]) a i x) : b.Granted a i x := by
  obtain ⟨m, first, h⟩ := h
  refine ⟨m, first, ?_⟩
  rcases Nat.lt_trichotomy i b.length with hi | hi | hi
  · rwa [List.getElem?_append_left hi] at h
  · subst hi; simp at h
  · rw [List.getElem?_eq_none (by simpa using hi)] at h
    cases h

/-- A new call changes no holding. -/
theorem holds_call (h : Holds (b ++ [(c, [])]) a i n) : b.Holds a i n :=
  ⟨granted_call h.1, fun ⟨x, hx, hr⟩ => h.2 ⟨x, by simp [hx], hr⟩⟩

/-- A swap of call `i` gives a nonce to `i` at most. -/
theorem granted_swap {x : Nat} (hi : b[i]? = some (c, []))
    (h : Granted (b.set i (c, [note])) a j x) :
    b.Granted a j x ∨ j = i ∧ ∃ m first, c = .allocate m a ∧ note = .allocate x first := by
  obtain ⟨m, first, h⟩ := h
  by_cases hj : j = i
  · subst hj
    rw [List.getElem?_set_self (List.getElem?_eq_some_iff.mp hi).1] at h
    simp only [Option.some.injEq, Prod.mk.injEq, List.cons.injEq, and_true] at h
    exact .inr ⟨rfl, m, first, h⟩
  · rw [List.getElem?_set_ne (Ne.symm hj)] at h
    exact .inl ⟨m, first, h⟩

theorem released_swap (hi : b[i]? = some (c, [])) (h : b.Released j) :
    Released (b.set i (c, [note])) j := by
  obtain ⟨x, hx, hr, hne⟩ := h
  refine ⟨x, ?_, hr, hne⟩
  obtain ⟨k, hk⟩ := List.mem_iff_getElem?.mp hx
  have : i ≠ k := by rintro rfl; rw [hi] at hk; cases hk; exact hne rfl
  exact List.mem_of_getElem? (i := k) (by rwa [List.getElem?_set_ne this])

theorem holds_swap {x : Nat} (hi : b[i]? = some (c, []))
    (h : Holds (b.set i (c, [note])) a j x) :
    b.Holds a j x ∨ j = i ∧ ∃ m first, c = .allocate m a ∧ note = .allocate x first := by
  rcases granted_swap hi h.1 with hg | hg
  · exact .inl ⟨hg, fun hr => h.2 (released_swap hi hr)⟩
  · exact .inr hg

/-- The swap of a release ends the holding it is made for. -/
theorem not_holds_release {x : Nat} (hi : b[i]? = some (c, [])) (hc : c.releases j) :
    ¬Holds (b.set i (c, [note])) a j x := fun h =>
  h.2 ⟨(c, [note]), List.mem_of_getElem? (i := i)
    (by rw [List.getElem?_set_self (List.getElem?_eq_some_iff.mp hi).1]), hc, by simp⟩

/-- Every holding is in the ledger, and every release is made for a holding of its own. -/
structure Kept (s : NonceScope → Versioned NonceState) (b : Book) : Prop where
  absent : ∀ scope, (s scope).version = 0 → s scope = .absent
  started : ∀ a i n, b.Granted a i n → (s ⟨a⟩).version ≠ 0
  ledger : ∀ a, Ledger (s ⟨a⟩).value (b.Holds a)
  released : ∀ i m a n k, b.callAt i = some (.release m a n k) → b.Granted a k n ∧
    ∀ j c, b.callAt j = some c → c.releases k → j = i

variable {s : NonceScope → Versioned NonceState}

theorem Kept.call (h : Kept s b) (hc : ∀ m a n k, c = .release m a n k →
    b.Granted a k n ∧ ∀ x ∈ b, x.1.releases k = false) : Kept s (b ++ [(c, [])]) where
  absent := h.absent
  started a i n hg := h.started a i n (granted_call hg)
  ledger a := (h.ledger a).mono fun _ _ => holds_call
  released i m a n k hi := by
    have granted : ∀ a k n, b.Granted a k n → Granted (b ++ [(c, [])]) a k n := by
      rintro a k n ⟨m, first, hg⟩
      exact ⟨m, first, by rwa [List.getElem?_append_left (List.getElem?_eq_some_iff.mp hg).1]⟩
    have at_end : ∀ j d, callAt (b ++ [(c, [])]) j = some d →
        b.callAt j = some d ∨ j = b.length ∧ d = c := by
      intro j d hj
      rcases Nat.lt_trichotomy j b.length with hlt | rfl | hlt
      · exact .inl (by rwa [callAt, List.getElem?_append_left hlt] at hj)
      · exact .inr ⟨rfl, by simpa [callAt] using hj.symm⟩
      · rw [callAt, List.getElem?_eq_none (by simpa using hlt)] at hj
        cases hj
    have old : ∀ j d, b.callAt j = some d → ∃ x ∈ b, x.1 = d := by
      intro j d hj
      obtain ⟨x, hx, rfl⟩ := Option.map_eq_some_iff.mp hj
      exact ⟨x, List.mem_of_getElem? hx, rfl⟩
    rcases at_end i _ hi with hi' | ⟨rfl, rfl⟩
    · obtain ⟨hg, honly⟩ := h.released i m a n k hi'
      refine ⟨granted _ _ _ hg, fun j d hj hd => ?_⟩
      rcases at_end j d hj with hj | ⟨rfl, rfl⟩
      · exact honly j d hj hd
      · -- the new call would release the same holding a second time
        obtain ⟨x, hx, hxr⟩ := old i _ hi'
        cases d with
        | release m' a' n' k' =>
          obtain rfl : k' = k := by simpa [NonceCall.releases] using hd
          have := (hc m' a' n' k' rfl).2 x hx
          simp [hxr, NonceCall.releases] at this
        | allocate | reset => cases hd
    · obtain ⟨hg, hnone⟩ := hc m a n k rfl
      refine ⟨granted _ _ _ hg, fun j d hj hd => ?_⟩
      rcases at_end j d hj with hj | ⟨rfl, -⟩
      · obtain ⟨x, hx, rfl⟩ := old j d hj
        rw [hnone x hx] at hd
        cases hd
      · rfl

/-- A release that has not swapped yet is made for something that is held. -/
theorem Kept.holds_of_release (h : Kept s b) {m : LocalNonceManager} {k : Nat}
    (hi : b[i]? = some (.release m a n k, [])) : b.Holds a k n := by
  obtain ⟨hg, honly⟩ := h.released i m a n k (by simp [callAt, hi])
  refine ⟨hg, fun ⟨x, hx, hr, hne⟩ => ?_⟩
  obtain ⟨j, hj⟩ := List.mem_iff_getElem?.mp hx
  obtain rfl := honly j x.1 (by simp [callAt, hj]) hr
  rw [hi] at hj
  cases hj
  exact hne rfl

/-- A swap computed from the present state keeps the ledger. -/
theorem Kept.swap {value : NonceState} (h : Kept s b) (hi : b[i]? = some (c, []))
    (hc : c.Swaps note) (hs : note.Computes (s ⟨c.account⟩) value) :
    Kept (Function.update s ⟨c.account⟩ ⟨value, (s ⟨c.account⟩).version + 1⟩)
      (b.set i (c, [note])) where
  absent scope hv := by
    by_cases hsc : scope = ⟨c.account⟩
    · subst hsc; simp at hv
    · rw [Function.update_of_ne hsc] at hv ⊢
      exact h.absent scope hv
  started a j n hg hv := by
    by_cases ha : a = c.account
    · subst ha; simp at hv
    · rw [Function.update_of_ne (by simpa using ha)] at hv
      rcases granted_swap hi hg with hg | ⟨-, m, first, rfl, -⟩
      · exact h.started a j n hg hv
      · exact ha rfl
  ledger a := by
    by_cases ha : a = c.account
    swap
    · rw [Function.update_of_ne (by simpa using ha)]
      refine (h.ledger a).mono fun j x hj => ?_
      rcases holds_swap hi hj with hj | ⟨-, m, first, rfl, -⟩
      · exact hj
      · exact absurd rfl ha
    subst ha
    rw [Function.update_self]
    have hl := h.ledger c.account
    cases c with
    | allocate m a =>
      obtain ⟨n, first, rfl⟩ := hc
      obtain ⟨hfirst, hs⟩ := hs
      have gains : ∀ j x, Holds (b.set i (.allocate m a, [.allocate n first])) a j x →
          b.Holds a j x ∨ j = i ∧ x = n := by
        intro j x hj
        rcases holds_swap hi hj with hj | ⟨rfl, _, _, -, he⟩
        · exact .inl hj
        · cases he; exact .inr ⟨rfl, rfl⟩
      cases first with
      | none => exact hl.allocate hs gains
      | some pending =>
        -- the first use of the account: nobody holds anything yet
        have hv : (s ⟨a⟩).version = 0 := hfirst.mp rfl
        have hnone : ∀ j x, ¬b.Holds a j x := fun j x hj => h.started a j x hj.1 hv
        have hfree : (s ⟨a⟩).value.free = ∅ := by simp [h.absent _ hv, Versioned.absent]
        exact Ledger.allocate (s := ⟨pending, (s ⟨a⟩).value.free⟩) (Ledger.nobody hfree hnone)
          hs gains
    | release m a n k =>
      obtain rfl := hc
      refine hl.release (h.holds_of_release hi) hs fun j x hj => ⟨?_, ?_⟩
      · rcases holds_swap hi hj with hj | ⟨-, _, _, he, -⟩
        · exact hj
        · cases he
      · rintro rfl
        exact not_holds_release hi (by simp [NonceCall.releases]) hj
    | reset m a k =>
      obtain rfl := hc
      obtain rfl : (s ⟨a⟩).value.reset k = value := hs
      refine (hl.reset k).mono fun j x hj => ?_
      rcases holds_swap hi hj with hj | ⟨-, _, _, he, -⟩
      · exact hj
      · cases he
  released j m a n k hj := by
    have call_at : ∀ j : Nat, callAt (b.set i (c, [note])) j = b.callAt j := by
      intro j
      by_cases hij : i = j
      · subst hij
        rw [callAt, callAt, List.getElem?_set_self (List.getElem?_eq_some_iff.mp hi).1, hi]
        rfl
      · rw [callAt, callAt, List.getElem?_set_ne hij]
    rw [call_at] at hj
    obtain ⟨⟨m', first, hg⟩, honly⟩ := h.released j m a n k hj
    refine ⟨⟨m', first, ?_⟩, fun l d hl hd => honly l d (by rwa [call_at] at hl) hd⟩
    have hik : i ≠ k := by rintro rfl; rw [hi] at hg; cases hg
    rwa [List.getElem?_set_ne hik]

end Book

namespace NoncePool

variable {p p' : NoncePool}

def book (p : NoncePool) : Book := p.threads.map fun th => (th.call, swaps th.past)

theorem book_spawn (c : NonceCall) (b : Io _) : book (p.spawn c b) = p.book ++ [(c, [])] := by
  simp [book, Pool.spawn, swaps]

theorem book_get {i : Nat} {th : NonceThread} (hi : p.threads[i]? = some th) :
    p.book[i]? = some (th.call, swaps th.past) := by
  simp [book, hi]

theorem book_answer {i : Nat} {th : NonceThread} {o : Op} {r : o.Reply} {k : Io _} {w : World} :
    book (p.answer i th o r k w) = p.book.set i (th.call, swaps (th.past ++ [⟨o, r⟩])) := by
  simp [book, Pool.answer, List.map_set]

/-- The ledger is kept, and what a call has loaded is older than the stored state or is it. -/
structure Sound (p : NoncePool) : Prop where
  kept : p.book.Kept p.world.store.loadNonceState
  loaded : ∀ th ∈ p.threads, ∀ scope v, ev (.loadNonceState scope) (.ok v) ∈ th.past →
    v.version < (p.world.store.loadNonceState scope).version ∨
      v = p.world.store.loadNonceState scope

theorem sound_start : Sound start :=
  ⟨⟨fun _ _ => rfl, by simp [Book.Granted, book, start],
    fun a => .nobody rfl (by simp [Book.Holds, Book.Granted, book, start]),
    by simp [Book.callAt, book, start]⟩, by simp [start]⟩

/-- A returned nonce was taken by a swap of the call that returned it. -/
theorem granted_of_returned (h : nonceCalls.Reaches start p) {a : Address} {i n : Nat}
    (hr : p.Returned a i n) : p.book.Granted a i n := by
  obtain ⟨th, hi, hr⟩ := Option.bind_eq_some_iff.mp hr
  have hend := h.history NonceCall.body_history rfl th (List.mem_of_getElem? hi)
  unfold returned at hr
  split at hr
  · rename_i m b k hcall hprog
    cases hr
    rw [hcall, hprog] at hend
    obtain ⟨first, hf⟩ := Prog.wp_ret.mp hend m a n rfl rfl
    exact ⟨m, first, by rw [book_get hi, hcall, hf]⟩
  · cases hr

theorem released_iff {i : Nat} : p.Released i ↔ p.book.Released i := by
  simp [Released, Book.Released, book]

theorem sound_call (h : Sound p) (hreach : nonceCalls.Reaches start p) {c : NonceCall}
    (hc : p.Admits c) : Sound (p.spawn c c.body) := by
  refine ⟨?_, fun th hth scope v hv => ?_⟩
  · rw [book_spawn]
    refine h.kept.call ?_
    rintro m a n k rfl
    exact ⟨granted_of_returned hreach hc.1, by simpa [book] using hc.2⟩
  · rcases Pool.mem_spawn.mp hth with hth | rfl
    · exact h.loaded th hth scope v hv
    · cases hv

section Move

variable {i : Nat} {th : NonceThread} {o : Op} {r : o.Reply} {k : Io _}

/-- Loads, chain reads and swaps that do not go through change no nonce state. -/
theorem sound_quiet (h : Sound p) (hi : p.threads[i]? = some th)
    (hcan : p.world.can ⟨o, r⟩) (hq : swapped ⟨o, r⟩ = none) :
    Sound (p.answer i th o r k (p.world.apply ⟨o, r⟩)) := by
  have hsame : (World.storeAfter p.world.store ⟨o, r⟩).loadNonceState =
      p.world.store.loadNonceState := funext (loadNonceState_quiet hq)
  have hbook : book (p.answer i th o r k (p.world.apply ⟨o, r⟩)) = p.book := by
    have hsw : swaps (th.past ++ [⟨o, r⟩]) = swaps th.past := by simp [swaps, hq]
    obtain ⟨_, hget⟩ := List.getElem?_eq_some_iff.mp (book_get hi)
    rw [book_answer, hsw, ← hget, List.set_getElem_self]
  refine ⟨?_, fun th' hth' scope v hv => ?_⟩
  · rw [hbook]
    exact hsame.symm ▸ h.kept
  · change _ < ((World.storeAfter p.world.store ⟨o, r⟩).loadNonceState scope).version ∨
      v = (World.storeAfter p.world.store ⟨o, r⟩).loadNonceState scope
    rw [hsame]
    rcases Pool.mem_answer hth' with hth' | rfl
    · exact h.loaded th' hth' scope v hv
    · rcases List.mem_append.mp hv with hv | hv
      · exact h.loaded th (List.mem_of_getElem? hi) scope v hv
      · cases List.mem_singleton.mp hv
        exact .inr (by simpa [World.can] using hcan)

/-- A swap that goes through was computed from the stored state. -/
theorem sound_swap (h : Sound p) (hi : p.threads[i]? = some th) {scope : NonceScope} {v : Nat}
    {s : NonceState} {f : FenceToken} {note : CasNote}
    (howes : th.call.owes th.past (.casNonceState scope v s f note))
    (hcan : p.world.can (ev (.casNonceState scope v s f note) (.ok true))) :
    Sound (p.answer i th (.casNonceState scope v s f note) (.ok true) k
      (p.world.apply (ev (.casNonceState scope v s f note) (.ok true)))) := by
  obtain ⟨hnone, rfl, hsw, old, hmem, hs⟩ := howes
  obtain ⟨hv, hafter⟩ := Store.casNonceState_true (of_decide_eq_true hcan)
  have hcur : (⟨old, v⟩ : Versioned NonceState) =
      p.world.store.loadNonceState ⟨th.call.account⟩ := by
    rcases h.loaded th (List.mem_of_getElem? hi) _ _ hmem with hlt | he
    · exact absurd hlt (by simp [hv])
    · exact he
  have hstate : (p.world.apply (ev (.casNonceState ⟨th.call.account⟩ v s f note)
      (.ok true))).store.loadNonceState = Function.update p.world.store.loadNonceState
        ⟨th.call.account⟩ ⟨s, (p.world.store.loadNonceState ⟨th.call.account⟩).version + 1⟩ := by
    funext t
    rw [hv, Function.update_apply]
    exact hafter t
  refine ⟨?_, fun th' hth' t u hu => ?_⟩
  · have hsw' : swaps (th.past ++ [ev (.casNonceState ⟨th.call.account⟩ v s f note) (.ok true)]) =
        [note] := by rw [swaps_append, hnone]; rfl
    rw [book_answer]
    change Book.Kept _ (p.book.set i (th.call, swaps (th.past ++
      [ev (.casNonceState ⟨th.call.account⟩ v s f note) (.ok true)])))
    rw [hsw', Pool.answer, hstate]
    exact h.kept.swap (by rw [book_get hi, hnone]) hsw (hcur ▸ hs)
  · have hold : u.version < (p.world.store.loadNonceState t).version ∨
        u = p.world.store.loadNonceState t := by
      rcases Pool.mem_answer hth' with hth' | rfl
      · exact h.loaded th' hth' t u hu
      · rcases List.mem_append.mp hu with hu | hu
        · exact h.loaded th (List.mem_of_getElem? hi) t u hu
        · cases List.mem_singleton.mp hu
    rw [Pool.answer, hstate]
    by_cases ht : t = ⟨th.call.account⟩
    · subst ht
      left
      rw [Function.update_self]
      rcases hold with hlt | rfl
      · exact hlt.trans (Nat.lt_succ_self _)
      · exact Nat.lt_succ_self _
    · rwa [Function.update_of_ne ht]

end Move

theorem sound_step (h : Sound p) (hreach : nonceCalls.Reaches start p)
    (hs : nonceCalls.Step p p') : Sound p' := by
  cases hs with
  | spawn c hc => exact sound_call h hreach hc
  | @move i th o k x r hi hprog hcan =>
    cases hq : swapped ⟨o, r⟩ with
    | none => exact sound_quiet h hi hcan hq
    | some note =>
      have hcall := hreach.history NonceCall.body_history rfl th (List.mem_of_getElem? hi)
      rw [hprog] at hcall
      obtain ⟨scope, v, s, f, he⟩ := swapped_eq_some hq
      cases he
      exact sound_swap h hi (Prog.wp_history_call.mp hcall).1 hcan

theorem sound_of_reaches (h : nonceCalls.Reaches start p) : Sound p := by
  induction h with
  | refl => exact sound_start
  | tail hreach hstep ih => exact sound_step ih hreach hstep

/-- At any moment a nonce of an account has at most one holder. -/
theorem held_unique (h : nonceCalls.Reaches start p) {a : Address} {i j n : Nat}
    (hi : p.Held a i n) (hj : p.Held a j n) : i = j :=
  ((sound_of_reaches h).kept.ledger a).distinct i j n
    ⟨granted_of_returned h hi.1, fun hr => hi.2 (released_iff.mpr hr)⟩
    ⟨granted_of_returned h hj.1, fun hr => hj.2 (released_iff.mpr hr)⟩

/-- The thread of a call that is still running has not swapped. -/
theorem swaps_poised (h : nonceCalls.Reaches start p) {th : NonceThread} (hth : th ∈ p.threads)
    {o : Op} {k : o.Reply → Io _} (hprog : th.prog = .call o k) : swaps th.past = [] := by
  have hcall := h.history NonceCall.body_history rfl th hth
  rw [hprog] at hcall
  exact (Prog.wp_history_call.mp hcall).1.1

/-- A call that is still running has nothing that could be given back. -/
theorem not_released_poised (h : nonceCalls.Reaches start p) {i : Nat} {th : NonceThread}
    (hi : p.threads[i]? = some th) (hsw : swaps th.past = []) :
    ∀ x ∈ p.threads, x.call.releases i = false := by
  intro x hx
  obtain ⟨l, hl⟩ := List.mem_iff_getElem?.mp hx
  cases hc : x.call with
  | release m a n k =>
    by_contra hk
    obtain rfl : k = i := by simpa [NonceCall.releases] using hk
    obtain ⟨⟨_, _, hg⟩, -⟩ := (sound_of_reaches h).kept.released l m a n k
      (by simp [Book.callAt, book_get hl, hc])
    simp [book_get hi, hsw] at hg
  | allocate | reset => rfl

/-- A call comes to return a nonce by a move of its own. -/
theorem moved_of_returned (h : nonceCalls.Reaches start p) (hs : nonceCalls.Step p p')
    {a : Address} {j n : Nat} (hnew : p'.Returned a j n) (hold : ¬p.Returned a j n) :
    ∃ (th : NonceThread) (o : Op) (k : o.Reply → Io _) (r : o.Reply) (w : World),
      p.threads[j]? = some th ∧ th.prog = .call o k ∧ p.world.can ⟨o, r⟩ ∧
      p' = p.answer j th o r (k r) w := by
  obtain ⟨m, first, hg⟩ := granted_of_returned (h.tail hs) hnew
  obtain ⟨th', hj, hr⟩ := Option.bind_eq_some_iff.mp hnew
  cases hs with
  | spawn c hc =>
    -- a call that has just been made has returned nothing
    rcases Pool.get_spawn hj with hj' | ⟨-, rfl⟩
    · exact absurd (by simp [Returned, hj', hr]) hold
    · rw [book_get hj] at hg
      simp [swaps] at hg
  | @move l th o k x r hl hprog hcan =>
    obtain rfl : l = j := by
      by_contra hne
      refine hold ?_
      rwa [Returned, Pool.get_answer hl, if_neg (Ne.symm hne)] at hnew
    exact ⟨th, o, k, r, _, hl, hprog, hcan, rfl⟩

/-- When an `allocate` call comes to return a nonce, it has just taken it by a swap that was
computed from the stored state. -/
theorem returned_by_swap (h : nonceCalls.Reaches start p) (hs : nonceCalls.Step p p')
    {a : Address} {j n : Nat} (hnew : p'.Returned a j n) (hold : ¬p.Returned a j n) :
    ∃ th ∈ p.threads, ∃ v s f first k,
      th.prog = .call (.casNonceState ⟨a⟩ v s f (.allocate n first)) k ∧
      p.world.can (ev (.casNonceState ⟨a⟩ v s f (.allocate n first)) (.ok true)) ∧
      CasNote.ComputedFrom th.past ⟨a⟩ v s (.allocate n first) := by
  obtain ⟨m, first, hg⟩ := granted_of_returned (h.tail hs) hnew
  obtain ⟨th, o, k, r, w, hj, hprog, hcan, rfl⟩ := moved_of_returned h hs hnew hold
  have hth : th ∈ p.threads := List.mem_of_getElem? hj
  have hcall := h.history NonceCall.body_history rfl th hth
  rw [hprog] at hcall
  obtain ⟨hnone, howes⟩ := (Prog.wp_history_call.mp hcall).1
  rw [book_get ((Pool.get_answer hj j).trans (if_pos rfl)), swaps_append, hnone] at hg
  simp only [Option.some.injEq, Prod.mk.injEq, List.nil_append] at hg
  obtain ⟨hc, hsw⟩ := hg
  have hswapped : swapped ⟨o, r⟩ = some (.allocate n first) := by
    cases hq : swapped ⟨o, r⟩ with
    | none => simp [swaps, hq] at hsw
    | some note => simpa [swaps, hq] using hsw
  obtain ⟨scope, v, s, f, he⟩ := swapped_eq_some hswapped
  cases he
  obtain ⟨rfl, -, hfrom⟩ := howes
  have ha : th.call.account = a := by
    rw [hc]
    rfl
  rw [ha] at hprog hcan hfrom
  exact ⟨th, hth, v, s, f, first, k, hprog, hcan, hfrom⟩

/-- **Nonce uniqueness.** In any run, when an `allocate` call returns a nonce, no other
call holds it. -/
theorem allocate_returns_unheld (h : nonceCalls.Reaches start p) (hs : nonceCalls.Step p p')
    {a : Address} {j n : Nat} (hnew : p'.Returned a j n) (hold : ¬p.Returned a j n) (i : Nat) :
    ¬p.Held a i n := by
  intro hi
  have h' : nonceCalls.Reaches start p' := h.tail hs
  have hij : i ≠ j := by
    rintro rfl
    exact hold hi.1
  obtain ⟨th, o, k, r, w, hj, hprog, -, rfl⟩ := moved_of_returned h hs hnew hold
  have hsw := swaps_poised h (List.mem_of_getElem? hj) hprog
  have hcall : ∀ b, th.call.releases b = false := by
    obtain ⟨m, first, hg⟩ := granted_of_returned h' hnew
    rw [book_get ((Pool.get_answer hj j).trans (if_pos rfl))] at hg
    simp only [Option.some.injEq, Prod.mk.injEq] at hg
    rw [hg.1]
    exact fun _ => rfl
  refine hij (held_unique h' (a := a) (n := n) ⟨?_, ?_⟩ ⟨hnew, ?_⟩)
  · rw [Returned, Pool.get_answer hj, if_neg hij]
    exact hi.1
  · rintro ⟨y, hy, hyr, hys⟩
    rcases Pool.mem_answer hy with hy | rfl
    · exact hi.2 ⟨y, hy, hyr, hys⟩
    · rw [hcall i] at hyr
      cases hyr
  · rintro ⟨y, hy, hyr, -⟩
    rcases Pool.mem_answer hy with hy | rfl
    · rw [not_released_poised h hj hsw y hy] at hyr
      cases hyr
    · rw [hcall j] at hyr
      cases hyr

section Race

instance : DecidablePred (NoncePool.Admits p) := fun c => by
  cases c <;> unfold Admits <;> infer_instance

instance (i : Nat) (x : nonceCalls.Choice) (o : ports.Op) (r : ports.Reply o) :
    Decidable (nonceCalls.allow p i x o r) :=
  inferInstanceAs (Decidable (_ = true))

instance (c : NonceCall) : Decidable (nonceCalls.admits p c) :=
  inferInstanceAs (Decidable (p.Admits c))

instance (i : Nat) : Decidable (p.Released i) :=
  inferInstanceAs (Decidable (∃ th ∈ p.threads, _))

instance (a : Address) (i n : Nat) : Decidable (p.Held a i n) :=
  inferInstanceAs (Decidable (_ ∧ _))

/-- A working store; the pending nonce is 5. -/
def pendingFive : World → (o : Op) → Option o.Reply := World.serve fun
  | .pendingNonce _ => some (.ok 5)
  | _ => none

/-- Two calls race on a fresh account: the second one swaps first, so the first one has to
go round again. It is left right before its second swap. -/
def race : NoncePool :=
  System.played (S := nonceCalls) start
    [.spawn (.allocate (.new 3) 7), .spawn (.allocate (.new 3) 7), .moves 0 2 () pendingFive,
      .moves 1 3 () pendingFive, .moves 0 2 () pendingFive]

theorem allocate_returns_unheld_race : ∃ p' : NoncePool, nonceCalls.Reaches start race ∧
    nonceCalls.Step race p' ∧ p'.Returned 7 0 6 ∧ ¬race.Returned 7 0 6 ∧ race.Held 7 1 5 ∧
      ∀ i, ¬race.Held 7 i 6 := by
  have hreach : nonceCalls.Reaches start race := System.reaches_played _ _
  have hnew : ∃ p' : NoncePool, System.moveBy (S := nonceCalls) race 0 () pendingFive = some p' ∧
      p'.Returned 7 0 6 := ⟨_, rfl, by decide⟩
  obtain ⟨p', hmove, hret⟩ := hnew
  have hstep : nonceCalls.Step race p' := System.step_of_moveBy hmove
  exact ⟨p', hreach, hstep, hret, by decide, by decide,
    allocate_returns_unheld hreach hstep hret (by decide)⟩

end Race

end NoncePool

end WalletKit
