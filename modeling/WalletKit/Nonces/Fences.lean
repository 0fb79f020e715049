import WalletKit.Nonces.LockFree

/-!
# A manager with an older token is fenced off

Every swap carries the token of its manager, and the store keeps the token of the last swap that
went through. Once a manager with a newer token has swapped on an account, no manager with an older
one swaps there again, however their loads and swaps interleave: its next attempt is answered with
an error, which ends the call, so it is given no nonce that it did not have before.
-/
namespace WalletKit

open Machine

/-- The error a swap was answered with. -/
def refused : PortEvent → Option StateStoreError
  | ⟨.casNonceState _ _ _ _ _, r⟩ =>
    match (r : Except StateStoreError Bool) with
    | .error e => some e
    | .ok _ => none
  | _ => none

/-- The token of a swap that went through on an account. -/
def swapToken (a : Address) : PortEvent → Option FenceToken
  | ⟨.casNonceState scope _ _ f _, r⟩ =>
    match (r : Except StateStoreError Bool) with
    | .ok true => if scope = ⟨a⟩ then some f else none
    | _ => none
  | _ => none

/-- An attempt to swap. -/
def triesSwap (e : PortEvent) : Prop := ∃ scope n s f note, e.op = .casNonceState scope n s f note

namespace NonceCall

/-- A call swaps on its account with its manager's token. Once a swap is answered with an error it
does nothing more, and is not cut off either. -/
def carrying (c : NonceCall) : Spec ports (List PortEvent) where
  step h o r h' := h' = h ++ [⟨o, r⟩]
  owes h o := h.findSome? refused = none ∧
    match o with
    | .casNonceState scope _ _ f _ => scope = ⟨c.account⟩ ∧ f = c.fence
    | _ => True
  stuck h := h.findSome? refused = none

variable {c : NonceCall} {h : List PortEvent}

theorem asks_carrying {o : Op} {Q : o.Reply → List PortEvent → Prop} :
    Spec.Asks c.carrying o Q h ↔ c.carrying.owes h o ∧ ∀ r, Q r (h ++ [ev o r]) :=
  ⟨fun hq => ⟨hq.1, fun r => hq.2 r _ rfl⟩, fun hq => ⟨hq.1, by rintro r _ rfl; exact hq.2 r⟩⟩

/-- A call that has been refused returns that error. -/
def Reports (r : Except NonceManagerError (Option Nat)) (past : List PortEvent) : Prop :=
  ∀ e, past.findSome? refused = some e → r = .error (.store e)

theorem reports_of_none {r : Except NonceManagerError (Option Nat)}
    (hh : h.findSome? refused = none) : Reports r h := by
  intro e he
  rw [hh] at he
  cases he

theorem body_carries (c : NonceCall) : c.body.wp c.carrying Reports [] := by
  have snoc : ∀ {h : List PortEvent} {e : PortEvent}, h.findSome? refused = none →
      (h ++ [e]).findSome? refused = refused e := by
    intro h e hh
    simp [List.findSome?_append, hh]
  have hrounds : c.Rounds c.carrying (fun _ h => h.findSome? refused = none)
      (fun _ _ h => h.findSome? refused = none) Reports := {
    cut := fun hh => hh
    load := fun hh => by
      refine asks_carrying.mpr ⟨⟨hh, trivial⟩, fun r => ?_⟩
      cases r with
      | error e => exact reports_of_none (snoc hh)
      | ok loaded => exact snoc hh
    pending := fun hh => by
      refine asks_carrying.mpr ⟨⟨hh, trivial⟩, fun r => ?_⟩
      cases r with
      | error e => exact reports_of_none (snoc hh)
      | ok n => exact snoc hh
    swap := fun s note hh => by
      refine asks_carrying.mpr ⟨⟨hh, rfl, rfl⟩, fun r => ?_⟩
      rcases r with e | _ | _
      · intro x hx
        rw [snoc hh] at hx
        cases hx
        rfl
      · exact snoc hh
      · exact fun _ => reports_of_none (snoc hh)
    idle := reports_of_none }
  exact hrounds.body rfl

/-- The same as a matter of the call's history alone. -/
theorem body_history_carries (c : NonceCall) : c.body.wp (.history c.carrying.owes) Reports [] :=
  Prog.wp_comap id c.body_carries (fun _ _ _ _ hv => hv) (fun _ _ ho => ho) fun _ _ => trivial

end NonceCall

namespace NoncePool

variable {p q : NoncePool} {a : Address} {f : FenceToken}

/-- The tokens of the swaps on an account, oldest first. -/
def tokensOn (a : Address) (log : List PortEvent) : List FenceToken := log.filterMap (swapToken a)

theorem tokensOn_append (log log' : List PortEvent) :
    tokensOn a (log ++ log') = tokensOn a log ++ tokensOn a log' := List.filterMap_append

/-- What a move does to the token of an account. -/
theorem fence_apply {w : World} {e : PortEvent} (hcan : w.can e) :
    (swapToken a e = none ∧ (w.apply e).store.fence ⟨a⟩ = w.store.fence ⟨a⟩) ∨
      ∃ f, swapToken a e = some f ∧ (w.apply e).store.fence ⟨a⟩ = f ∧ w.store.fence ⟨a⟩ ≤ f := by
  obtain ⟨o, r⟩ := e
  cases o with
  | casNonceState scope n s f note =>
    rcases r with e | _ | _
    · exact .inl ⟨rfl, rfl⟩
    · exact .inl ⟨rfl, rfl⟩
    · have hcas : (w.store.casNonceState scope n s f).1 = .ok true := of_decide_eq_true hcan
      have hfence : (w.apply ⟨.casNonceState scope n s f note, .ok true⟩).store.fence ⟨a⟩ =
          if (⟨a⟩ : NonceScope) = scope then f else w.store.fence ⟨a⟩ :=
        Store.fence_casNonceState hcas ⟨a⟩
      by_cases hsc : scope = ⟨a⟩
      · subst hsc
        exact .inr ⟨f, if_pos rfl, hfence.trans (if_pos rfl),
          (Store.casNonceState_ok_iff.mp hcas).1⟩
      · exact .inl ⟨if_neg hsc, hfence.trans (if_neg (Ne.symm hsc))⟩
  | putHandle h site => exact .inl ⟨rfl, by rcases r with e | _ <;> rfl⟩
  | _ => exact .inl ⟨rfl, rfl⟩

/-- The tokens of an account never go back, and the store keeps the newest. -/
theorem tokens_sorted (h : anyNonceCalls.Reaches start p) :
    (tokensOn a p.world.log).Pairwise (· ≤ ·) ∧
      ∀ f ∈ tokensOn a p.world.log, f ≤ p.world.store.fence ⟨a⟩ := by
  refine h.invariant (I := fun p => (tokensOn a p.world.log).Pairwise (· ≤ ·) ∧
    ∀ f ∈ tokensOn a p.world.log, f ≤ p.world.store.fence ⟨a⟩) ⟨.nil, by simp [tokensOn, start,
      World.initial]⟩ fun p p' hp hs => ?_
  obtain ⟨hsorted, hle⟩ := hp
  cases hs with
  | spawn c _ => exact ⟨hsorted, hle⟩
  | @move i th o k x r hi hprog ha =>
    rw [Pool.world_answer]
    change (tokensOn a (p.world.log ++ [⟨o, r⟩])).Pairwise (· ≤ ·) ∧
      ∀ f ∈ tokensOn a (p.world.log ++ [⟨o, r⟩]), f ≤ (p.world.apply ⟨o, r⟩).store.fence ⟨a⟩
    rw [tokensOn_append]
    rcases fence_apply (a := a) ha with ⟨hnone, hfence⟩ | ⟨f, hsome, hfence, hnew⟩
    · have hnil : tokensOn a [(⟨o, r⟩ : PortEvent)] = [] := by simp [tokensOn, hnone]
      rw [hnil, List.append_nil, hfence]
      exact ⟨hsorted, hle⟩
    · have hone : tokensOn a [(⟨o, r⟩ : PortEvent)] = [f] := by simp [tokensOn, hsome]
      rw [hone, hfence]
      refine ⟨List.pairwise_append.mpr ⟨hsorted, List.pairwise_singleton _ _, ?_⟩, ?_⟩
      · intro g hg f' hf'
        rw [List.mem_singleton.mp hf']
        exact (hle g hg).trans hnew
      · intro g hg
        rcases List.mem_append.mp hg with hg | hg
        · exact (hle g hg).trans hnew
        · exact (List.mem_singleton.mp hg).le

/-- An attempt to swap with an older token than one that has swapped is answered with an error. -/
theorem refused_of_older (h : anyNonceCalls.Reaches start p)
    (hf : f ∈ tokensOn a p.world.log) {n : Nat} {s : NonceState} {t : FenceToken} {note : CasNote}
    {r : Except StateStoreError Bool} (hlt : t < f)
    (hcan : p.world.can (ev (.casNonceState ⟨a⟩ n s t note) r)) :
    ∃ e, refused (ev (.casNonceState ⟨a⟩ n s t note) r) = some e := by
  cases r with
  | error e => exact ⟨e, rfl⟩
  | ok b =>
    have hcas : (p.world.store.casNonceState ⟨a⟩ n s t).1 = .ok b := of_decide_eq_true hcan
    have hle := (Store.casNonceState_ok_iff.mp hcas).1
    have hnewest := (tokens_sorted h).2 f hf
    exact absurd (hnewest.trans hle) (not_le.mpr hlt)

/-- A swap that is answered with an error is the last thing its call does, and the call returns that
error. -/
theorem refused_ends (h : anyNonceCalls.Reaches start p) {th : NonceThread} (hth : th ∈ p.threads)
    {before after : List PortEvent} {e : PortEvent} {err : StateStoreError}
    (hpast : th.past = before ++ e :: after) (herr : refused e = some err) :
    after = [] ∧ th.prog = .ret (.error (.store err)) := by
  have owed := h.owed NonceCall.body_history_carries rfl th hth
  have hfirst : th.past.findSome? refused = some err := by
    rw [hpast, List.findSome?_append, (owed before e after hpast).1]
    simp [herr]
  constructor
  · rcases List.eq_nil_or_concat after with rfl | ⟨after, e', rfl⟩
    · rfl
    · have hnone := (owed (before ++ e :: after) e' [] (by simp [hpast])).1
      cases herr.symm.trans (List.findSome?_eq_none_iff.mp hnone e (by simp))
  · have htraced := h.traced (fun _ _ _ _ => rfl) NonceCall.body_carries rfl th hth
    cases hprog : th.prog with
    | ret r =>
      rw [hprog] at htraced
      rw [Prog.wp_ret.mp htraced err hfirst]
    | call o k =>
      rw [hprog] at htraced
      cases hfirst.symm.trans htraced.1.1
    | halt =>
      rw [hprog] at htraced
      cases hfirst.symm.trans htraced

/-- Since a newer token has swapped, whatever a call with an older one has attempted was answered
with an error. -/
theorem older_refused (h : anyNonceCalls.Reaches start p) (hq : anyNonceCalls.Reaches p q)
    {i : Nat} {th : NonceThread} (hi : q.threads[i]? = some th)
    (hf : f ∈ tokensOn th.call.account p.world.log) (hlt : th.call.fence < f) :
    ∃ new, th.past = p.pastOf i ++ new ∧
      ∀ e ∈ new, triesSwap e → ∃ err, refused e = some err := by
  obtain ⟨new, hpast, hnew⟩ := hq.since (K := fun _ (e : PortEvent) => ∀ n s t note,
      e.op = .casNonceState ⟨th.call.account⟩ n s t note → t < f → ∃ err, refused e = some err)
    (fun {q i x o r} hq' hallow n s t note ho hlt => by
      obtain rfl : o = .casNonceState ⟨th.call.account⟩ n s t note := ho
      have hreach : anyNonceCalls.Reaches start q := h.trans hq'
      obtain ⟨l, hl⟩ := backed_any.log_prefix hq'
      rw [id, id] at hl
      refine refused_of_older hreach ?_ hlt hallow
      rw [← hl, tokensOn_append]
      exact List.mem_append_left _ hf) i
  rw [Pool.pastOf_of_get hi] at hpast
  refine ⟨new, hpast, fun e he hattempt => ?_⟩
  obtain ⟨scope, n, s, t, note, ho⟩ := hattempt
  obtain ⟨before, after, rfl⟩ := List.append_of_mem he
  have hreach : anyNonceCalls.Reaches start q := h.trans hq
  have howed := hreach.owed NonceCall.body_history_carries rfl th (List.mem_of_getElem? hi)
    (p.pastOf i ++ before) e after (by rw [hpast, List.append_assoc])
  rw [ho] at howed
  obtain ⟨-, rfl, rfl⟩ := howed
  exact hnew before e after rfl n s _ note ho hlt

/-- **A manager with an older token is fenced off.** The tokens of the swaps on an account never go
back. Once one has swapped there, a call whose manager has an older one swaps no more: an attempt
it still makes is answered with an error, is the last thing it does, and the call returns that
error. It returns a nonce only if it had swapped before. -/
theorem superseded_manager_fenced (h : anyNonceCalls.Reaches start p)
    (hq : anyNonceCalls.Reaches p q) (a : Address) :
    (tokensOn a q.world.log).Pairwise (· ≤ ·) ∧
      ∀ i th f, q.threads[i]? = some th → th.call.account = a → f ∈ tokensOn a p.world.log →
        th.call.fence < f → ∃ new, th.past = p.pastOf i ++ new ∧ swaps new = [] ∧
          (∀ e ∈ new, triesSwap e → ∃ err, refused e = some err ∧ new.getLast? = some e ∧
            th.prog = .ret (.error (.store err))) ∧
          ∀ m n, th.call = .allocate m a → th.prog = .ret (.ok (some n)) →
            swaps (p.pastOf i) ≠ [] := by
  have hreach : anyNonceCalls.Reaches start q := h.trans hq
  refine ⟨(tokens_sorted hreach).1, ?_⟩
  rintro i th f hi rfl hf hlt
  have hth := List.mem_of_getElem? hi
  obtain ⟨new, hpast, hrefused⟩ := older_refused h hq hi hf hlt
  have hswaps : swaps new = [] := by
    refine List.filterMap_eq_nil_iff.mpr fun e he => ?_
    by_contra hsome
    obtain ⟨note, hnote⟩ := Option.ne_none_iff_exists'.mp hsome
    obtain ⟨scope, n, s, t, rfl⟩ := swapped_eq_some hnote
    obtain ⟨err, herr⟩ := hrefused _ he ⟨scope, n, s, t, note, rfl⟩
    cases herr
  refine ⟨new, hpast, hswaps, fun e he hattempt => ?_, fun m n hcall hret hnone => ?_⟩
  · obtain ⟨err, herr⟩ := hrefused e he hattempt
    obtain ⟨before, after, rfl⟩ := List.append_of_mem he
    obtain ⟨rfl, hret⟩ := refused_ends hreach hth
      (by rw [hpast, ← List.append_assoc]) herr
    exact ⟨err, herr, by simp, hret⟩
  · have hends := hreach.history NonceCall.body_history rfl th hth
    rw [hret] at hends
    obtain ⟨first, hswap⟩ := Prog.wp_ret.mp hends m _ n hcall rfl
    rw [hpast, swaps_append, hnone, hswaps] at hswap
    cases hswap

/-- A manager has loaded the state of an account when another one, with a newer token, allocates a
nonce there. -/
def takenOver : NoncePool :=
  System.played (S := anyNonceCalls) start
    [.spawn (.allocate (.new 3) 7), .moves 0 2 () pendingFive, .spawn (.allocate ⟨1, 3⟩ 7),
      .moves 1 3 () pendingFive]

/-- The first one tries to swap. -/
def fencedOff : NoncePool :=
  System.played (S := anyNonceCalls) takenOver [.moves 0 1 () pendingFive]

theorem superseded_manager_fenced_late : ∃ (th : NonceThread) (new : List PortEvent),
    fencedOff.threads[0]? = some th ∧ th.past = takenOver.pastOf 0 ++ new ∧ swaps new = [] ∧
      th.prog = .ret (.error (.store .fenced)) := by
  have hreach : anyNonceCalls.Reaches start takenOver := System.reaches_played _ _
  have hlater : anyNonceCalls.Reaches takenOver fencedOff := System.reaches_played _ _
  have hrun : ∃ th : NonceThread, fencedOff.threads[0]? = some th ∧
      th.call = .allocate (.new 3) 7 ∧ th.prog = .ret (.error (.store .fenced)) :=
    ⟨_, rfl, rfl, rfl⟩
  obtain ⟨th, hi, hcall, hret⟩ := hrun
  obtain ⟨new, hpast, hswaps, -⟩ := (superseded_manager_fenced hreach hlater 7).2 0 th 1 hi
    (by rw [hcall]; rfl) (by decide) (by rw [hcall]; decide)
  exact ⟨th, new, hi, hpast, hswaps, hret⟩

end NoncePool

end WalletKit
