import WalletKit.Nonces.Linear

/-!
# A round is lost only to a swap of another call

The loops of a nonce manager go round again when their swap is refused as stale. Every such round
is charged to a swap of another call on the same account, made since this call's previous load, and
no swap is charged twice. So among calls that keep failing some call always succeeds, and one that
has used up all its rounds has seen at least that many others go through.
-/
namespace WalletKit

open Machine

/-- A swap that was refused as stale. -/
def lost : PortEvent → Bool
  | ⟨.casNonceState _ _ _ _ _, r⟩ =>
    match (r : Except StateStoreError Bool) with
    | .ok false => true
    | _ => false
  | _ => false

theorem lost_eq_true {e : PortEvent} (h : lost e = true) :
    ∃ scope n s f note, e = ev (.casNonceState scope n s f note) (.ok false) := by
  obtain ⟨o, r⟩ := e
  cases o with
  | casNonceState scope n s f note =>
    rcases r with _ | _ | _
    · cases h
    · exact ⟨scope, n, s, f, note, rfl⟩
    · cases h
  | _ => cases h

/-- Since the last load of this scope, which showed version `n`, no swap was refused. -/
def LoadedLast (past : List PortEvent) (scope : NonceScope) (n : Nat) : Prop :=
  ∃ before v rest, past = before ++ ev (.loadNonceState scope) (.ok ⟨v, n⟩) :: rest ∧
    rest.countP lost = 0

namespace NonceCall

def attempts : NonceCall → Nat
  | .allocate m _ | .release m _ _ _ | .reset m _ _ => m.attempts

def fence : NonceCall → FenceToken
  | .allocate m _ | .release m _ _ _ | .reset m _ _ => m.fence

/-- What it takes to follow a call through its rounds: `I k` holds where `k` rounds are left to
start, and `J k v` inside a round that has loaded version `v` and leaves `k` more. -/
structure Rounds {W : Type} (c : NonceCall) (σ : Spec ports W) (I : Nat → W → Prop)
    (J : Nat → Nat → W → Prop) (Q : Except NonceManagerError (Option Nat) → W → Prop) : Prop where
  cut : ∀ {w}, I 0 w → σ.stuck w
  load : ∀ {k w}, I (k + 1) w → Spec.Asks σ (.loadNonceState ⟨c.account⟩) (fun r w' => match r with
    | .ok loaded => J k loaded.version w'
    | .error e => Q (.error (.store e)) w') w
  pending : ∀ {k v w}, J k v w → Spec.Asks σ (.pendingNonce c.account) (fun r w' => match r with
    | .ok _ => J k v w'
    | .error e => Q (.error (.rpc e)) w') w
  swap : ∀ {k v w} s note, J k v w →
    Spec.Asks σ (.casNonceState ⟨c.account⟩ v s c.fence note) (fun r w' => match r with
      | .ok true => ∀ x, Q (.ok x) w'
      | .ok false => I k w'
      | .error e => Q (.error (.store e)) w') w
  idle : ∀ {k v w}, J k v w → Q (.ok none) w

section Rounds

variable {W α : Type} {c : NonceCall} {σ : Spec ports W} {I : Nat → W → Prop}
  {J : Nat → Nat → W → Prop} {Q : Except NonceManagerError (Option Nat) → W → Prop}
  {out : α → Option Nat} {k v : Nat} {w : W}

theorem Rounds.wp_load (hr : c.Rounds σ I J Q) (h : I (k + 1) w)
    {f : Versioned NonceState → ExceptT NonceManagerError Io α}
    (hnext : ∀ loaded w', J k loaded.version w' →
      (f loaded).run.wp σ (fun r => Q (Except.map out r)) w') :
    (LocalNonceManager.load ⟨c.account⟩ >>= f).run.wp σ (fun r => Q (Except.map out r)) w := by
  obtain ⟨howes, hload⟩ := hr.load h
  unfold LocalNonceManager.load
  simp only [Prog.wp_run_bind, Prog.wp_run_orThrow, StateStore.wp_loadNonceState]
  refine ⟨howes, fun r w' hstep => ?_⟩
  have hreply := hload r w' hstep
  cases r with
  | error e => exact hreply
  | ok loaded => exact hnext loaded w' hreply

theorem Rounds.wp_swap (hr : c.Rounds σ I J Q) (h : J k v w) {m : LocalNonceManager}
    (hm : m.fence = c.fence) {s : NonceState} {note : CasNote} {x : α}
    {retry : ExceptT NonceManagerError Io α}
    (hretry : ∀ w', I k w' → retry.run.wp σ (fun r => Q (Except.map out r)) w') :
    (do if ← m.cas ⟨c.account⟩ v s note then return x
        retry).run.wp σ (fun r => Q (Except.map out r)) w := by
  obtain ⟨howes, hswap⟩ := hr.swap s note h
  unfold LocalNonceManager.cas
  rw [hm]
  simp only [Prog.wp_run_bind, Prog.wp_run_orThrow, StateStore.wp_casNonceState]
  refine ⟨howes, fun r w' hstep => ?_⟩
  have hreply := hswap r w' hstep
  rcases r with e | _ | _
  · exact hreply
  · exact hretry w' hreply
  · exact hreply (out x)

theorem Rounds.wp_firstUse (hr : c.Rounds σ I J Q) (h : J k v w)
    {f : Option Nat → ExceptT NonceManagerError Io α}
    (hnext : ∀ first w', J k v w' → (f first).run.wp σ (fun r => Q (Except.map out r)) w') :
    (LocalNonceManager.firstUse c.account v >>= f).run.wp σ (fun r => Q (Except.map out r)) w := by
  refine Prog.wp_run_bind.mpr (LocalNonceManager.wp_firstUse (fun _ => ?_) fun _ => hnext none w h)
  obtain ⟨howes, hpending⟩ := hr.pending h
  refine ⟨howes, fun r w' hstep => ?_⟩
  have hreply := hpending r w' hstep
  cases r with
  | error e => exact hreply
  | ok n => exact hnext (some n) w' hreply

theorem Rounds.allocateLoop {m : LocalNonceManager} {a : Address}
    (hr : (NonceCall.allocate m a).Rounds σ I J Q) (h : I k w) :
    (m.allocateLoop a k).run.wp σ (fun r => Q (Except.map some r)) w := by
  induction k generalizing w with
  | zero => exact hr.cut h
  | succ k ih =>
    unfold LocalNonceManager.allocateLoop
    exact hr.wp_load h fun loaded w₁ h₁ => hr.wp_firstUse h₁ fun first w₂ h₂ =>
      hr.wp_swap h₂ rfl fun w₃ h₃ => ih h₃

theorem Rounds.releaseLoop {m : LocalNonceManager} {a : Address} {n holder : Nat}
    (hr : (NonceCall.release m a n holder).Rounds σ I J Q) (h : I k w) :
    (m.releaseLoop a n k).run.wp σ (fun r => Q (Except.map (fun _ => none) r)) w := by
  induction k generalizing w with
  | zero => exact hr.cut h
  | succ k ih =>
    unfold LocalNonceManager.releaseLoop
    refine hr.wp_load h fun loaded w₁ h₁ => ?_
    cases loaded.value.release n with
    | none => exact hr.idle h₁
    | some s => exact hr.wp_swap h₁ rfl fun w₂ h₂ => ih h₂

theorem Rounds.resetLoop {m : LocalNonceManager} {a : Address} {n : Nat}
    (hr : (NonceCall.reset m a n).Rounds σ I J Q) (h : I k w) :
    (m.resetLoop a n k).run.wp σ (fun r => Q (Except.map (fun _ => none) r)) w := by
  induction k generalizing w with
  | zero => exact hr.cut h
  | succ k ih =>
    unfold LocalNonceManager.resetLoop
    exact hr.wp_load h fun loaded w₁ h₁ => hr.wp_swap h₁ rfl fun w₂ h₂ => ih h₂

/-- A call can be followed from its first round to its end. -/
theorem Rounds.body (hr : c.Rounds σ I J Q) (h : I c.attempts w) : c.body.wp σ Q w := by
  cases c with
  | allocate m a => exact Prog.wp_run_map.mpr (hr.allocateLoop h)
  | release m a n i => exact Prog.wp_run_map.mpr (hr.releaseLoop h)
  | reset m a n => exact Prog.wp_run_map.mpr (hr.resetLoop h)

end Rounds

/-- A call expects the version it loaded last, and is cut off when all its rounds are lost. -/
def rounds (c : NonceCall) : Spec ports (List PortEvent) where
  step h o r h' := h' = h ++ [⟨o, r⟩]
  owes h o :=
    match o with
    | .casNonceState scope n _ _ _ => LoadedLast h scope n
    | _ => True
  stuck h := h.countP lost = c.attempts

variable {c : NonceCall} {h : List PortEvent}

theorem asks_rounds {o : Op} {Q : o.Reply → List PortEvent → Prop} :
    Spec.Asks c.rounds o Q h ↔ c.rounds.owes h o ∧ ∀ r, Q r (h ++ [ev o r]) :=
  ⟨fun hq => ⟨hq.1, fun r => hq.2 r _ rfl⟩, fun hq => ⟨hq.1, by rintro r _ rfl; exact hq.2 r⟩⟩

theorem body_rounds (c : NonceCall) : c.body.wp c.rounds (fun _ _ => True) [] := by
  have hrounds : c.Rounds c.rounds (fun k h => h.countP lost + k = c.attempts)
      (fun k v h => LoadedLast h ⟨c.account⟩ v ∧ h.countP lost + (k + 1) = c.attempts)
      (fun _ _ => True) := {
    cut := fun h => h
    load := fun {k h} hk => by
      refine asks_rounds.mpr ⟨trivial, fun r => ?_⟩
      cases r with
      | error e => trivial
      | ok loaded =>
        exact ⟨⟨h, loaded.value, [], rfl, rfl⟩, by simpa [lost, ev] using hk⟩
    pending := fun {k v h} hj => by
      refine asks_rounds.mpr ⟨trivial, fun r => ?_⟩
      cases r with
      | error e => trivial
      | ok n =>
        obtain ⟨⟨before, value, rest, rfl, hrest⟩, hk⟩ := hj
        refine ⟨⟨before, value, rest ++ [ev (.pendingNonce c.account) (.ok n)], by simp, ?_⟩, ?_⟩
        · simpa [lost, ev] using hrest
        · simpa [lost, ev] using hk
    swap := fun {k v h} s note hj => by
      refine asks_rounds.mpr ⟨hj.1, fun r => ?_⟩
      rcases r with e | _ | _
      · trivial
      · have hk := hj.2
        have hlost : (h ++ [ev (.casNonceState ⟨c.account⟩ v s c.fence note) (.ok false)]).countP
            lost = h.countP lost + 1 := by simp [lost, ev]
        dsimp only
        omega
      · exact fun _ => trivial
    idle := fun _ => trivial }
  exact hrounds.body (by simp)

/-- A call whose result is open has swapped nothing. -/
theorem swaps_eq_nil {past : List PortEvent} (h : c.result past = none) : swaps past = [] := by
  refine List.filterMap_eq_nil_iff.mpr fun e he => ?_
  have hnone := List.findSome?_eq_none_iff.mp h e he
  cases hq : swapped e with
  | none => rfl
  | some note => cases hnone.symm.trans (settles_of_swapped hq)

end NonceCall

theorem NoncePool.swapsOn_append (a : Address) (l l' : List PortEvent) :
    swapsOn a (l ++ l') = swapsOn a l ++ swapsOn a l' := List.filterMap_append

/-- The version of an account counts the swaps that went through. -/
theorem Backed.version_eq_swaps {W C α : Type} {S : System ports W C α} {view : W → World}
    {p₀ p : Pool ports W C α} (hS : Backed S view) (h₀ : Fresh view p₀) (h : S.Reaches p₀ p)
    (a : Address) : ((view p.world).store.loadNonceState ⟨a⟩).version =
      (NoncePool.swapsOn a (view p.world).log).length := by
  refine h.invariant (I := fun p => ((view p.world).store.loadNonceState ⟨a⟩).version =
    (NoncePool.swapsOn a (view p.world).log).length) (by rw [h₀.2]; rfl) fun p p' hp hs => ?_
  cases hs with
  | spawn c _ => exact hp
  | @move i th o k x r hi hprog ha =>
    rw [Pool.world_answer, hS.next ha, World.apply_log, NoncePool.swapsOn_snoc, List.length_append]
    cases hq : swapped ⟨o, r⟩ with
    | none =>
      rw [NoncePool.swapsOn_quiet hq, World.loadNonceState_apply_quiet hq, hp]
      rfl
    | some note =>
      obtain ⟨scope, n, s, f, he⟩ := swapped_eq_some hq
      cases he
      obtain ⟨hn, hafter⟩ := World.loadNonceState_swap (hS.can ha)
      have hnow := hafter ⟨a⟩
      unfold ev at hnow
      rw [hnow]
      by_cases hsc : scope = ⟨a⟩
      · subst hsc
        rw [if_pos rfl, ← hp, hn]
        simp [NoncePool.swapsOn, Except.toOption]
      · rw [if_neg (Ne.symm hsc), hp]
        simp [NoncePool.swapsOn, hsc]

namespace NoncePool

variable {p q : NoncePool}

/-- A call that was made when the account was at version `base`: the account has moved on once for
every round it has lost and every swap it has made, and each of its loads came after the rounds it
had lost by then. -/
structure Charged (w : World) (a : Address) (base : Nat) (past : List PortEvent) : Prop where
  moved : base + past.countP lost + (swaps past).length ≤ (w.store.loadNonceState ⟨a⟩).version
  loads : ∀ before v rest, past = before ++ ev (.loadNonceState ⟨a⟩) (.ok v) :: rest →
    base + before.countP lost ≤ v.version

section Charged

variable {w w' : World} {a : Address} {base : Nat} {past : List PortEvent}

theorem charged_nil (h : base ≤ (w.store.loadNonceState ⟨a⟩).version) : Charged w a base [] :=
  ⟨by simpa [swaps] using h, by simp⟩

theorem Charged.mono (h : Charged w a base past) (hw : (w.store.loadNonceState ⟨a⟩).version ≤
    (w'.store.loadNonceState ⟨a⟩).version) : Charged w' a base past := ⟨h.moved.trans hw, h.loads⟩

/-- The loads of a longer past are those of the shorter one and the new one. -/
theorem Charged.loads_snoc (h : Charged w a base past) {e : PortEvent}
    (he : ∀ v, e = ev (.loadNonceState ⟨a⟩) (.ok v) → v = w.store.loadNonceState ⟨a⟩) :
    ∀ before v rest, past ++ [e] = before ++ ev (.loadNonceState ⟨a⟩) (.ok v) :: rest →
      base + before.countP lost ≤ v.version := by
  intro before v rest hpast
  rcases List.eq_nil_or_concat rest with rfl | ⟨rest, e', rfl⟩
  · obtain ⟨rfl, hv⟩ := List.append_inj' hpast rfl
    obtain rfl := he v (List.singleton_inj.mp hv)
    have := h.moved
    omega
  · rw [List.concat_eq_append, ← List.cons_append, ← List.append_assoc] at hpast
    exact h.loads before v rest (List.append_inj' hpast rfl).1

end Charged

/-- A move of the call itself: a lost round finds the account past the version it had loaded. -/
theorem charged_move (h : anyNonceCalls.Reaches start p) {i : Nat} {th : NonceThread} {o : Op}
    {k : o.Reply → Io _} {r : o.Reply} {base : Nat} (hi : p.threads[i]? = some th)
    (hprog : th.prog = .call o k) (hcan : p.world.can ⟨o, r⟩)
    (hth : Charged p.world th.call.account base th.past) :
    Charged (p.world.apply ⟨o, r⟩) th.call.account base (th.past ++ [⟨o, r⟩]) := by
  have hmem := List.mem_of_getElem? hi
  have howes : th.call.Unsettled th.past o := unsettled h hi hprog
  have hswaps : swaps th.past = [] := NonceCall.swaps_eq_nil howes.1
  have hmoved := hth.moved
  refine ⟨?_, hth.loads_snoc ?_⟩
  · rw [List.countP_append, swaps_append, List.length_append]
    cases hq : swapped ⟨o, r⟩ with
    | some note =>
      obtain ⟨scope, n, s, f, he⟩ := swapped_eq_some hq
      cases he
      obtain ⟨-, rfl, -⟩ := howes
      obtain ⟨hn, hafter⟩ := World.loadNonceState_swap hcan
      have hnow := (hafter ⟨th.call.account⟩).trans (if_pos rfl)
      unfold ev at hnow
      simp only [hnow, List.countP_singleton, lost, swaps, List.filterMap_cons, hq,
        List.filterMap_nil, List.length_singleton, Bool.false_eq_true, if_false]
      unfold swaps at hmoved
      omega
    | none =>
      have hno : swaps [(⟨o, r⟩ : PortEvent)] = [] := by simp [swaps, hq]
      rw [World.loadNonceState_apply_quiet hq, hno, List.countP_singleton, List.length_nil]
      split
      · -- the version that was expected is not the present one, so it is an older one
        rename_i hlost
        have hrounds := h.traced (fun _ _ _ _ => rfl) NonceCall.body_rounds rfl th hmem
        rw [hprog] at hrounds
        obtain ⟨scope, n, s, f, note, he⟩ := lost_eq_true hlost
        cases he
        obtain ⟨-, rfl, -⟩ := howes
        obtain ⟨before, v, rest, hpast, hrest⟩ : LoadedLast th.past _ n := hrounds.1
        have hload := hth.loads before _ rest hpast
        have hcount : th.past.countP lost = before.countP lost := by
          rw [hpast, List.countP_append, List.countP_cons_of_neg (by simp [lost, ev]), hrest,
            Nat.add_zero]
        have hlt : n < (p.world.store.loadNonceState ⟨th.call.account⟩).version := by
          rcases backed_any.loaded fresh h th hmem ⟨th.call.account⟩ ⟨v, n⟩ (by simp [hpast]) with
            hlt | he
          · exact hlt
          · have hcas : (p.world.store.casNonceState ⟨th.call.account⟩ n s f).1 = .ok false :=
              of_decide_eq_true hcan
            have hversion : n = (p.world.store.loadNonceState ⟨th.call.account⟩).version :=
              congrArg Versioned.version he
            rw [hversion] at hcas
            cases Store.casNonceState_loaded hcas
        rw [hswaps, List.length_nil]
        dsimp only at hload
        omega
      · omega
  · rintro v he
    cases he
    exact of_decide_eq_true hcan

/-- Every call is charged from where its account was when it had done nothing yet. -/
theorem charged_of_reaches (h : anyNonceCalls.Reaches start p) (hq : anyNonceCalls.Reaches p q)
    {i : Nat} (hnew : p.pastOf i = []) : ∀ th, q.threads[i]? = some th →
      Charged q.world th.call.account
        (p.world.store.loadNonceState ⟨th.call.account⟩).version th.past := by
  have versions : ∀ {q q' : NoncePool}, anyNonceCalls.Reaches start q →
      anyNonceCalls.Reaches q q' → ∀ a, (q.world.store.loadNonceState ⟨a⟩).version ≤
        (q'.world.store.loadNonceState ⟨a⟩).version := by
    intro q q' hreach hreach' a
    have hbefore := backed_any.version_eq_swaps fresh hreach a
    have hafter := backed_any.version_eq_swaps fresh (hreach.trans hreach') a
    obtain ⟨l, hl⟩ := backed_any.log_prefix hreach'
    rw [id, id] at hl
    rw [id] at hbefore hafter
    rw [hbefore, hafter, ← hl, swapsOn_append, List.length_append]
    exact Nat.le_add_right _ _
  induction hq with
  | refl =>
    intro th hi
    rw [Pool.pastOf_of_get hi] at hnew
    rw [hnew]
    exact charged_nil le_rfl
  | @tail q q' hreach hs ih =>
    have hq := h.trans hreach
    have hmono := versions hq (.single hs)
    cases hs with
    | spawn c _ =>
      intro th hi
      rcases Pool.get_spawn hi with hi | ⟨-, rfl⟩
      · exact ih th hi
      · exact charged_nil (versions h hreach _)
    | @move j th o k x r hj hprog ha =>
      intro th' hi
      rw [Pool.get_answer hj] at hi
      split at hi
      · rename_i hij
        subst hij
        cases hi
        exact charged_move hq hj hprog ha (ih th hj)
      · exact (ih th' hi).mono (hmono _)

/-- The rounds a call has lost are at most the swaps that other calls have made on its account
since before it did anything; a call that was cut off has seen as many of them as it has rounds. -/
theorem lost_rounds_le_other_swaps (h : anyNonceCalls.Reaches start p)
    (hq : anyNonceCalls.Reaches p q) {i : Nat} (hnew : p.pastOf i = []) {th : NonceThread}
    (hi : q.threads[i]? = some th) :
    (swapsOn th.call.account p.world.log).length + th.past.countP lost + (swaps th.past).length ≤
        (swapsOn th.call.account q.world.log).length ∧
      (th.prog = .halt → (swapsOn th.call.account p.world.log).length + th.call.attempts ≤
        (swapsOn th.call.account q.world.log).length) := by
  have hreach : anyNonceCalls.Reaches start q := h.trans hq
  have hmoved := (charged_of_reaches h hq hnew th hi).moved
  have hbefore := backed_any.version_eq_swaps fresh h th.call.account
  have hafter := backed_any.version_eq_swaps fresh hreach th.call.account
  rw [id] at hbefore hafter
  rw [hbefore, hafter] at hmoved
  refine ⟨hmoved, fun hhalt => ?_⟩
  have hrounds := hreach.traced (fun _ _ _ _ => rfl) NonceCall.body_rounds rfl th
    (List.mem_of_getElem? hi)
  rw [hhalt] at hrounds
  have hall : th.past.countP lost = th.call.attempts := hrounds
  omega

/-- An allocation with two rounds loses both, each to another allocation, and is cut off. -/
def outrun : NoncePool :=
  System.played (S := anyNonceCalls) start
    [.spawn (.allocate (.new 2) 7), .moves 0 2 () pendingFive, .spawn (.allocate (.new 3) 7),
      .moves 1 3 () pendingFive, .moves 0 2 () pendingFive, .spawn (.allocate (.new 3) 7),
      .moves 2 2 () pendingFive, .moves 0 1 () pendingFive]

theorem lost_rounds_le_other_swaps_outrun : ∃ th : NonceThread, outrun.threads[0]? = some th ∧
    th.prog = .halt ∧ th.past.countP lost = 2 ∧
      (swapsOn 7 start.world.log).length + 2 ≤ (swapsOn 7 outrun.world.log).length := by
  have hreach : anyNonceCalls.Reaches start outrun := System.reaches_played _ _
  have hrun : ∃ th : NonceThread, outrun.threads[0]? = some th ∧ th.call = .allocate (.new 2) 7 ∧
      th.prog = .halt ∧ th.past.countP lost = 2 := ⟨_, rfl, rfl, rfl, by decide⟩
  obtain ⟨th, hi, hcall, hhalt, hlost⟩ := hrun
  have hcut := (lost_rounds_le_other_swaps .refl hreach rfl hi).2 hhalt
  rw [hcall] at hcut
  exact ⟨th, hi, hhalt, hlost, hcut⟩

end NoncePool

end WalletKit
