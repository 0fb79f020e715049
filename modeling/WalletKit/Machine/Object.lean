import WalletKit.Machine.Pool

/-!
# Atomic objects

An object has operations that take effect at one moment. A call on it is made, takes effect, and
then has a result. Programs that run in a pool implement an object when every call takes effect in
one of its own moves: then what the pool does is what the object does, call by call, and a call
that has returned had its effect between the time it was made and its return.
-/
namespace WalletKit.Machine

variable {E : Interface} {W C R α : Type}

/-- An object whose operations take effect at once; `does s c r s'` says that `c` may take the
state `s` to `s'` with the result `r`. -/
structure Object (C R : Type) where
  State : Type
  does : State → C → R → State → Prop

namespace Object

variable (O : Object C R)

/-- An object in use: its state, and the calls made so far, with the results of those that have
taken effect. -/
structure Uses where
  state : O.State
  calls : List (C × Option R)

inductive Step : O.Uses → O.Uses → Prop where
  | call {u : O.Uses} (c : C) : Step u ⟨u.state, u.calls ++ [(c, none)]⟩
  | effect {u : O.Uses} {i : Nat} {c : C} {r : R} {s : O.State} :
      u.calls[i]? = some (c, none) → O.does u.state c r s → Step u ⟨s, u.calls.set i (c, some r)⟩

def Reaches : O.Uses → O.Uses → Prop := Relation.ReflTransGen O.Step

end Object

/-- Where the calls of a system take effect on an object: the object's state that a world stands
for, and the result that the events of a call have fixed. -/
structure Linearization (S : System E W C α) (O : Object C R) (p₀ : Pool E W C α) where
  abs : W → O.State
  result : C → List (Event E) → Option R
  result_nil : ∀ c, result c [] = none
  move : ∀ {p i th x o r k}, S.Reaches p₀ p → p.threads[i]? = some th → th.prog = .call o k →
    S.allow p i x o r →
      (result th.call (th.past ++ [⟨o, r⟩]) = result th.call th.past ∧
        abs (S.next p.world x o r) = abs p.world) ∨
      result th.call th.past = none ∧ ∃ a, result th.call (th.past ++ [⟨o, r⟩]) = some a ∧
        O.does (abs p.world) th.call a (abs (S.next p.world x o r))

namespace Linearization

variable {S : System E W C α} {O : Object C R} {p₀ p q : Pool E W C α}

/-- The use of the object that a pool stands for. -/
def uses (L : Linearization S O p₀) (p : Pool E W C α) : O.Uses :=
  ⟨L.abs p.world, p.threads.map fun th => (th.call, L.result th.call th.past)⟩

theorem uses_get (L : Linearization S O p₀) {i : Nat} {th : Thread E C α}
    (hi : p.threads[i]? = some th) :
    (L.uses p).calls[i]? = some (th.call, L.result th.call th.past) := by
  simp [uses, hi]

theorem uses_answer (L : Linearization S O p₀) {i : Nat} {th : Thread E C α} {o : E.Op}
    {r : E.Reply o} {rest : Prog E α} {w : W} :
    L.uses (p.answer i th o r rest w) =
      ⟨L.abs w, (L.uses p).calls.set i (th.call, L.result th.call (th.past ++ [⟨o, r⟩]))⟩ := by
  simp [uses, Pool.answer, List.map_set]

/-- A step of the pool is a step of the object, or none. -/
theorem step (L : Linearization S O p₀) (h : S.Reaches p₀ p) (hs : S.Step p q) :
    L.uses q = L.uses p ∨ O.Step (L.uses p) (L.uses q) := by
  cases hs with
  | spawn c _ =>
    refine .inr ?_
    have huses : L.uses (p.spawn c (S.body c)) =
        ⟨(L.uses p).state, (L.uses p).calls ++ [(c, none)]⟩ := by
      simp [uses, Pool.spawn, L.result_nil]
    rw [huses]
    exact .call c
  | @move i th o k x r hi hprog ha =>
    rw [uses_answer]
    rcases L.move h hi hprog ha with ⟨hsame, habs⟩ | ⟨hnone, a, hsome, hdoes⟩
    · obtain ⟨_, hget⟩ := List.getElem?_eq_some_iff.mp (L.uses_get hi)
      refine .inl ?_
      rw [hsame, habs, ← hget, List.set_getElem_self]
      rfl
    · rw [hsome]
      exact .inr (.effect (hnone ▸ L.uses_get hi) hdoes)

/-- What a pool does, the object does. -/
theorem reaches (L : Linearization S O p₀) (h : S.Reaches p₀ p) (hq : S.Reaches p q) :
    O.Reaches (L.uses p) (L.uses q) := by
  induction hq with
  | refl => exact .refl
  | @tail q q' hreach hs ih =>
    rcases L.step (h.trans hreach) hs with hsame | hstep
    · exact hsame ▸ ih
    · exact ih.tail hstep

end Linearization

end WalletKit.Machine
