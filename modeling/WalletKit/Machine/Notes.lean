import WalletKit.Machine.Pool
import Mathlib.Logic.Function.Basic

/-!
# Runs with notes

What the environment did is often more than its answer tells. Here a system is run with a note on
every answer, kept call by call beside the world. The notes change nothing that the calls do: a run
with notes is a run. What is verified of the body of a call for all the notes that fit an answer
holds of the notes that are taken on the call.
-/
namespace WalletKit.Machine

variable {E : Interface} {W N C α : Type}

/-- A world, and what each call has seen with the notes on it. -/
structure Noted (E : Interface) (W N : Type) where
  world : W
  notes : Nat → List (Event E × N)

/-- What the environment decides where notes are taken. -/
structure Noting (X N : Type) where
  choice : X
  call : Nat
  note : N

namespace Pool

/-- The pool without the notes. -/
def plain (p : Pool E (Noted E W N) C α) : Pool E W C α := ⟨p.world.world, p.threads⟩

/-- The pool before any note is taken. -/
def unnoted (p : Pool E W C α) : Pool E (Noted E W N) C α := ⟨⟨p.world, fun _ => []⟩, p.threads⟩

end Pool

namespace System

/-- The system whose answers are noted, each with a note that fits. -/
def noted (S : System E W C α) (fits : N → Event E → Prop) : System E (Noted E W N) C α where
  Choice := Noting S.Choice N
  body := S.body
  admits p c := S.admits p.plain c
  allow p i x o r := S.allow p.plain i x.choice o r ∧ x.call = i ∧ fits x.note ⟨o, r⟩
  next w x o r := ⟨S.next w.world x.choice o r,
    Function.update w.notes x.call (w.notes x.call ++ [(⟨o, r⟩, x.note)])⟩

instance {S : System E W C α} {fits : N → Event E → Prop} [∀ n e, Decidable (fits n e)]
    [hS : ∀ p i x o r, Decidable (S.allow p i x o r)] (p : Pool E (Noted E W N) C α) (i : Nat)
    (x : (S.noted fits).Choice) (o : E.Op) (r : E.Reply o) :
    Decidable ((S.noted fits).allow p i x o r) :=
  have := hS p.plain i x.choice o r
  inferInstanceAs (Decidable (S.allow p.plain i x.choice o r ∧ x.call = i ∧ fits x.note ⟨o, r⟩))

instance {S : System E W C α} {fits : N → Event E → Prop} [hS : ∀ p c, Decidable (S.admits p c)]
    (p : Pool E (Noted E W N) C α) (c : C) : Decidable ((S.noted fits).admits p c) := hS p.plain c

variable {S : System E W C α} {fits : N → Event E → Prop}

/-- A run with notes is a run. -/
theorem Reaches.plain {p₀ p : Pool E (Noted E W N) C α} (h : (S.noted fits).Reaches p₀ p) :
    S.Reaches p₀.plain p.plain := by
  induction h with
  | refl => exact .refl
  | tail _ hstep ih =>
    cases hstep with
    | spawn c hc => exact ih.tail (.spawn c hc)
    | move x r hi hprog ha => exact ih.tail (.move (S := S) x.choice r hi hprog ha.1)

variable {p₀ : Pool E W C α} {p : Pool E (Noted E W N) C α}

/-- What is verified of the body of a call against a specification that takes every note that fits,
holds of what is left of the call and the notes on it. -/
theorem Reaches.annotated {σ : Spec E (List (Event E × N))}
    {Q : C → α → List (Event E × N) → Prop} (h : (S.noted fits).Reaches p₀.unnoted p)
    (hσ : ∀ {notes o r n}, fits n ⟨o, r⟩ → σ.step notes o r (notes ++ [(⟨o, r⟩, n)]))
    (hbody : ∀ c, (S.body c).wp σ (Q c) []) (h₀ : p₀.threads = []) {i : Nat}
    {th : Thread E C α} (hi : p.threads[i]? = some th) :
    th.prog.wp σ (Q th.call) (p.world.notes i) := by
  -- a call that is yet to be made has no notes
  suffices H : (∀ (i : Nat) (th : Thread E C α), p.threads[i]? = some th →
      th.prog.wp σ (Q th.call) (p.world.notes i)) ∧
      ∀ i, p.threads.length ≤ i → p.world.notes i = [] from H.1 i th hi
  clear hi
  induction h with
  | refl => exact ⟨fun i th hi => by simp [Pool.unnoted, h₀] at hi, fun _ _ => rfl⟩
  | @tail p q _ hstep ih =>
    obtain ⟨hprogs, hnone⟩ := ih
    cases hstep with
    | spawn c hc =>
      refine ⟨fun i th hi => ?_, fun i hi => hnone i ?_⟩
      · rcases Pool.get_spawn hi with hi | ⟨rfl, rfl⟩
        · exact hprogs i th hi
        · rw [show (p.spawn c _).world = p.world from rfl, hnone _ le_rfl]
          exact hbody c
      · simp only [Pool.spawn, List.length_append] at hi
        omega
    | @move j mover o k x r hj hprog ha =>
      obtain ⟨-, rfl, hfits⟩ := ha
      have hlt : x.call < p.threads.length := (List.getElem?_eq_some_iff.mp hj).1
      refine ⟨fun i th hi => ?_, fun i hi => ?_⟩
      · rw [Pool.get_answer hj] at hi
        split at hi
        · rename_i hij
          subst hij
          cases hi
          have hnow := hprogs _ mover hj
          rw [hprog] at hnow
          simpa [noted] using hnow.2 r _ (hσ hfits)
        · rename_i hij
          simpa [noted, Function.update_of_ne hij] using hprogs i th hi
      · have hi : p.threads.length ≤ i := by simpa [Pool.answer] using hi
        simpa [noted, Function.update_of_ne (show i ≠ x.call by omega)] using hnone i hi

/-- The notes of a call are on what it has seen, in that order, and they fit. -/
theorem Reaches.notes_of (h : (S.noted fits).Reaches p₀.unnoted p) (h₀ : p₀.threads = [])
    (i : Nat) : (p.world.notes i).map Prod.fst = p.pastOf i ∧
      ∀ n ∈ p.world.notes i, fits n.2 n.1 := by
  refine h.invariant (I := fun p => (p.world.notes i).map Prod.fst = p.pastOf i ∧
    ∀ n ∈ p.world.notes i, fits n.2 n.1) ?_ fun p q hp hstep => ?_
  · simp [Pool.unnoted, Pool.pastOf, h₀]
  · cases hstep with
    | spawn c hc => rwa [Pool.pastOf_spawn]
    | @move j mover o k x r hj hprog ha =>
      obtain ⟨-, rfl, hfits⟩ := ha
      rw [Pool.pastOf_answer hj]
      split
      · rename_i hij
        subst hij
        simp only [noted, Pool.world_answer, Function.update_self, List.map_append, hp.1,
          List.map_cons, List.map_nil, true_and, List.mem_append, List.mem_singleton]
        rintro n (hn | rfl)
        · exact hp.2 n hn
        · exact hfits
      · rename_i hij
        simpa [noted, Function.update_of_ne hij] using hp

end System

end WalletKit.Machine
