import Mathlib.Data.List.Forall2
import Mathlib.Tactic

/-!
# Machines that answer

A deterministic machine takes an input and gives an output. Two machines are compared by what
they answer to a sequence of inputs: a simulation relates their states, keeps them related as
long as the inputs meet a condition, and says that their answers are the same exactly on such
inputs. Then the answers to a sequence are the same iff every input of it meets the condition in
the state it finds.
-/
namespace WalletKit.Machine

structure Mealy (I O : Type) where
  State : Type
  start : State
  step : State → I → O × State

namespace Mealy

variable {I O : Type}

def outputs (m : Mealy I O) : m.State → List I → List O
  | _, [] => []
  | s, i :: inputs => (m.step s i).1 :: m.outputs (m.step s i).2 inputs

/-- What the machine answers from its start. -/
def answers (m : Mealy I O) (inputs : List I) : List O := m.outputs m.start inputs

/-- Every input meets `ok` in the state it finds. -/
def Along (m : Mealy I O) (ok : m.State → I → Prop) : m.State → List I → Prop
  | _, [] => True
  | s, i :: inputs => ok s i ∧ m.Along ok (m.step s i).2 inputs

instance along_decidable (m : Mealy I O) (ok : m.State → I → Prop) [∀ s i, Decidable (ok s i)] :
    ∀ (s : m.State) (inputs : List I), Decidable (m.Along ok s inputs)
  | _, [] => .isTrue trivial
  | s, i :: inputs =>
    have := along_decidable m ok (m.step s i).2 inputs
    inferInstanceAs (Decidable (ok s i ∧ m.Along ok (m.step s i).2 inputs))

theorem Along.imp {m : Mealy I O} {ok ok' : m.State → I → Prop} (h : ∀ s i, ok s i → ok' s i)
    {s : m.State} {inputs : List I} (ha : m.Along ok s inputs) : m.Along ok' s inputs := by
  induction inputs generalizing s with
  | nil => trivial
  | cons i inputs ih => exact ⟨h _ _ ha.1, ih ha.2⟩

theorem along_and {m : Mealy I O} {ok ok' : m.State → I → Prop} {s : m.State}
    {inputs : List I} :
    m.Along (fun s i => ok s i ∧ ok' s i) s inputs ↔
      m.Along ok s inputs ∧ m.Along ok' s inputs := by
  induction inputs generalizing s with
  | nil => simp [Along]
  | cons i inputs ih =>
    simp only [Along, ih]
    tauto

/-- The states of `m` follow those of `n` while the inputs are fine; on fine inputs, and on no
others, the answers are the same. -/
structure Simulation (m n : Mealy I O) (same : O → O → Prop) (ok : n.State → I → Prop) where
  rel : m.State → n.State → Prop
  start : rel m.start n.start
  same_iff {s t} (i : I) : rel s t → (same (m.step s i).1 (n.step t i).1 ↔ ok t i)
  step {s t} (i : I) : rel s t → ok t i → rel (m.step s i).2 (n.step t i).2

theorem Simulation.answers_iff {m n : Mealy I O} {same : O → O → Prop} {ok : n.State → I → Prop}
    (S : Simulation m n same ok) (inputs : List I) :
    List.Forall₂ same (m.answers inputs) (n.answers inputs) ↔ n.Along ok n.start inputs := by
  -- the statement for any two related states, by induction on the inputs
  have h : ∀ (inputs : List I) {s t}, S.rel s t →
      (List.Forall₂ same (m.outputs s inputs) (n.outputs t inputs) ↔ n.Along ok t inputs) := by
    intro inputs
    induction inputs with
    | nil => simp [outputs, Along]
    | cons i inputs ih =>
      intro s t hst
      simp only [outputs, List.forall₂_cons, Along, S.same_iff i hst]
      exact and_congr_right fun hok => ih (S.step i hst hok)
  exact h inputs S.start

end Mealy

end WalletKit.Machine
