import Mathlib.Data.List.Basic
import Mathlib.Tactic

/-!
# Programs over an interface of calls

A program is a tree of calls: it performs an operation, is handed the answer, and
continues. Nothing is said here about what an operation does; that belongs to the
world a program is run in. Because every operation is a separate node, a tree fixes
the points at which other programs may be scheduled, a crash may happen, or an answer
may be an error, and it fixes nothing else.

Trees are well founded. A loop of the source whose length no input bounds is written
with a bound on its rounds, and `halt` is where such a program stops being observed.
-/
namespace WalletKit.Machine

/-- The calls a program can make, and the type each of them answers with. -/
structure Interface where
  Op : Type
  Reply : Op → Type

/-- A finite tree of calls; `halt` never returns and makes no further call. -/
inductive Prog (E : Interface) (α : Type) where
  | ret (a : α)
  | call (o : E.Op) (k : E.Reply o → Prog E α)
  | halt

namespace Prog

variable {E : Interface} {α β γ : Type}

def bind : Prog E α → (α → Prog E β) → Prog E β
  | .ret a, f => f a
  | .call o k, f => .call o fun r => (k r).bind f
  | .halt, _ => .halt

instance : Monad (Prog E) where
  pure := .ret
  bind := bind

/-- Perform one operation and return its answer. -/
def perform (o : E.Op) : Prog E (E.Reply o) := .call o .ret

@[simp] theorem pure_eq (a : α) : (pure a : Prog E α) = .ret a := rfl
@[simp] theorem ret_bind (a : α) (f : α → Prog E β) : (Prog.ret a >>= f) = f a := rfl
@[simp] theorem call_bind (o : E.Op) (k : E.Reply o → Prog E α) (f : α → Prog E β) :
    (Prog.call o k >>= f) = .call o fun r => k r >>= f := rfl
@[simp] theorem halt_bind (f : α → Prog E β) : ((Prog.halt : Prog E α) >>= f) = .halt := rfl
@[simp] theorem perform_bind (o : E.Op) (f : E.Reply o → Prog E β) :
    (perform o >>= f) = .call o f := rfl

theorem bind_ret (p : Prog E α) : (p >>= Prog.ret) = p := by
  induction p with
  | ret a => rfl
  | call o k ih => exact congrArg (Prog.call o) (funext ih)
  | halt => rfl

theorem bind_assoc (p : Prog E α) (f : α → Prog E β) (g : β → Prog E γ) :
    ((p >>= f) >>= g) = (p >>= fun a => f a >>= g) := by
  induction p with
  | ret a => rfl
  | call o k ih => exact congrArg (Prog.call o) (funext ih)
  | halt => rfl

instance : LawfulMonad (Prog E) :=
  LawfulMonad.mk' (Prog E) bind_ret (fun _ _ => rfl) bind_assoc

/-- The operation a program is about to perform. -/
def next? : Prog E α → Option E.Op
  | .call o _ => some o
  | _ => none

theorem exists_call_of_next? {p : Prog E α} {o : E.Op} (h : p.next? = some o) :
    ∃ k, p = .call o k := by
  cases p with
  | call o' k => cases h; exact ⟨k, rfl⟩
  | ret a => cases h
  | halt => cases h

/-- Every operation the program can come to perform, whatever it is answered, lies in `S`. -/
def Ops (S : E.Op → Prop) : Prog E α → Prop
  | .ret _ => True
  | .call o k => S o ∧ ∀ r, (k r).Ops S
  | .halt => True

@[simp] theorem ops_ret (S : E.Op → Prop) (a : α) : (Prog.ret a : Prog E α).Ops S := trivial
@[simp] theorem ops_halt (S : E.Op → Prop) : (Prog.halt : Prog E α).Ops S := trivial
@[simp] theorem ops_call (S : E.Op → Prop) (o : E.Op) (k : E.Reply o → Prog E α) :
    (Prog.call o k).Ops S ↔ S o ∧ ∀ r, (k r).Ops S := Iff.rfl
@[simp] theorem ops_perform (S : E.Op → Prop) (o : E.Op) : (perform o).Ops S ↔ S o := by
  simp [perform]

theorem Ops.bind {S : E.Op → Prop} {p : Prog E α} {f : α → Prog E β}
    (hp : p.Ops S) (hf : ∀ a, (f a).Ops S) : (p >>= f).Ops S := by
  induction p with
  | ret a => exact hf a
  | call o k ih => exact ⟨hp.1, fun r => ih r (hp.2 r)⟩
  | halt => trivial

theorem Ops.mono {S T : E.Op → Prop} {p : Prog E α} (hp : p.Ops S) (h : ∀ o, S o → T o) :
    p.Ops T := by
  induction p with
  | ret a => trivial
  | call o k ih => exact ⟨h o hp.1, fun r => ih r (hp.2 r)⟩
  | halt => trivial

theorem Ops.and {S T : E.Op → Prop} {p : Prog E α} (hp : p.Ops S) (hp' : p.Ops T) :
    p.Ops fun o => S o ∧ T o := by
  induction p with
  | ret a => trivial
  | call o k ih => exact ⟨⟨hp.1, hp'.1⟩, fun r => ih r (hp.2 r) (hp'.2 r)⟩
  | halt => trivial

theorem Ops.forM {S : E.Op → Prop} {f : β → Prog E PUnit} (xs : List β)
    (h : ∀ x ∈ xs, (f x).Ops S) : (xs.forM f).Ops S := by
  induction xs with
  | nil => trivial
  | cons x xs ih =>
    refine Ops.bind (h x (by simp)) fun _ => ih fun y hy => h y (by simp [hy])

/-- The result of a program that is answered by an oracle; `none` where it has no answer. -/
def eval (oracle : (o : E.Op) → Option (E.Reply o)) : Prog E α → Option α
  | .ret a => some a
  | .call o k => (oracle o).bind fun r => (k r).eval oracle
  | .halt => none

theorem eval_bind (oracle : (o : E.Op) → Option (E.Reply o)) (p : Prog E α) (f : α → Prog E β) :
    (p >>= f).eval oracle = (p.eval oracle).bind fun a => (f a).eval oracle := by
  induction p with
  | ret a => rfl
  | call o k ih =>
    rw [call_bind, eval, eval, Option.bind_assoc]
    exact congrArg _ (funext ih)
  | halt => rfl

/-- The `?` operator on a fallible call: its error is wrapped and becomes the result. -/
def orThrow {ε δ : Type} (p : Prog E (Except ε α)) (wrap : ε → δ) : ExceptT δ (Prog E) α :=
  ExceptT.mk do return (← p).mapError wrap

/-- A fallible call whose result is matched on instead of passed on. -/
def outcome {ε δ : Type} (x : ExceptT ε (Prog E) α) : ExceptT δ (Prog E) (Except ε α) :=
  ExceptT.lift x.run

/-- The `?` operator: a failed first part is the result of the whole. -/
theorem Ops.tryBind {S : E.Op → Prop} {ε : Type} {x : ExceptT ε (Prog E) α}
    {f : α → ExceptT ε (Prog E) β} (hx : x.run.Ops S) (hf : ∀ a, (f a).run.Ops S) :
    (x >>= f).run.Ops S := by
  rw [ExceptT.run_bind]
  refine Ops.bind hx fun r => ?_
  cases r with
  | ok a => exact hf a
  | error e => trivial

@[simp] theorem ops_orThrow {S : E.Op → Prop} {ε δ : Type} {p : Prog E (Except ε α)}
    {wrap : ε → δ} (hp : p.Ops S) : (p.orThrow wrap).run.Ops S :=
  Ops.bind hp fun _ => trivial

@[simp] theorem ops_outcome {S : E.Op → Prop} {ε δ : Type} {x : ExceptT ε (Prog E) α}
    (hx : x.run.Ops S) : (outcome x : ExceptT δ (Prog E) _).run.Ops S :=
  Ops.bind hx fun _ => trivial

/-- A property of programs that putting them together keeps. -/
structure Compositional (P : (α : Type) → Prog E α → Prop) : Prop where
  ret : ∀ {α : Type} (a : α), P α (.ret a)
  bind : ∀ {α β : Type} {p : Prog E α} {f : α → Prog E β}, P α p → (∀ a, P β (f a)) →
    P β (p >>= f)

namespace Compositional

variable {P : (α : Type) → Prog E α → Prop}

theorem forM (hP : Compositional P) {f : β → Prog E PUnit} (xs : List β)
    (h : ∀ x, P PUnit (f x)) : P PUnit (xs.forM f) := by
  induction xs with
  | nil => exact hP.ret _
  | cons x xs ih => exact hP.bind (h x) fun _ => ih

theorem tryBind (hP : Compositional P) {ε : Type} {x : ExceptT ε (Prog E) α}
    {f : α → ExceptT ε (Prog E) β} (hx : P _ x.run) (hf : ∀ a, P _ (f a).run) :
    P _ (x >>= f).run := by
  rw [ExceptT.run_bind]
  refine hP.bind hx fun r => ?_
  cases r with
  | ok a => exact hf a
  | error e => exact hP.ret _

end Compositional

theorem ops_compositional (S : E.Op → Prop) : Compositional fun _ p => Ops (E := E) S p where
  ret _ := trivial
  bind := .bind

end Prog

/-- One call together with the answer it was given. -/
structure Event (E : Interface) where
  op : E.Op
  reply : E.Reply op

end WalletKit.Machine
