import WalletKit.Machine.Program

/-!
# Complete runs of a program

`p.Trace es a`: answered as in `es`, the program performs exactly these calls and returns `a`. The
trace of a sequence is the trace of its parts one after the other, and that of a loop has one
segment for each round. A run whose calls are answered by their number is `p.play`; `p.Returns`
says that such a run ends, wherever the numbering starts, and what holds of its result.
-/
namespace WalletKit.Machine.Prog

variable {E : Interface} {α β : Type}

inductive Trace : Prog E α → List (Event E) → α → Prop where
  | ret (a : α) : Trace (.ret a) [] a
  | call {o : E.Op} {k : E.Reply o → Prog E α} {r : E.Reply o} {es : List (Event E)} {a : α} :
      Trace (k r) es a → Trace (.call o k) (⟨o, r⟩ :: es) a

@[simp] theorem trace_ret_iff {a b : α} {es : List (Event E)} :
    (Prog.ret a).Trace es b ↔ es = [] ∧ b = a := by
  refine ⟨fun h => ?_, ?_⟩
  · cases h
    exact ⟨rfl, rfl⟩
  · rintro ⟨rfl, rfl⟩
    exact .ret _

theorem trace_call_iff {o : E.Op} {k : E.Reply o → Prog E α} {es : List (Event E)} {a : α} :
    (Prog.call o k).Trace es a ↔ ∃ r rest, es = ⟨o, r⟩ :: rest ∧ (k r).Trace rest a := by
  refine ⟨fun h => ?_, ?_⟩
  · cases h with
    | call h => exact ⟨_, _, rfl, h⟩
  · rintro ⟨r, rest, rfl, h⟩
    exact .call h

theorem trace_bind_iff {p : Prog E α} {f : α → Prog E β} {es : List (Event E)} {b : β} :
    (p >>= f).Trace es b ↔ ∃ es₁ es₂ a, es = es₁ ++ es₂ ∧ p.Trace es₁ a ∧ (f a).Trace es₂ b := by
  induction p generalizing es with
  | ret a => simp
  | halt =>
    rw [halt_bind]
    constructor
    · intro h
      cases h
    · rintro ⟨_, _, _, _, h, _⟩
      cases h
  | call o k ih =>
    rw [call_bind, trace_call_iff]
    constructor
    · rintro ⟨r, rest, rfl, h⟩
      obtain ⟨es₁, es₂, a, rfl, h₁, h₂⟩ := (ih r).mp h
      exact ⟨⟨o, r⟩ :: es₁, es₂, a, rfl, .call h₁, h₂⟩
    · rintro ⟨es₁, es₂, a, rfl, h₁, h₂⟩
      obtain ⟨r, rest, rfl, hrest⟩ := trace_call_iff.mp h₁
      exact ⟨r, rest ++ es₂, rfl, (ih r).mpr ⟨rest, es₂, a, rfl, hrest, h₂⟩⟩

/-- A loop over a list runs in rounds. -/
theorem trace_forM_iff {f : β → Prog E PUnit} {xs : List β} {es : List (Event E)} :
    (xs.forM f).Trace es ⟨⟩ ↔ ∃ rounds : List (β × List (Event E)), rounds.map (·.1) = xs ∧
      es = rounds.flatMap (·.2) ∧ ∀ x ∈ rounds, (f x.1).Trace x.2 ⟨⟩ := by
  induction xs generalizing es with
  | nil =>
    refine trace_ret_iff.trans ⟨fun h => ⟨[], rfl, h.1, by simp⟩, ?_⟩
    rintro ⟨rounds, hxs, rfl, -⟩
    rw [List.map_eq_nil_iff.mp hxs]
    exact ⟨rfl, rfl⟩
  | cons y ys ih =>
    refine trace_bind_iff.trans ⟨?_, ?_⟩
    · rintro ⟨es₁, es₂, ⟨⟩, rfl, h₁, h₂⟩
      obtain ⟨rounds, rfl, rfl, hrounds⟩ := ih.mp h₂
      exact ⟨(y, es₁) :: rounds, rfl, rfl, List.forall_mem_cons.mpr ⟨h₁, hrounds⟩⟩
    · rintro ⟨rounds, hxs, rfl, hrounds⟩
      obtain ⟨⟨_, es₁⟩, rounds, rfl, rfl, rfl⟩ := List.map_eq_cons_iff.mp hxs
      obtain ⟨h₁, hrounds⟩ := List.forall_mem_cons.mp hrounds
      exact ⟨es₁, _, ⟨⟩, rfl, h₁, ih.mpr ⟨rounds, rfl, rfl, hrounds⟩⟩

/-- The `?` operator in a run that succeeds. -/
theorem trace_tryBind_ok {ε : Type} {x : ExceptT ε (Prog E) α} {f : α → ExceptT ε (Prog E) β}
    {es : List (Event E)} {b : β} (h : (x >>= f).run.Trace es (.ok b)) :
    ∃ es₁ es₂ a, es = es₁ ++ es₂ ∧ x.run.Trace es₁ (.ok a) ∧ (f a).run.Trace es₂ (.ok b) := by
  rw [ExceptT.run_bind] at h
  obtain ⟨es₁, es₂, r, rfl, hx, hf⟩ := trace_bind_iff.mp h
  cases r with
  | ok a => exact ⟨es₁, es₂, a, rfl, hx, hf⟩
  | error e => cases (trace_ret_iff.mp hf).2

section Play

variable (answer : Nat → (o : E.Op) → E.Reply o)

/-- The calls and the result of a program; `n` calls were made before it. -/
def play : Nat → Prog E α → Option (List (Event E) × α)
  | _, .ret a => some ([], a)
  | n, .call o k => (play (n + 1) (k (answer n o))).map fun r => (⟨o, answer n o⟩ :: r.1, r.2)
  | _, .halt => none

variable {answer}

theorem trace_of_play {p : Prog E α} {n : Nat} {es : List (Event E)} {a : α}
    (h : p.play answer n = some (es, a)) : p.Trace es a := by
  induction p generalizing n es with
  | ret b =>
    cases h
    exact .ret _
  | call o k ih =>
    obtain ⟨⟨rest, b⟩, hrest, hr⟩ := Option.map_eq_some_iff.mp h
    cases hr
    exact .call (ih _ hrest)
  | halt => cases h

theorem play_bind (p : Prog E α) (f : α → Prog E β) (n : Nat) :
    (p >>= f).play answer n = (p.play answer n).bind fun r =>
      ((f r.2).play answer (n + r.1.length)).map fun r' => (r.1 ++ r'.1, r'.2) := by
  induction p generalizing n with
  | ret a => simp [play]
  | call o k ih =>
    rw [call_bind, play, play, ih, Option.map_bind, Option.bind_map]
    refine congrArg _ (funext fun r => ?_)
    simp [Function.comp_def, Nat.add_assoc, Nat.add_comm 1]
  | halt => rfl

/-- Answers that do not depend on the number are those of an oracle. -/
theorem play_oracle (oracle : (o : E.Op) → E.Reply o) (p : Prog E α) (n : Nat) :
    (p.play (fun _ => oracle) n).map (·.2) = p.eval fun o => some (oracle o) := by
  induction p generalizing n with
  | ret a => rfl
  | call o k ih =>
    rw [play, eval, Option.map_map, Option.bind_some, ← ih _ (n + 1)]
    rfl
  | halt => rfl

/-- The program ends with a result of which `Q` holds. -/
def Returns (answer : Nat → (o : E.Op) → E.Reply o) (Q : α → Prop) (p : Prog E α) : Prop :=
  ∀ n, ∃ es a, p.play answer n = some (es, a) ∧ Q a

namespace Returns

variable {Q : α → Prop} {R : β → Prop}

theorem ret {a : α} (h : Q a) : (Prog.ret a : Prog E α).Returns answer Q :=
  fun _ => ⟨[], a, rfl, h⟩

theorem bind {p : Prog E α} {f : α → Prog E β} (hp : p.Returns answer Q)
    (hf : ∀ a, Q a → (f a).Returns answer R) : (p >>= f).Returns answer R := by
  intro n
  obtain ⟨es₁, a, hplay, ha⟩ := hp n
  obtain ⟨es₂, b, hrest, hb⟩ := hf a ha (n + es₁.length)
  exact ⟨es₁ ++ es₂, b, by rw [play_bind, hplay, Option.bind_some, hrest]; rfl, hb⟩

end Returns

/-- The program ends without an error, with a result of which `Q` holds. -/
def Succeeds {ε : Type} (answer : Nat → (o : E.Op) → E.Reply o) (Q : α → Prop)
    (x : ExceptT ε (Prog E) α) : Prop :=
  x.run.Returns answer fun r => ∃ a, r = .ok a ∧ Q a

namespace Succeeds

variable {ε : Type} {Q : α → Prop} {R : β → Prop}

theorem pure {a : α} (h : Q a) : Succeeds answer Q (Pure.pure a : ExceptT ε (Prog E) α) :=
  Returns.ret ⟨a, rfl, h⟩

theorem perform {o : E.Op} {Q : E.Reply o → Prop} (h : ∀ n, Q (answer n o)) :
    Succeeds answer Q (ExceptT.lift (Prog.perform o) : ExceptT ε (Prog E) (E.Reply o)) :=
  fun n => ⟨_, _, rfl, _, rfl, h n⟩

theorem bind {x : ExceptT ε (Prog E) α} {f : α → ExceptT ε (Prog E) β} (hx : Succeeds answer Q x)
    (hf : ∀ a, Q a → Succeeds answer R (f a)) : Succeeds answer R (x >>= f) := by
  rw [Succeeds, ExceptT.run_bind]
  refine Returns.bind hx ?_
  rintro _ ⟨a, rfl, ha⟩
  exact hf a ha

theorem mono {x : ExceptT ε (Prog E) α} {Q' : α → Prop} (hx : Succeeds answer Q x)
    (h : ∀ a, Q a → Q' a) : Succeeds answer Q' x := by
  intro n
  obtain ⟨es, _, hplay, a, rfl, ha⟩ := hx n
  exact ⟨es, _, hplay, a, rfl, h a ha⟩

end Succeeds

end Play

end WalletKit.Machine.Prog
