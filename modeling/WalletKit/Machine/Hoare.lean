import WalletKit.Machine.Program

/-!
# Weakest preconditions of programs

A program is verified against a `Spec`: how an operation may move the world, what is
owed at the moment it is called, and what is accepted where a bounded loop stops being
observed. `Prog.wp` is the weakest precondition for that reading, by recursion on the
tree, and the rules below follow the ways programs are put together.

Two worlds are used throughout. With the world a state, the rules are those of a
program that runs alone. With the world the list of its own events (`Spec.history`)
they say what must have happened before an operation is called, whatever the answers
were; such facts survive any interleaving with other programs.
-/
namespace WalletKit.Machine

variable {E : Interface} {W α β : Type}

/-- What a program is verified against. -/
structure Spec (E : Interface) (W : Type) where
  step : W → (o : E.Op) → E.Reply o → W → Prop
  owes : W → E.Op → Prop
  stuck : W → Prop

namespace Prog

/-- The weakest precondition of a program for `Q` to hold of its result. -/
def wp (σ : Spec E W) (Q : α → W → Prop) : Prog E α → W → Prop
  | .ret a, w => Q a w
  | .call o k, w => σ.owes w o ∧ ∀ r w', σ.step w o r w' → (k r).wp σ Q w'
  | .halt, w => σ.stuck w

variable {σ : Spec E W}

@[simp] theorem wp_ret {Q : α → W → Prop} {a : α} {w : W} :
    (Prog.ret a).wp σ Q w ↔ Q a w := Iff.rfl

@[simp] theorem wp_pure {Q : α → W → Prop} {a : α} {w : W} :
    (pure a : Prog E α).wp σ Q w ↔ Q a w := Iff.rfl

@[simp] theorem wp_halt {Q : α → W → Prop} {w : W} :
    (Prog.halt : Prog E α).wp σ Q w ↔ σ.stuck w := Iff.rfl

theorem wp_call {Q : α → W → Prop} {o : E.Op} {k : E.Reply o → Prog E α} {w : W} :
    (Prog.call o k).wp σ Q w ↔
      σ.owes w o ∧ ∀ r w', σ.step w o r w' → (k r).wp σ Q w' := Iff.rfl

theorem wp_mono {Q Q' : α → W → Prop} {p : Prog E α} {w : W} (h : p.wp σ Q w)
    (hQ : ∀ a v, Q a v → Q' a v) : p.wp σ Q' w := by
  induction p generalizing w with
  | ret a => exact hQ a w h
  | call o k ih => exact ⟨h.1, fun r v hv => ih r (h.2 r v hv)⟩
  | halt => exact h

/-- What is verified against a specification over a part of the state holds over all of it, for a
specification that asks for no more. -/
theorem wp_comap {V : Type} {τ : Spec E V} (f : V → W) {Q : α → W → Prop} {p : Prog E α} {v : V}
    (h : p.wp σ Q (f v)) (hstep : ∀ v o r v', τ.step v o r v' → σ.step (f v) o r (f v'))
    (howes : ∀ v o, σ.owes (f v) o → τ.owes v o) (hstuck : ∀ v, σ.stuck (f v) → τ.stuck v) :
    p.wp τ (fun a v => Q a (f v)) v := by
  induction p generalizing v with
  | ret a => exact h
  | call o k ih => exact ⟨howes v o h.1, fun r v' hv => ih r (h.2 r _ (hstep v o r v' hv))⟩
  | halt => exact hstuck v h

/-- Sequencing composes weakest preconditions. -/
@[simp] theorem wp_bind {Q : β → W → Prop} {f : α → Prog E β} {p : Prog E α} {w : W} :
    (p >>= f).wp σ Q w ↔ p.wp σ (fun a v => (f a).wp σ Q v) w := by
  induction p generalizing w with
  | ret a => rfl
  | call o k ih =>
    exact and_congr_right fun _ => forall_congr' fun r => forall_congr' fun v =>
      imp_congr_right fun _ => ih r
  | halt => rfl

@[simp] theorem wp_map {Q : β → W → Prop} {f : α → β} {p : Prog E α} {w : W} :
    (f <$> p).wp σ Q w ↔ p.wp σ (fun a v => Q (f a) v) w := wp_bind

/-- A loop over a list: the invariant may speak about what is left to do. -/
theorem wp_forM {f : β → Prog E PUnit} (I : List β → W → Prop) {Q : PUnit → W → Prop}
    {xs : List β} {w : W} (hw : I xs w) (hQ : ∀ v, I [] v → Q ⟨⟩ v)
    (h : ∀ x rest v, (∃ done, done ++ x :: rest = xs) → I (x :: rest) v →
      (f x).wp σ (fun _ => I rest) v) : (xs.forM f).wp σ Q w := by
  suffices H : ∀ ys v, (∃ done, done ++ ys = xs) → I ys v → (ys.forM f).wp σ Q v from
    H xs w ⟨[], rfl⟩ hw
  intro ys
  induction ys with
  | nil => exact fun v _ hv => hQ v hv
  | cons y ys ih =>
    rintro v ⟨done, hd⟩ hv
    refine wp_bind.mpr (wp_mono (h y ys v ⟨done, hd⟩ hv) fun _ u hu => ?_)
    exact ih u ⟨done ++ [y], by simpa using hd⟩ hu

section ExceptT

variable {ε δ : Type}

/-- The `?` operator: an error of the first part is the result of the whole. -/
@[simp] theorem wp_run_bind {Q : Except ε β → W → Prop} {x : ExceptT ε (Prog E) α}
    {f : α → ExceptT ε (Prog E) β} {w : W} :
    (x >>= f).run.wp σ Q w ↔ x.run.wp σ (fun r v => match r with
      | .ok a => (f a).run.wp σ Q v
      | .error e => Q (.error e) v) w := by
  rw [ExceptT.run_bind, wp_bind]
  constructor
  all_goals
    intro h
    refine wp_mono h fun r v hv => ?_
    cases r <;> exact hv

@[simp] theorem wp_run_pure {Q : Except ε α → W → Prop} {a : α} {w : W} :
    (pure a : ExceptT ε (Prog E) α).run.wp σ Q w ↔ Q (.ok a) w := Iff.rfl

@[simp] theorem wp_run_map {Q : Except ε β → W → Prop} {x : ExceptT ε (Prog E) α} {f : α → β}
    {w : W} : (f <$> x).run.wp σ Q w ↔ x.run.wp σ (fun r v => Q (r.map f) v) w := by
  rw [← bind_pure_comp, wp_run_bind]
  constructor
  all_goals
    intro h
    refine wp_mono h fun r v hv => ?_
    cases r <;> exact hv

@[simp] theorem wp_run_throw {Q : Except ε α → W → Prop} {e : ε} {w : W} :
    (throw e : ExceptT ε (Prog E) α).run.wp σ Q w ↔ Q (.error e) w := Iff.rfl

@[simp] theorem wp_run_lift {Q : Except ε α → W → Prop} {p : Prog E α} {w : W} :
    (liftM p : ExceptT ε (Prog E) α).run.wp σ Q w ↔ p.wp σ (fun a v => Q (.ok a) v) w :=
  wp_bind

@[simp] theorem wp_run_orThrow {Q : Except δ α → W → Prop} {p : Prog E (Except ε α)}
    {wrap : ε → δ} {w : W} :
    (p.orThrow wrap).run.wp σ Q w ↔ p.wp σ (fun r v => Q (r.mapError wrap) v) w :=
  wp_bind

@[simp] theorem wp_run_outcome {Q : Except δ (Except ε α) → W → Prop}
    {x : ExceptT ε (Prog E) α} {w : W} :
    (outcome x : ExceptT δ (Prog E) _).run.wp σ Q w ↔ x.run.wp σ (fun r v => Q (.ok r) v) w :=
  wp_bind

end ExceptT

/-- A fallible call has two kinds of answers. -/
theorem forall_except {ε : Type} {P : Except ε α → Prop} :
    (∀ r, P r) ↔ (∀ e, P (.error e)) ∧ ∀ a, P (.ok a) :=
  ⟨fun h => ⟨fun e => h (.error e), fun a => h (.ok a)⟩, fun h r => by
    cases r with
    | error e => exact h.1 e
    | ok a => exact h.2 a⟩

/-- A program all of whose operations keep an assertion keeps it. -/
theorem wp_of_ops {S : E.Op → Prop} {P : W → Prop} {p : Prog E α} {w : W} (h : p.Ops S)
    (howes : ∀ o v, S o → P v → σ.owes v o) (hstuck : ∀ v, P v → σ.stuck v)
    (hstep : ∀ o v r v', S o → P v → σ.step v o r v' → P v') (hw : P w) :
    p.wp σ (fun _ => P) w := by
  induction p generalizing w with
  | ret a => exact hw
  | call o k ih =>
    exact ⟨howes o w h.1 hw, fun r v hv => ih r (h.2 r) (hstep o w r v h.1 hw hv)⟩
  | halt => exact hstuck w hw

/-- What asks for nothing holds of every program. -/
theorem wp_of_trivial {Q : α → W → Prop} (p : Prog E α) (w : W) (howes : ∀ v o, σ.owes v o)
    (hstuck : ∀ v, σ.stuck v) (hQ : ∀ a v, Q a v) : p.wp σ Q w := by
  induction p generalizing w with
  | ret a => exact hQ a w
  | call o k ih => exact ⟨howes w o, fun r v _ => ih r v⟩
  | halt => exact hstuck w

/-- The program meets its specification wherever it starts. -/
def Meets (σ : Spec E W) (p : Prog E α) : Prop := ∀ w, p.wp σ (fun _ _ => True) w

theorem meets_ret (a : α) : (Prog.ret a : Prog E α).Meets σ := fun _ => trivial

theorem Meets.of_ops {S : E.Op → Prop} {p : Prog E α} (h : p.Ops S)
    (howes : ∀ o w, S o → σ.owes w o) (hstuck : ∀ w, σ.stuck w) : p.Meets σ := fun _ =>
  wp_of_ops (P := fun _ => True) h (fun o v ho _ => howes o v ho) (fun v _ => hstuck v)
    (fun _ _ _ _ _ _ _ => trivial) trivial

theorem Meets.bind {p : Prog E α} {f : α → Prog E β} (hp : p.Meets σ) (hf : ∀ a, (f a).Meets σ) :
    (p >>= f).Meets σ := fun w => wp_bind.mpr (wp_mono (hp w) fun a v _ => hf a v)

theorem meets_compositional (σ : Spec E W) : Compositional fun _ p => Meets (E := E) σ p where
  ret := meets_ret
  bind := .bind

theorem Meets.forM {f : β → Prog E PUnit} (xs : List β) (h : ∀ x ∈ xs, (f x).Meets σ) :
    (xs.forM f).Meets σ := fun _ =>
  wp_forM (fun _ _ => True) trivial (fun _ _ => trivial) fun x _ v hx _ =>
    h x (by obtain ⟨done, rfl⟩ := hx; simp) v

theorem Meets.tryBind {ε : Type} {x : ExceptT ε (Prog E) α} {f : α → ExceptT ε (Prog E) β}
    (hx : x.run.Meets σ) (hf : ∀ a, (f a).run.Meets σ) : (x >>= f).run.Meets σ :=
  (meets_compositional σ).tryBind hx hf

end Prog

/-- What an operation owes to the events its own program has seen so far. -/
def Spec.history (owes : List (Event E) → E.Op → Prop) : Spec E (List (Event E)) where
  step h o r h' := h' = h ++ [⟨o, r⟩]
  owes := owes
  stuck _ := True

theorem Prog.wp_history_call {owes : List (Event E) → E.Op → Prop}
    {Q : α → List (Event E) → Prop} {o : E.Op} {k : E.Reply o → Prog E α}
    {h : List (Event E)} :
    (Prog.call o k).wp (.history owes) Q h ↔
      owes h o ∧ ∀ r, (k r).wp (.history owes) Q (h ++ [⟨o, r⟩]) := by
  simp [Prog.wp_call, Spec.history]

/-- A program that owes something owes everything that follows from it. -/
theorem Prog.wp_history_imp {owes owes' : List (Event E) → E.Op → Prop}
    {Q : α → List (Event E) → Prop} {p : Prog E α} {h : List (Event E)}
    (hp : p.wp (.history owes) Q h) (himp : ∀ h o, owes h o → owes' h o) :
    p.wp (.history owes') Q h :=
  Prog.wp_comap id hp (fun _ _ _ _ hv => hv) himp fun _ hv => hv

/-- What is owed whatever has happened is a matter of the operations alone. -/
theorem Prog.ops_of_history {owes : List (Event E) → E.Op → Prop} {S : E.Op → Prop}
    {Q : α → List (Event E) → Prop} {p : Prog E α} {h : List (Event E)}
    (hp : p.wp (.history owes) Q h) (howes : ∀ h o, owes h o → S o) : p.Ops S := by
  induction p generalizing h with
  | ret a => trivial
  | halt => trivial
  | call o k ih =>
    rw [wp_history_call] at hp
    exact ⟨howes h o hp.1, fun r => ih r (hp.2 r)⟩

/-- The history only grows, and by operations the program performs. -/
theorem Prog.wp_history_frame {owes : List (Event E) → E.Op → Prop}
    {Q : α → List (Event E) → Prop} {S : E.Op → Prop} {p : Prog E α} {h : List (Event E)}
    (hp : p.wp (.history owes) Q h) (hS : p.Ops S) :
    p.wp (.history owes) (fun a h' => Q a h' ∧ ∃ t, h' = h ++ t ∧ ∀ e ∈ t, S e.op) h := by
  suffices H : ∀ t, (∀ e ∈ t, S e.op) → p.wp (.history owes) Q (h ++ t) →
      p.wp (.history owes) (fun a h' => Q a h' ∧ ∃ t, h' = h ++ t ∧ ∀ e ∈ t, S e.op) (h ++ t) by
    simpa using H [] (by simp) (by simpa using hp)
  clear hp
  induction p with
  | ret a => exact fun t ht hq => ⟨hq, t, rfl, ht⟩
  | halt => exact fun _ _ _ => trivial
  | call o k ih =>
    intro t ht hq
    rw [wp_history_call] at hq ⊢
    refine ⟨hq.1, fun r => ?_⟩
    rw [List.append_assoc]
    refine ih r (hS.2 r) (t ++ [⟨o, r⟩]) (fun e he => ?_) (by simpa using hq.2 r)
    rcases List.mem_append.mp he with he | he
    · exact ht e he
    · rw [List.mem_singleton.mp he]
      exact hS.1

end WalletKit.Machine
