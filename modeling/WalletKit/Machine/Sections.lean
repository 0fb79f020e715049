import WalletKit.Machine.Hoare
import WalletKit.Machine.Pool

/-!
# Sections of a program

`p.After t q`: answered as in `t`, the program has `q` left to do. A program is sectioned when an
assertion about its history holds whenever it is not in the middle of one of certain other programs,
which it runs one after the other. As with critical sections, the assertion is what is true outside.
-/
namespace WalletKit.Machine

variable {E : Interface} {α β γ : Type}

namespace Prog

inductive After : Prog E α → List (Event E) → Prog E α → Prop where
  | here (p : Prog E α) : After p [] p
  | call {o : E.Op} {k : E.Reply o → Prog E α} {r : E.Reply o} {t : List (Event E)}
      {q : Prog E α} : After (k r) t q → After (.call o k) (⟨o, r⟩ :: t) q

theorem After.snoc {p : Prog E α} {t : List (Event E)} {o : E.Op} {k : E.Reply o → Prog E α}
    (h : p.After t (.call o k)) (r : E.Reply o) : p.After (t ++ [⟨o, r⟩]) (k r) := by
  generalize hq : Prog.call o k = q at h
  induction h with
  | here p =>
    subst hq
    exact .call (.here _)
  | call _ ih => exact .call (ih hq)

/-- A sequence is in its first part, or has that behind it. -/
theorem after_bind {p : Prog E α} {f : α → Prog E β} {t : List (Event E)} {q : Prog E β}
    (h : (p >>= f).After t q) : (∃ x, p.After t x ∧ q = x >>= f) ∨
      ∃ t₁ t₂ a, t = t₁ ++ t₂ ∧ p.After t₁ (.ret a) ∧ (f a).After t₂ q := by
  induction p generalizing t with
  | ret a => exact .inr ⟨[], t, a, rfl, .here _, h⟩
  | halt =>
    cases h with
    | here => exact .inl ⟨.halt, .here _, rfl⟩
  | call o k ih =>
    cases h with
    | here => exact .inl ⟨.call o k, .here _, rfl⟩
    | @call _ _ r _ _ h =>
      rcases ih r h with ⟨x, hx, rfl⟩ | ⟨t₁, t₂, a, rfl, hp, hf⟩
      · exact .inl ⟨x, .call hx, rfl⟩
      · exact .inr ⟨⟨o, r⟩ :: t₁, t₂, a, rfl, .call hp, hf⟩

/-- What is owed along the way, and what holds at the end. -/
theorem After.wp_history {owes : List (Event E) → E.Op → Prop} {Q : α → List (Event E) → Prop}
    {p q : Prog E α} {h t : List (Event E)} (ha : p.After t q) (hp : p.wp (.history owes) Q h) :
    q.wp (.history owes) Q (h ++ t) := by
  induction ha generalizing h with
  | here p => rwa [List.append_nil]
  | @call o k r t q _ ih =>
    have hq := ih ((wp_history_call.mp hp).2 r)
    rwa [List.append_assoc] at hq

/-- The program is in the middle of one from `S`, which has seen `t`. -/
def Within (S : Prog E β → Prop) (t : List (Event E)) (q : Prog E α) : Prop :=
  ∃ s x k, S s ∧ s.After t x ∧ (∀ b, x ≠ .ret b) ∧ q = x >>= k

theorem Within.bind {S : Prog E γ → Prop} {t : List (Event E)} {q : Prog E α}
    (h : q.Within S t) (f : α → Prog E β) : (q >>= f).Within S t := by
  obtain ⟨s, x, k, hs, hx, hne, rfl⟩ := h
  exact ⟨s, x, fun b => k b >>= f, hs, hx, hne, bind_assoc x k f⟩

theorem not_within_ret {S : Prog E β → Prop} {t : List (Event E)} {a : α} :
    ¬(Prog.ret a : Prog E α).Within S t := by
  rintro ⟨s, x, k, -, -, hne, h⟩
  cases x with
  | ret b => exact hne b rfl
  | call | halt => cases h

/-- Wherever the program starts in `I`, it is in `I` or in the middle of one from `S` that has
started in `I`. -/
def Sectioned (S : Prog E β → Prop) (I : List (Event E) → Prop) (p : Prog E α) : Prop :=
  ∀ h t q, I h → p.After t q →
    I (h ++ t) ∨ ∃ t₁ t₂, t = t₁ ++ t₂ ∧ I (h ++ t₁) ∧ q.Within S t₂

variable {S : Prog E γ → Prop} {I : List (Event E) → Prop}

theorem Sectioned.returned {p : Prog E α} (hp : p.Sectioned S I) {h t : List (Event E)} {a : α}
    (hI : I h) (ha : p.After t (.ret a)) : I (h ++ t) :=
  (hp h t _ hI ha).resolve_right fun ⟨_, _, _, _, hw⟩ => not_within_ret hw

/-- Outside of the sections the assertion is kept by every operation. -/
theorem Sectioned.of_ops {O : E.Op → Prop} {p : Prog E α} (hp : p.Ops O)
    (hI : ∀ h e, O e.op → I h → I (h ++ [e])) : p.Sectioned S I := by
  intro h t q hh ha
  refine .inl ?_
  induction ha generalizing h with
  | here => rwa [List.append_nil]
  | @call o k r t q _ ih =>
    have hq := ih (hp.2 r) _ (hI h ⟨o, r⟩ hp.1 hh)
    rwa [List.append_assoc] at hq

/-- A section gives back what it has found. -/
theorem Sectioned.of_section {owes : List (Event E) → E.Op → Prop} {p : Prog E γ} (hS : S p)
    (hp : ∀ h, I h → p.wp (.history owes) (fun _ => I) h) : p.Sectioned S I := by
  intro h t q hh ha
  by_cases hret : ∃ b, q = .ret b
  · obtain ⟨b, rfl⟩ := hret
    exact .inl (ha.wp_history (hp h hh))
  · refine .inr ⟨[], t, rfl, by rwa [List.append_nil], p, q, .ret, hS, ha, ?_, (bind_ret q).symm⟩
    exact fun b hb => hret ⟨b, hb⟩

theorem Sectioned.bind {p : Prog E α} {f : α → Prog E β} (hp : p.Sectioned S I)
    (hf : ∀ a, (f a).Sectioned S I) : (p >>= f).Sectioned S I := by
  intro h t q hh ha
  rcases after_bind ha with ⟨x, hx, rfl⟩ | ⟨t₁, t₂, a, rfl, hx, hq⟩
  · refine (hp h t x hh hx).imp_right ?_
    rintro ⟨t₁, t₂, rfl, hI, hw⟩
    exact ⟨t₁, t₂, rfl, hI, hw.bind f⟩
  · have hrest := hf a (h ++ t₁) t₂ q (hp.returned hh hx) hq
    simp only [List.append_assoc] at hrest
    refine hrest.imp_right ?_
    rintro ⟨t₃, t₄, rfl, hI, hw⟩
    exact ⟨t₁ ++ t₃, t₄, by simp, hI, hw⟩

theorem sectioned_compositional (S : Prog E γ → Prop) (I : List (Event E) → Prop) :
    Compositional fun _ p => Sectioned (E := E) S I p where
  ret _ := .of_ops (O := fun _ => False) trivial fun _ _ => False.elim
  bind := .bind

end Prog

/-- What a call has left to do is what is left of its body after what it has seen. -/
theorem System.Reaches.after {W C : Type} {S : System E W C α} {p₀ p : Pool E W C α}
    (h : S.Reaches p₀ p) (h₀ : p₀.threads = []) :
    ∀ th ∈ p.threads, (S.body th.call).After th.past th.prog := by
  refine h.invariant (I := fun p => ∀ th ∈ p.threads, (S.body th.call).After th.past th.prog)
    (by simp [h₀]) fun p p' hp hstep => ?_
  cases hstep with
  | spawn c _ =>
    intro th hth
    rcases Pool.mem_spawn.mp hth with hth | rfl
    · exact hp th hth
    · exact .here _
  | @move i th o k x r hi hprog _ =>
    intro th' hth'
    rcases Pool.mem_answer hth' with hth' | rfl
    · exact hp th' hth'
    · have hafter := hp th (List.mem_of_getElem? hi)
      rw [hprog] at hafter
      exact hafter.snoc r

end WalletKit.Machine
