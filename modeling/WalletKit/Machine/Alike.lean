import Mathlib.Data.Set.Basic
import WalletKit.Machine.Projection

/-!
# Programs that run alike

Two runs of one program may read different names for the same thing, the version of an entry for
instance, and yet do the same. A matching says which operations stand for each other, once it is
known which names go together, and which answers go with each other. An answer may be judged by
what the first program does with it next.

Putting programs together that run alike gives such programs. When one system answers the programs
of another with answers that go together, their calls follow each other through every run.
-/
namespace WalletKit.Machine

variable {E : Interface} {N W W' C C' α β γ : Type}

/-- Which operations of two programs stand for each other, and which answers go together. What the
programs know of the names that go together grows with the answers. -/
structure Matching (E : Interface) (N : Type) where
  ops : Set N → E.Op → E.Op → Prop
  answers : (o o' : E.Op) → E.Reply o → E.Reply o' → Option E.Op → Set N → Prop
  ops_mono {known known' : Set N} {o o' : E.Op} : known ⊆ known' → ops known o o' →
    ops known' o o'
  /-- Before an operation that nothing need be known for, answers go together as at the end. -/
  answers_end {o o' n n' : E.Op} {r : E.Reply o} {r' : E.Reply o'} {learnt : Set N} :
    ops ∅ n n' → answers o o' r r' (some n) learnt → answers o o' r r' none learnt

namespace Prog

variable {M : Matching E N} {known known' : Set N}

/-- As long as their answers go together, the programs perform operations that stand for each
other, and return the same. -/
inductive Alike (M : Matching E N) : Set N → Prog E α → Prog E α → Prop where
  | ret (known : Set N) (a : α) : Alike M known (.ret a) (.ret a)
  | halt (known : Set N) : Alike M known .halt .halt
  | call {known : Set N} {o o' : E.Op} {k : E.Reply o → Prog E α} {k' : E.Reply o' → Prog E α} :
      M.ops known o o' →
      (∀ {r r' learnt}, M.answers o o' r r' (k r).next? learnt →
        Alike M (known ∪ learnt) (k r) (k' r')) →
      Alike M known (.call o k) (.call o' k')

namespace Alike

theorem mono {p p' : Prog E α} (h : p.Alike M known p') (hle : known ⊆ known') :
    p.Alike M known' p' := by
  induction h generalizing known' with
  | ret _ a => exact .ret _ a
  | halt => exact .halt _
  | call ho _ ih =>
    exact .call (M.ops_mono hle ho) fun ha => ih ha (Set.union_subset_union_left _ hle)

theorem ret_iff {p p' : Prog E α} (h : p.Alike M known p') (a : α) : p = .ret a ↔ p' = .ret a := by
  cases h with
  | ret => exact Iff.rfl
  | halt | call => exact ⟨nofun, nofun⟩

theorem next {p p' : Prog E α} (h : p.Alike M known p') :
    Option.Rel (M.ops known) p.next? p'.next? := by
  cases h with
  | ret | halt => exact .none
  | call hops => exact .some hops

theorem bind {p p' : Prog E α} {f f' : α → Prog E β} (hp : p.Alike M known p')
    (hf : ∀ a, (f a).Alike M ∅ (f' a)) : (p >>= f).Alike M known (p' >>= f') := by
  induction hp with
  | ret _ a => exact (hf a).mono (Set.empty_subset _)
  | halt => exact .halt _
  | @call known o o' k k' ho _ ih =>
    refine .call ho fun {r r' learnt} ha => ih ?_
    change M.answers o o' r r' (k r >>= f).next? learnt at ha
    cases hk : k r with
    | call | halt => rwa [hk] at ha
    | ret a =>
      -- the answer was judged by what comes after this part
      rw [hk, ret_bind] at ha
      cases hnext : (f a).next? with
      | none => rwa [hnext] at ha
      | some n =>
        have hops := (hf a).next
        rw [hnext] at ha hops
        generalize (f' a).next? = next' at hops
        cases hops with
        | some hn => exact M.answers_end hn ha

/-- A program of operations that stand for themselves, with answers that go with no other. -/
theorem of_ops {Q : E.Op → Prop} {p : Prog E α} (hp : p.Ops Q)
    (hops : ∀ {o}, Q o → M.ops ∅ o o)
    (hanswers : ∀ {o r r' n learnt}, Q o → M.answers o o r r' n learnt → r' = r) :
    p.Alike M known p := by
  induction p generalizing known with
  | ret a => exact .ret _ a
  | halt => exact .halt _
  | call o k ih =>
    refine .call (M.ops_mono (Set.empty_subset _) (hops hp.1)) fun {r r' learnt} ha => ?_
    rw [hanswers hp.1 ha]
    exact ih r (hp.2 r)

end Alike

theorem alike_compositional (M : Matching E N) :
    Compositional fun _ p => Alike (E := E) M ∅ p p where
  ret a := .ret _ a
  bind := .bind

/-- What a program performs next when its present operation is answered so. -/
def nextAfter [DecidableEq E.Op] (e : Event E) : Prog E α → Option E.Op
  | .call o k => if h : e.op = o then (k (h ▸ e.reply)).next? else none
  | _ => none

@[simp] theorem nextAfter_call [DecidableEq E.Op] (o : E.Op) (k : E.Reply o → Prog E α)
    (r : E.Reply o) : (Prog.call o k).nextAfter ⟨o, r⟩ = (k r).next? := by
  simp [nextAfter]

end Prog

/-- What call `i` performs next when its present operation is answered so. -/
def Pool.nextAfter [DecidableEq E.Op] (p : Pool E W C α) (i : Nat) (e : Event E) : Option E.Op :=
  p.threads[i]?.bind (·.prog.nextAfter e)

theorem Pool.nextAfter_eq [DecidableEq E.Op] {p : Pool E W C α} {i : Nat} {th : Thread E C α}
    {o : E.Op} {k : E.Reply o → Prog E α} (hi : p.threads[i]? = some th)
    (hprog : th.prog = .call o k) (r : E.Reply o) : p.nextAfter i ⟨o, r⟩ = (k r).next? := by
  simp [Pool.nextAfter, hi, hprog]

/-- A call that another follows: what is observed of the two is the same, and they go on alike. -/
structure Thread.Follows (M : Matching E N) (observe : Event E → β) (known : Set N)
    (th th' : Thread E C α) : Prop where
  call : th.call = th'.call
  past : th.past.map observe = th'.past.map observe
  prog : th.prog.Alike M known th'.prog

namespace System

/-- The calls that `part` names run alike in `S` and in `S'`: what an operation is answered in `S`,
the one that stands for it can be answered in `S'` by what goes with it. In related worlds the
names in `valid` go together, and this lasts. -/
structure Coupling (S : System E W C α) (S' : System E W' C' α) (part : C → Option C')
    (M : Matching E N) (observe : Event E → β) (R : W → W' → Prop) (valid : W → W' → Set N) :
    Prop where
  body {c c'} : part c = some c' → (S.body c).Alike M ∅ (S'.body c')
  spawn {p p' c c'} : S.admits p c → part c = some c' → S'.admits p' c'
  own {p p' i th c' o o' k x r} : p.threads[i]? = some th → part th.call = some c' →
    th.prog = .call o k → S.allow p i x o r → R p.world p'.world →
    M.ops (valid p.world p'.world) o o' →
      ∃ x' r' learnt, (∀ j, S'.allow p' j x' o' r') ∧ M.answers o o' r r' (k r).next? learnt ∧
        observe ⟨o, r⟩ = observe ⟨o', r'⟩ ∧
        R (S.next p.world x o r) (S'.next p'.world x' o' r') ∧
        valid p.world p'.world ∪ learnt ⊆ valid (S.next p.world x o r) (S'.next p'.world x' o' r')
  other {p w' i th x o r} : p.threads[i]? = some th → part th.call = none → S.allow p i x o r →
    R p.world w' → R (S.next p.world x o r) w' ∧ valid p.world w' ⊆ valid (S.next p.world x o r) w'

variable {S : System E W C α} {S' : System E W' C' α} {part : C → Option C'} {M : Matching E N}
  {observe : Event E → β} {R : W → W' → Prop} {valid : W → W' → Set N}

theorem Coupling.lockstep (h : Coupling S S' part M observe R valid) :
    Lockstep S S' part R fun w w' => Thread.Follows M observe (valid w w') where
  spawn _ _ _ _ hc hpart := ⟨h.spawn hc hpart, rfl, rfl, (h.body hpart).mono (Set.empty_subset _)⟩
  own {p p' i th c' o k x r th'} hi hpart hprog ha hworld hfollows := by
    obtain ⟨call', past', prog'⟩ := th'
    obtain ⟨hcall, hpast, halike⟩ := hfollows
    dsimp only at hcall hpast halike
    rw [hprog] at halike
    cases halike with
    | @call _ _ o' _ k' hops hk =>
      obtain ⟨x', r', learnt, ha', hanswers, hobserved, hworld', hvalid⟩ :=
        h.own hi hpart hprog ha hworld hops
      refine ⟨o', k', x', r', rfl, ha', hworld', ⟨hcall, ?_, (hk hanswers).mono hvalid⟩, ?_⟩
      · simp [hpast, hobserved]
      · exact fun u u' hu => ⟨hu.call, hu.past, hu.prog.mono (Set.union_subset_iff.mp hvalid).1⟩
  other hi hpart ha hworld :=
    have hstep := h.other hi hpart ha hworld
    ⟨hstep.1, fun _ _ hu => ⟨hu.call, hu.past, hu.prog.mono hstep.2⟩⟩

end System

end WalletKit.Machine
