import WalletKit.Machine.Hoare
import Mathlib.Logic.Relation

/-!
# Pools of programs over one world

A pool holds the calls made so far, each with the program it still has to run and the
events it has seen. A step either makes a new call or lets one call perform its next
operation. Which calls may be made, which answers are possible and who may move is left
to a `System`, so that interleaved calls, calls one at a time, and calls that are cut
off by a crash are systems over the same steps.

What a program owes to its own history holds in every pool, since no step of another
call touches it. What holds of the world is then shown step by step.
-/
namespace WalletKit.Machine

variable {E : Interface} {W C α : Type}

/-- A call, the events it has seen, and what it still has to do. -/
structure Thread (E : Interface) (C α : Type) where
  call : C
  past : List (Event E)
  prog : Prog E α

/-- The calls made so far, oldest first, over one world. -/
structure Pool (E : Interface) (W C α : Type) where
  world : W
  threads : List (Thread E C α)

namespace Pool

def spawn (p : Pool E W C α) (c : C) (b : Prog E α) : Pool E W C α :=
  { p with threads := p.threads ++ [⟨c, [], b⟩] }

/-- Thread `i`, which was `th`, has had `o` answered by `r`; the world is now `w`. -/
def answer (p : Pool E W C α) (i : Nat) (th : Thread E C α) (o : E.Op) (r : E.Reply o)
    (rest : Prog E α) (w : W) : Pool E W C α :=
  ⟨w, p.threads.set i ⟨th.call, th.past ++ [⟨o, r⟩], rest⟩⟩

@[simp] theorem world_answer (p : Pool E W C α) (i : Nat) (th : Thread E C α) (o : E.Op)
    (r : E.Reply o) (rest : Prog E α) (w : W) : (p.answer i th o r rest w).world = w := rfl

theorem mem_spawn {p : Pool E W C α} {c : C} {b : Prog E α} {th : Thread E C α} :
    th ∈ (p.spawn c b).threads ↔ th ∈ p.threads ∨ th = ⟨c, [], b⟩ := by
  simp [spawn]

theorem mem_answer {p : Pool E W C α} {i : Nat} {th th' : Thread E C α} {o : E.Op}
    {r : E.Reply o} {rest : Prog E α} {w : W}
    (h : th' ∈ (p.answer i th o r rest w).threads) :
    th' ∈ p.threads ∨ th' = ⟨th.call, th.past ++ [⟨o, r⟩], rest⟩ :=
  List.mem_or_eq_of_mem_set h

theorem get_answer {p : Pool E W C α} {i : Nat} {th : Thread E C α} {o : E.Op}
    {r : E.Reply o} {k : Prog E α} {w : W} (hi : p.threads[i]? = some th) (j : Nat) :
    (p.answer i th o r k w).threads[j]? =
      if j = i then some ⟨th.call, th.past ++ [⟨o, r⟩], k⟩ else p.threads[j]? := by
  have hlt : i < p.threads.length := (List.getElem?_eq_some_iff.mp hi).1
  by_cases h : j = i
  · subst h; simp [answer, hlt]
  · simp [answer, h, List.getElem?_set_ne (Ne.symm h)]

theorem get_spawn {p : Pool E W C α} {c : C} {b : Prog E α} {j : Nat} {th : Thread E C α}
    (h : (p.spawn c b).threads[j]? = some th) :
    p.threads[j]? = some th ∨ j = p.threads.length ∧ th = ⟨c, [], b⟩ := by
  rcases Nat.lt_trichotomy j p.threads.length with hj | hj | hj
  · exact .inl (by simpa [spawn, List.getElem?_append_left hj] using h)
  · subst hj; exact .inr ⟨rfl, by simpa [spawn, eq_comm] using h⟩
  · have : p.threads.length + 1 ≤ j := hj
    simp [spawn, List.getElem?_append_right (Nat.le_of_succ_le this),
      show j - p.threads.length ≠ 0 by omega] at h

/-- The events of the newest call. -/
def current (p : Pool E W C α) : List (Event E) := (p.threads.getLast?.map (·.past)).getD []

theorem current_of_last {p : Pool E W C α} {th : Thread E C α}
    (h : p.threads.getLast? = some th) : p.current = th.past := by simp [current, h]

/-- The events of call `i`. -/
def pastOf (p : Pool E W C α) (i : Nat) : List (Event E) := (p.threads[i]?.map (·.past)).getD []

theorem pastOf_of_get {p : Pool E W C α} {i : Nat} {th : Thread E C α}
    (h : p.threads[i]? = some th) : p.pastOf i = th.past := by simp [pastOf, h]

theorem mem_pastOf {p : Pool E W C α} {i : Nat} {e : Event E} :
    e ∈ p.pastOf i ↔ ∃ th, p.threads[i]? = some th ∧ e ∈ th.past := by
  cases h : p.threads[i]? <;> simp [pastOf, h]

@[simp] theorem pastOf_spawn (p : Pool E W C α) (c : C) (b : Prog E α) (i : Nat) :
    (p.spawn c b).pastOf i = p.pastOf i := by
  rcases lt_trichotomy i p.threads.length with hi | rfl | hi
  · simp [pastOf, spawn, List.getElem?_append_left hi]
  · simp [pastOf, spawn]
  · have hnone : p.threads[i]? = none := List.getElem?_eq_none hi.le
    have hnone' : (p.spawn c b).threads[i]? = none :=
      List.getElem?_eq_none (by simpa [spawn] using hi)
    rw [pastOf, pastOf, hnone, hnone']

theorem pastOf_answer {p : Pool E W C α} {i : Nat} {th : Thread E C α} {o : E.Op}
    {r : E.Reply o} {rest : Prog E α} {w : W} (hi : p.threads[i]? = some th) (j : Nat) :
    (p.answer i th o r rest w).pastOf j =
      if j = i then p.pastOf j ++ [⟨o, r⟩] else p.pastOf j := by
  rw [pastOf, get_answer hi]
  split
  · rename_i hj
    rw [hj, pastOf_of_get hi]
    rfl
  · rfl

/-- What a call has seen after a step it had seen before, unless the step was its own. -/
theorem seen_answer {p : Pool E W C α} {i j : Nat} {th th' : Thread E C α} {o : E.Op}
    {r : E.Reply o} {rest : Prog E α} {w : W} {e : Event E} (hi : p.threads[i]? = some th)
    (hj : (p.answer i th o r rest w).threads[j]? = some th') (he : e ∈ th'.past) :
    (∃ th₀, p.threads[j]? = some th₀ ∧ e ∈ th₀.past) ∨ j = i ∧ e = ⟨o, r⟩ := by
  have hmem : e ∈ (p.answer i th o r rest w).pastOf j := mem_pastOf.mpr ⟨th', hj, he⟩
  rw [pastOf_answer hi] at hmem
  split at hmem
  · rename_i hij
    rcases List.mem_append.mp hmem with hmem | hmem
    · exact .inl (mem_pastOf.mp hmem)
    · exact .inr ⟨hij, List.mem_singleton.mp hmem⟩
  · exact .inl (mem_pastOf.mp hmem)

/-- What call `i` is about to do. -/
def next? (p : Pool E W C α) (i : Nat) : Option E.Op := p.threads[i]?.bind (·.prog.next?)

theorem exists_thread_of_next? {p : Pool E W C α} {i : Nat} {o : E.Op} (h : p.next? i = some o) :
    ∃ th ∈ p.threads, ∃ k, th.prog = .call o k := by
  obtain ⟨th, hth, ho⟩ := Option.bind_eq_some_iff.mp h
  exact ⟨th, List.mem_of_getElem? hth, Prog.exists_call_of_next? ho⟩

end Pool

/-- Which calls may be made and which answers may be given. `Choice` is what the
environment decides besides the answer itself. -/
structure System (E : Interface) (W C α : Type) where
  Choice : Type
  body : C → Prog E α
  admits : Pool E W C α → C → Prop
  allow : Pool E W C α → Nat → Choice → (o : E.Op) → E.Reply o → Prop
  next : W → Choice → (o : E.Op) → E.Reply o → W

namespace System

variable (S : System E W C α)

inductive Step : Pool E W C α → Pool E W C α → Prop where
  | spawn {p : Pool E W C α} (c : C) : S.admits p c → Step p (p.spawn c (S.body c))
  | move {p : Pool E W C α} {i : Nat} {th : Thread E C α} {o : E.Op}
      {k : E.Reply o → Prog E α} (x : S.Choice) (r : E.Reply o) :
      p.threads[i]? = some th → th.prog = .call o k → S.allow p i x o r →
      Step p (p.answer i th o r (k r) (S.next p.world x o r))

/-- The pools a run can lead to. -/
def Reaches : Pool E W C α → Pool E W C α → Prop := Relation.ReflTransGen S.Step

variable {S}

/-- A property of pools that every step keeps holds along every run. -/
theorem Reaches.invariant {I : Pool E W C α → Prop} {p₀ p : Pool E W C α}
    (h : S.Reaches p₀ p) (h₀ : I p₀) (hs : ∀ p p', I p → S.Step p p' → I p') : I p := by
  induction h with
  | refl => exact h₀
  | tail _ hstep ih => exact hs _ _ ih hstep

/-- The system whose answers also meet a condition. -/
def given (S : System E W C α) (cond : Pool E W C α → Nat → Event E → Prop) : System E W C α :=
  { S with allow := fun p i x o r => S.allow p i x o r ∧ cond p i ⟨o, r⟩ }

theorem Step.of_given {cond : Pool E W C α → Nat → Event E → Prop} {p p' : Pool E W C α}
    (h : (S.given cond).Step p p') : S.Step p p' := by
  cases h with
  | spawn c hc => exact .spawn c hc
  | move x r hi hprog ha => exact .move (S := S) x r hi hprog ha.1

theorem Reaches.of_given {cond : Pool E W C α → Nat → Event E → Prop} {p p' : Pool E W C α}
    (h : (S.given cond).Reaches p p') : S.Reaches p p' := by
  induction h with
  | refl => exact .refl
  | tail _ hs ih => exact .tail ih hs.of_given

instance {cond : Pool E W C α → Nat → Event E → Prop} [∀ p i e, Decidable (cond p i e)]
    [hS : ∀ p i x o r, Decidable (S.allow p i x o r)] (p : Pool E W C α) (i : Nat)
    (x : (S.given cond).Choice) (o : E.Op) (r : E.Reply o) :
    Decidable ((S.given cond).allow p i x o r) :=
  have := hS p i x o r
  inferInstanceAs (Decidable (S.allow p i x o r ∧ cond p i ⟨o, r⟩))

instance {cond : Pool E W C α → Nat → Event E → Prop} [hS : ∀ p c, Decidable (S.admits p c)]
    (p : Pool E W C α) (c : C) : Decidable ((S.given cond).admits p c) := hS p c

/-- What is verified of the body of a call, against a specification over its own history that takes
every answer the system gives, holds of what is left of the call in every pool of a run. -/
theorem Reaches.traced_allowed {σ : C → Spec E (List (Event E))}
    {Q : C → α → List (Event E) → Prop} {p₀ p : Pool E W C α} (h : S.Reaches p₀ p)
    (hσ : ∀ {p i x o r} c h, S.allow p i x o r → (σ c).step h o r (h ++ [⟨o, r⟩]))
    (hbody : ∀ c, (S.body c).wp (σ c) (Q c) []) (h₀ : p₀.threads = []) :
    ∀ th ∈ p.threads, th.prog.wp (σ th.call) (Q th.call) th.past := by
  refine h.invariant (I := fun p => ∀ th ∈ p.threads,
    th.prog.wp (σ th.call) (Q th.call) th.past) (by simp [h₀])
    fun p p' hp hstep => ?_
  cases hstep with
  | spawn c _ =>
    intro th hth
    rcases Pool.mem_spawn.mp hth with hth | rfl
    · exact hp th hth
    · exact hbody c
  | @move i th o k x r hi hprog ha =>
    intro th' hth'
    rcases Pool.mem_answer hth' with hth' | rfl
    · exact hp th' hth'
    · have := hp th (List.mem_of_getElem? hi)
      rw [hprog] at this
      exact this.2 r _ (hσ _ _ ha)

/-- The same for a specification that takes any answer. -/
theorem Reaches.traced {σ : C → Spec E (List (Event E))} {Q : C → α → List (Event E) → Prop}
    {p₀ p : Pool E W C α} (h : S.Reaches p₀ p)
    (hσ : ∀ c h o r, (σ c).step h o r (h ++ [⟨o, r⟩]))
    (hbody : ∀ c, (S.body c).wp (σ c) (Q c) []) (h₀ : p₀.threads = []) :
    ∀ th ∈ p.threads, th.prog.wp (σ th.call) (Q th.call) th.past :=
  h.traced_allowed (fun c h _ => hσ c h _ _) hbody h₀

/-- What the body of a call owes to its own history is owed in every pool of a run. -/
theorem Reaches.history {owes : C → List (Event E) → E.Op → Prop}
    {Q : C → α → List (Event E) → Prop} {p₀ p : Pool E W C α} (h : S.Reaches p₀ p)
    (hbody : ∀ c, (S.body c).wp (.history (owes c)) (Q c) []) (h₀ : p₀.threads = []) :
    ∀ th ∈ p.threads, th.prog.wp (.history (owes th.call)) (Q th.call) th.past :=
  h.traced (fun _ _ _ _ => rfl) hbody h₀

/-- What a call owes was owed at every operation it has performed. -/
theorem Reaches.owed {owes : C → List (Event E) → E.Op → Prop}
    {Q : C → α → List (Event E) → Prop} {p₀ p : Pool E W C α} (h : S.Reaches p₀ p)
    (hbody : ∀ c, (S.body c).wp (.history (owes c)) (Q c) []) (h₀ : p₀.threads = []) :
    ∀ th ∈ p.threads, ∀ before e after, th.past = before ++ e :: after →
      owes th.call before e.op := by
  induction h with
  | refl => simp [h₀]
  | @tail p p' hreach hs ih =>
    cases hs with
    | spawn c _ =>
      intro th hth before e after hpast
      rcases Pool.mem_spawn.mp hth with hth | rfl
      · exact ih th hth before e after hpast
      · simp at hpast
    | @move i th o k x r hi hprog _ =>
      intro th' hth' before e after hpast
      rcases Pool.mem_answer hth' with hth' | rfl
      · exact ih th' hth' before e after hpast
      have hth := List.mem_of_getElem? hi
      rcases List.eq_nil_or_concat after with rfl | ⟨after, e', rfl⟩
      · obtain ⟨rfl, he⟩ := List.append_inj' hpast rfl
        cases he
        have hnow := Reaches.history hreach hbody h₀ th hth
        rw [hprog] at hnow
        exact (Prog.wp_history_call.mp hnow).1
      · rw [List.concat_eq_append, ← List.cons_append, ← List.append_assoc] at hpast
        exact ih th hth before e after (List.append_inj' hpast rfl).1

/-- What is checked of every answer to a call holds of all the call has seen. -/
theorem Reaches.answered {K : C → Event E → Prop} {p₀ p : Pool E W C α} (h : S.Reaches p₀ p)
    (hK : ∀ {p i th x o r}, p.threads[i]? = some th → S.allow p i x o r → K th.call ⟨o, r⟩)
    (h₀ : p₀.threads = []) : ∀ th ∈ p.threads, ∀ e ∈ th.past, K th.call e := by
  refine h.invariant (I := fun p => ∀ th ∈ p.threads, ∀ e ∈ th.past, K th.call e) (by simp [h₀])
    fun p p' hp hstep => ?_
  cases hstep with
  | spawn c _ =>
    intro th hth e he
    rcases Pool.mem_spawn.mp hth with hth | rfl
    · exact hp th hth e he
    · cases he
  | @move i th o k x r hi hprog ha =>
    intro th' hth' e he
    rcases Pool.mem_answer hth' with hth' | rfl
    · exact hp th' hth' e he
    · rcases List.mem_append.mp he with he | he
      · exact hp th (List.mem_of_getElem? hi) e he
      · cases List.mem_singleton.mp he
        have hnow : K th.call ⟨o, r⟩ := hK hi ha
        exact hnow

/-- What is checked of every answer from some moment on holds of all that a call has done since. -/
theorem Reaches.since {K : List (Event E) → Event E → Prop} {p₁ p : Pool E W C α}
    (h : S.Reaches p₁ p) (hK : ∀ {q i x o r}, S.Reaches p₁ q → S.allow q i x o r →
      K (q.pastOf i) ⟨o, r⟩) (i : Nat) :
    ∃ new, p.pastOf i = p₁.pastOf i ++ new ∧ ∀ before e after, new = before ++ e :: after →
      K (p₁.pastOf i ++ before) e := by
  induction h with
  | refl => exact ⟨[], by simp, by simp⟩
  | @tail q q' hreach hs ih =>
    obtain ⟨new, hpast, hnew⟩ := ih
    cases hs with
    | spawn c _ => exact ⟨new, by rw [Pool.pastOf_spawn, hpast], hnew⟩
    | @move j th o k x r hj hprog ha =>
      rw [Pool.pastOf_answer hj]
      split
      · rename_i hij
        refine ⟨new ++ [⟨o, r⟩], by rw [hpast, List.append_assoc], fun before e after he => ?_⟩
        rcases List.eq_nil_or_concat after with rfl | ⟨after, e', rfl⟩
        · obtain ⟨rfl, hlast⟩ := List.append_inj' he rfl
          rw [← List.singleton_inj.mp hlast, ← hpast, hij]
          exact hK hreach ha
        · rw [List.concat_eq_append, ← List.cons_append, ← List.append_assoc] at he
          exact hnew before e after (List.append_inj' he rfl).1
      · exact ⟨new, hpast, hnew⟩

/-- A call that has returned stays as it is. -/
theorem Reaches.returned {p₁ p : Pool E W C α} (h : S.Reaches p₁ p) {th : Thread E C α}
    (hth : th ∈ p₁.threads) {a : α} (hret : th.prog = .ret a) : th ∈ p.threads := by
  refine h.invariant (I := fun p => th ∈ p.threads) hth fun q q' hq hs => ?_
  cases hs with
  | spawn c _ => exact Pool.mem_spawn.mpr (.inl hq)
  | @move i mover o k x r hi hprog _ =>
    obtain ⟨j, hj⟩ := List.mem_iff_getElem?.mp hq
    refine List.mem_of_getElem? (i := j) ?_
    rw [Pool.get_answer hi, if_neg, hj]
    rintro rfl
    cases Option.some.inj (hj.symm.trans hi)
    cases hret.symm.trans hprog

/-- What holds of the world and of the events of a call, once they have happened, holds in every
later world if no move of any call undoes it. -/
theorem Reaches.gathered {K : W → List (Event E) → Prop} {p₀ p : Pool E W C α}
    (h : S.Reaches p₀ p) (h₀ : p₀.threads = []) (hnil : ∀ w, K w [])
    (hmono : ∀ {p i x o r past}, S.allow p i x o r → K p.world past →
      K (S.next p.world x o r) past)
    (hsnoc : ∀ {p i th x o r}, S.Reaches p₀ p → p.threads[i]? = some th → S.allow p i x o r →
      K p.world th.past → K (S.next p.world x o r) (th.past ++ [⟨o, r⟩])) :
    ∀ th ∈ p.threads, K p.world th.past := by
  induction h with
  | refl => simp [h₀]
  | @tail p p' hreach hs ih =>
    cases hs with
    | spawn c _ =>
      intro th hth
      rcases Pool.mem_spawn.mp hth with hth | rfl
      · exact ih th hth
      · exact hnil _
    | @move i th o k x r hi hprog ha =>
      intro th' hth'
      rcases Pool.mem_answer hth' with hth' | rfl
      · exact hmono ha (ih th' hth')
      · exact hsnoc hreach hi ha (ih th (List.mem_of_getElem? hi))

/-- Where every `q` was enabled when it happened, and only a `p` enables one `q`, there are no
more `q`s than `p`s. -/
theorem countP_le_of_enabled {β : Type} {l : List β} {p q : β → Bool} (enabled : List β → Prop)
    (h₀ : ¬enabled []) (hq : ∀ before e after, l = before ++ e :: after → q e → enabled before)
    (hp : ∀ before e, enabled (before ++ [e]) → p e ∨ enabled before ∧ q e = false) :
    l.countP q ≤ l.countP p := by
  suffices H : l.countP q ≤ l.countP p ∧ (enabled l → l.countP q + 1 ≤ l.countP p) from H.1
  induction l using List.reverseRecOn with
  | nil => exact ⟨le_refl _, fun h => absurd h h₀⟩
  | append_singleton l e ih =>
    obtain ⟨hle, hlt⟩ := ih fun before x after hl => hq before x (after ++ [e]) (by simp [hl])
    have henabled : q e → enabled l := hq l e [] rfl
    rw [List.countP_append, List.countP_append, List.countP_singleton, List.countP_singleton]
    by_cases hqe : q e
    · have := hlt (henabled hqe)
      rw [if_pos hqe]
      refine ⟨by omega, fun h => ?_⟩
      rcases hp l e h with hpe | ⟨-, hqe'⟩
      · rw [if_pos hpe]; omega
      · simp [hqe] at hqe'
    · rw [if_neg hqe]
      refine ⟨by omega, fun h => ?_⟩
      rcases hp l e h with hpe | ⟨h, -⟩
      · rw [if_pos hpe]; omega
      · have := hlt h; omega

/-- Only the newest call may move: a later call starts when the earlier one has ended or
has been cut off. -/
def Sequential (S : System E W C α) : Prop :=
  ∀ p i x o r, S.allow p i x o r → i + 1 = p.threads.length

theorem Sequential.last (hseq : S.Sequential) {p : Pool E W C α} {i : Nat} {th : Thread E C α}
    {x : S.Choice} {o : E.Op} {r : E.Reply o} (hi : p.threads[i]? = some th)
    (ha : S.allow p i x o r) : p.threads.getLast? = some th := by
  rw [List.getLast?_eq_getElem?, ← hseq p i x o r ha, Nat.add_sub_cancel, hi]

theorem Sequential.last_answer (hseq : S.Sequential) {p : Pool E W C α} {i : Nat}
    {th : Thread E C α} {x : S.Choice} {o : E.Op} {r : E.Reply o} {rest : Prog E α} {w : W}
    (hi : p.threads[i]? = some th) (ha : S.allow p i x o r) :
    (p.answer i th o r rest w).threads.getLast? = some ⟨th.call, th.past ++ [⟨o, r⟩], rest⟩ := by
  have hlen : (p.answer i th o r rest w).threads.length - 1 = i := by
    simp [Pool.answer, ← hseq p i x o r ha]
  rw [List.getLast?_eq_getElem?, hlen, Pool.get_answer hi, if_pos rfl]

/-- Between calls made one at a time, an invariant may speak about the world and about the
events of the newest call. -/
theorem Reaches.sequentially {I : W → List (Event E) → Prop} {p₀ p : Pool E W C α}
    (h : S.Reaches p₀ p) (hseq : S.Sequential) (h₀ : p₀.threads = []) (hI : I p₀.world [])
    (hspawn : ∀ w past, I w past → I w [])
    (hmove : ∀ {p i th x o r k}, S.Reaches p₀ p → p.threads.getLast? = some th →
      th.prog = .call o k → S.allow p i x o r → I p.world th.past →
      I (S.next p.world x o r) (th.past ++ [⟨o, r⟩])) : I p.world p.current := by
  induction h with
  | refl => simpa [Pool.current, h₀] using hI
  | @tail p p' hreach hs ih =>
    cases hs with
    | spawn c _ => simpa [Pool.current, Pool.spawn] using hspawn _ _ ih
    | @move i th o k x r hi hprog ha =>
      have hlast : p.threads.getLast? = some th := hseq.last hi ha
      rw [Pool.current_of_last (hseq.last_answer hi ha)]
      exact hmove hreach hlast hprog ha (Pool.current_of_last hlast ▸ ih)

section Play

/-- A scripted step: make a call, or let a call perform up to `n` operations with the
answers an oracle gives from the present world. -/
inductive Action (S : System E W C α) where
  | spawn (c : C)
  | moves (i n : Nat) (x : S.Choice) (oracle : W → (o : E.Op) → Option (E.Reply o))

variable [∀ p i x o r, Decidable (S.allow p i x o r)]

/-- One operation of thread `i`, or nothing where it cannot move. -/
def moveBy (p : Pool E W C α) (i : Nat) (x : S.Choice)
    (oracle : W → (o : E.Op) → Option (E.Reply o)) : Option (Pool E W C α) :=
  match p.threads[i]? with
  | none => none
  | some th =>
    match th.prog with
    | .call o k =>
      match oracle p.world o with
      | some r =>
        if S.allow p i x o r then some (p.answer i th o r (k r) (S.next p.world x o r)) else none
      | none => none
    | _ => none

/-- Up to `n` operations of thread `i`; it may stop earlier. -/
def movesBy (i : Nat) (x : S.Choice) (oracle : W → (o : E.Op) → Option (E.Reply o)) :
    Nat → Pool E W C α → Pool E W C α
  | 0, p => p
  | n + 1, p =>
    match moveBy p i x oracle with
    | some p' => movesBy i x oracle n p'
    | none => p

theorem step_of_moveBy {p p' : Pool E W C α} {i : Nat} {x : S.Choice}
    {oracle : W → (o : E.Op) → Option (E.Reply o)} (h : moveBy p i x oracle = some p') :
    S.Step p p' := by
  unfold moveBy at h
  split at h
  · cases h
  · rename_i th hi
    split at h
    · rename_i o k hprog
      split at h
      · split at h
        · cases h
          exact .move x _ hi hprog ‹_›
        · cases h
      · cases h
    · cases h

theorem reaches_movesBy (i : Nat) (x : S.Choice)
    (oracle : W → (o : E.Op) → Option (E.Reply o)) (n : Nat) (p : Pool E W C α) :
    S.Reaches p (movesBy i x oracle n p) := by
  induction n generalizing p with
  | zero => exact .refl
  | succ n ih =>
    unfold movesBy
    split
    · exact .head (step_of_moveBy ‹_›) (ih _)
    · exact .refl

variable [∀ p c, Decidable (S.admits p c)]

/-- Play a script; `none` when a call in it is not admitted. -/
def play : Pool E W C α → List (Action S) → Option (Pool E W C α)
  | p, [] => some p
  | p, .spawn c :: rest =>
    if S.admits p c then play (p.spawn c (S.body c)) rest else none
  | p, .moves i n x oracle :: rest => play (movesBy i x oracle n p) rest

/-- What a script leads to is reachable. -/
theorem reaches_of_play {script : List (Action S)} {p p' : Pool E W C α}
    (h : play p script = some p') : S.Reaches p p' := by
  induction script generalizing p with
  | nil => cases h; exact .refl
  | cons a rest ih =>
    cases a with
    | spawn c =>
      unfold play at h
      split at h
      · exact .head (.spawn c ‹_›) (ih h)
      · cases h
    | moves i n x oracle => exact (reaches_movesBy i x oracle n p).trans (ih h)

/-- The pool a script leads to; the first one if it has a call that is not admitted. -/
def played (p : Pool E W C α) (script : List (Action S)) : Pool E W C α :=
  (play p script).getD p

theorem reaches_played (p : Pool E W C α) (script : List (Action S)) :
    S.Reaches p (played p script) := by
  unfold played
  cases h : play p script with
  | none => exact .refl
  | some p' => exact reaches_of_play h

end Play

end System

end WalletKit.Machine
