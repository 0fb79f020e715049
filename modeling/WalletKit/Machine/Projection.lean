import WalletKit.Machine.Pool

/-!
# The part of a run that belongs to some of the calls

Of a pool of calls only some are looked at, under names of their own. Where each move of such a
call is answered by a move of its fellow in a second system, and the moves of the other calls leave
the second world alone, every run of the first system has a run of the second beside it, call by
call. When the calls run the same programs in both and get the same answers, the part of the run
is that run.
-/
namespace WalletKit.Machine

variable {E : Interface} {W W' C C' α : Type}

/-- A call under the name that `part` has for it. -/
def Thread.named (part : C → Option C') (th : Thread E C α) : Option (Thread E C' α) :=
  (part th.call).map fun c => ⟨c, th.past, th.prog⟩

/-- The calls that `part` names, with what they have seen and have still to do. -/
def select (part : C → Option C') (threads : List (Thread E C α)) : List (Thread E C' α) :=
  threads.filterMap (·.named part)

theorem select_some (threads : List (Thread E C α)) : select some threads = threads :=
  List.filterMap_some

section List

variable {β γ : Type} {f : β → Option γ} {l : List β} {i : Nat} {x x' : β}

theorem filterMap_set_none (hi : l[i]? = some x) (hx : f x = none) (hx' : f x' = none) :
    (l.set i x').filterMap f = l.filterMap f := by
  induction l generalizing i with
  | nil => cases hi
  | cons y l ih =>
    cases i with
    | zero =>
      cases hi
      simp [hx, hx']
    | succ i => simp [List.filterMap_cons, ih hi]

theorem filterMap_set_some {y y' : γ} (hi : l[i]? = some x) (hx : f x = some y)
    (hx' : f x' = some y') :
    ∃ j : Nat, (l.filterMap f)[j]? = some y ∧
      (l.set i x').filterMap f = (l.filterMap f).set j y' := by
  induction l generalizing i with
  | nil => cases hi
  | cons z l ih =>
    cases i with
    | zero =>
      cases hi
      exact ⟨0, by simp [hx], by simp [hx, hx']⟩
    | succ i =>
      obtain ⟨j, hj, hset⟩ := ih hi
      cases hz : f z with
      | none => exact ⟨j, by simp [hz, hj], by simp [hz, hset]⟩
      | some w => exact ⟨j + 1, by simp [hz, hj], by simp [hz, hset]⟩

variable {R : β → γ → Prop} {l₁ : List β} {l₂ : List γ}

/-- Of two lists that correspond, an entry has its fellow. -/
theorem forall₂_get (h : List.Forall₂ R l₁ l₂) (hi : l₁[i]? = some x) :
    ∃ y, l₂[i]? = some y ∧ R x y := by
  induction h generalizing i with
  | nil => cases hi
  | @cons a b l₁ l₂ hab hl ih =>
    cases i with
    | zero =>
      cases hi
      exact ⟨b, rfl, hab⟩
    | succ i => exact ih hi

theorem forall₂_set {y' : γ} (h : List.Forall₂ R l₁ l₂) (hR : R x' y') (i : Nat) :
    List.Forall₂ R (l₁.set i x') (l₂.set i y') := by
  induction h generalizing i with
  | nil => exact .nil
  | @cons a b l₁ l₂ hab hl ih =>
    cases i with
    | zero => exact .cons hR hl
    | succ i => exact .cons hab (ih i)

end List

namespace System

/-- Each call that `part` names moves in `S'` when it moves in `S`: the worlds stay related by `R`,
and the calls by `T`. -/
structure Lockstep (S : System E W C α) (S' : System E W' C' α) (part : C → Option C')
    (R : W → W' → Prop) (T : W → W' → Thread E C' α → Thread E C' α → Prop) : Prop where
  spawn (p : Pool E W C α) (p' : Pool E W' C' α) {c c'} : S.admits p c → part c = some c' →
    S'.admits p' c' ∧ T p.world p'.world ⟨c', [], S.body c⟩ ⟨c', [], S'.body c'⟩
  own {p p' i th c' o k x r th'} : p.threads[i]? = some th → part th.call = some c' →
    th.prog = .call o k → S.allow p i x o r → R p.world p'.world →
    T p.world p'.world ⟨c', th.past, th.prog⟩ th' →
      ∃ o' k' x' r', th'.prog = .call o' k' ∧ (∀ j, S'.allow p' j x' o' r') ∧
        R (S.next p.world x o r) (S'.next p'.world x' o' r') ∧
        T (S.next p.world x o r) (S'.next p'.world x' o' r') ⟨c', th.past ++ [⟨o, r⟩], k r⟩
          ⟨th'.call, th'.past ++ [⟨o', r'⟩], k' r'⟩ ∧
        ∀ u u', T p.world p'.world u u' →
          T (S.next p.world x o r) (S'.next p'.world x' o' r') u u'
  other {p w' i th x o r} : p.threads[i]? = some th → part th.call = none → S.allow p i x o r →
    R p.world w' → R (S.next p.world x o r) w' ∧
      ∀ u u', T p.world w' u u' → T (S.next p.world x o r) w' u u'

variable {S : System E W C α} {S' : System E W' C' α} {part : C → Option C'} {R : W → W' → Prop}
  {T : W → W' → Thread E C' α → Thread E C' α → Prop}

/-- Beside every run there is one of the second system. -/
theorem Lockstep.reaches (h : Lockstep S S' part R T) {p₀ p : Pool E W C α}
    {p₀' : Pool E W' C' α} (hreach : S.Reaches p₀ p) (hR : R p₀.world p₀'.world)
    (h₀ : List.Forall₂ (T p₀.world p₀'.world) (select part p₀.threads) p₀'.threads) :
    ∃ p', S'.Reaches p₀' p' ∧ R p.world p'.world ∧
      List.Forall₂ (T p.world p'.world) (select part p.threads) p'.threads := by
  induction hreach with
  | refl => exact ⟨p₀', .refl, hR, h₀⟩
  | @tail p q _ hstep ih =>
    obtain ⟨p', hreach', hworld, hthreads⟩ := ih
    cases hstep with
    | spawn c hc =>
      cases hpart : part c with
      | none =>
        refine ⟨p', hreach', hworld, ?_⟩
        simpa [select, Pool.spawn, Thread.named, hpart] using hthreads
      | some c' =>
        obtain ⟨hadmits, hbody⟩ := h.spawn p p' hc hpart
        refine ⟨p'.spawn c' (S'.body c'), hreach'.tail (.spawn c' hadmits), hworld, ?_⟩
        have hselect : select part (p.spawn c (S.body c)).threads =
            select part p.threads ++ [⟨c', [], S.body c⟩] := by
          simp [select, Pool.spawn, Thread.named, hpart]
        rw [hselect]
        exact List.rel_append hthreads (.cons hbody .nil)
    | @move i th o k x r hi hprog ha =>
      cases hpart : part th.call with
      | none =>
        obtain ⟨hworld', hrest⟩ := h.other hi hpart ha hworld
        refine ⟨p', hreach', hworld', ?_⟩
        have hselect : select part (p.answer i th o r (k r) (S.next p.world x o r)).threads =
            select part p.threads :=
          filterMap_set_none hi (by simp [Thread.named, hpart]) (by simp [Thread.named, hpart])
        rw [hselect]
        exact hthreads.imp hrest
      | some c' =>
        have hbefore : th.named part = some ⟨c', th.past, th.prog⟩ := by simp [Thread.named, hpart]
        have hafter : Thread.named part ⟨th.call, th.past ++ [⟨o, r⟩], k r⟩ =
            some ⟨c', th.past ++ [⟨o, r⟩], k r⟩ := by simp [Thread.named, hpart]
        obtain ⟨j, hj, hset⟩ := filterMap_set_some hi hbefore hafter
        obtain ⟨th', hj', hT⟩ := forall₂_get hthreads hj
        obtain ⟨o', k', x', r', hprog', ha', hworld', hmoved, hrest⟩ :=
          h.own hi hpart hprog ha hworld hT
        refine ⟨_, hreach'.tail (.move (S := S') x' r' hj' hprog' (ha' j)), hworld', ?_⟩
        have hselect : select part (p.answer i th o r (k r) (S.next p.world x o r)).threads =
            (select part p.threads).set j ⟨c', th.past ++ [⟨o, r⟩], k r⟩ := hset
        rw [hselect]
        exact forall₂_set (hthreads.imp hrest) hmoved j

/-- The calls that `part` names behave in `S'` as they do in `S`, over worlds related by `R`. -/
structure Projection (S : System E W C α) (S' : System E W' C' α) (part : C → Option C')
    (R : W → W' → Prop) : Prop where
  body {c c'} : part c = some c' → S.body c = S'.body c'
  spawn {p p' c c'} : S.admits p c → part c = some c' → S'.admits p' c'
  own {p p' i th x o r c'} : p.threads[i]? = some th → part th.call = some c' →
    R p.world p'.world → S.allow p i x o r →
      ∃ x', (∀ j, S'.allow p' j x' o r) ∧ R (S.next p.world x o r) (S'.next p'.world x' o r)
  other {p w' i th x o r} : p.threads[i]? = some th → part th.call = none → R p.world w' →
    S.allow p i x o r → R (S.next p.world x o r) w'

theorem Projection.lockstep (h : Projection S S' part R) :
    Lockstep S S' part R fun _ _ => Eq where
  spawn _ _ _ _ hc hpart := ⟨h.spawn hc hpart, by rw [h.body hpart]⟩
  own := by
    rintro p p' i th c' o k x r th' hi hpart hprog ha hworld rfl
    obtain ⟨x', ha', hworld'⟩ := h.own hi hpart hworld ha
    exact ⟨o, k, x', r, hprog, ha', hworld', rfl, fun _ _ hu => hu⟩
  other hi hpart ha hworld := ⟨h.other hi hpart hworld ha, fun _ _ hu => hu⟩

/-- The part of a run is a run. -/
theorem Projection.reaches (h : Projection S S' part R) {p₀ p : Pool E W C α}
    {p₀' : Pool E W' C' α} (hreach : S.Reaches p₀ p) (h₀ : p₀'.threads = select part p₀.threads)
    (hR : R p₀.world p₀'.world) :
    ∃ p', S'.Reaches p₀' p' ∧ p'.threads = select part p.threads ∧ R p.world p'.world := by
  obtain ⟨p', hreach', hworld, hthreads⟩ := h.lockstep.reaches hreach hR (by
    rw [List.forall₂_eq_eq_eq, h₀])
  rw [List.forall₂_eq_eq_eq] at hthreads
  exact ⟨p', hreach', hthreads.symm, hworld⟩

/-- A run all of whose moves meet a condition is a run of the system that demands it. -/
theorem Reaches.given_of {cond : Pool E W C α → Nat → Event E → Prop} {p₀ p : Pool E W C α}
    (h : S.Reaches p₀ p) (hcond : ∀ {q i th o k x r}, S.Reaches p₀ q → q.threads[i]? = some th →
      th.prog = .call o k → S.allow q i x o r → cond q i ⟨o, r⟩) : (S.given cond).Reaches p₀ p := by
  induction h with
  | refl => exact .refl
  | @tail q q' hreach hstep ih =>
    cases hstep with
    | spawn c hc => exact ih.tail (.spawn c hc)
    | @move i th o k x r hi hprog ha =>
      exact ih.tail (.move (S := S.given cond) x r hi hprog ⟨ha, hcond hreach hi hprog ha⟩)

end System

end WalletKit.Machine
