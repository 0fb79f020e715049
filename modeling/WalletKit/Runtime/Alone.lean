import WalletKit.Machine.Trace
import WalletKit.Runtime.World

/-!
# A call that runs alone

The other reading of a program: from its first step to its last nothing else happens, and the
store does what it is asked to. The remaining ports still answer as they like.
-/
namespace WalletKit.World

open Machine

/-- A program that nothing interrupts, on a store that works. -/
def alone : Spec ports World where
  step w o r w' := w.can ⟨o, r⟩ ∧ working ⟨o, r⟩ ∧ w' = w.apply ⟨o, r⟩
  owes _ _ := True
  stuck _ := True

variable {w : World}

theorem asks_alone {o : Op} {Q : o.Reply → World → Prop} :
    Spec.Asks alone o Q w ↔ ∀ r, w.can (ev o r) → working (ev o r) → Q r (w.apply (ev o r)) :=
  ⟨fun h r hc hw => h.2 r _ ⟨hc, hw, rfl⟩, fun h => ⟨trivial, by
    rintro r _ ⟨hc, hw, rfl⟩
    exact h r hc hw⟩⟩

@[simp] theorem asks_alone_putHandle {h : TxHandle} {site : PutSite}
    {Q : Except StateStoreError Unit → World → Prop} :
    Spec.Asks alone (.putHandle h site) Q w ↔
      Q (.ok ()) (w.apply (ev (.putHandle h site) (.ok ()))) := by
  rw [asks_alone]
  refine ⟨fun k => k (.ok ()) rfl rfl, ?_⟩
  rintro k (e | ⟨⟩) _ hw
  · cases hw
  · exact k

@[simp] theorem asks_alone_handle {id : HandleId}
    {Q : Except StateStoreError (Option TxHandle) → World → Prop} :
    Spec.Asks alone (.handle id) Q w ↔ Q (.ok (w.store.handle id))
      (w.apply (ev (.handle id) (.ok (w.store.handle id)))) := by
  rw [asks_alone]
  refine ⟨fun k => k (.ok _) (by simp [ev, can]) rfl, ?_⟩
  rintro k (e | found) hc hw
  · cases hw
  · obtain rfl : found = w.store.handle id := by simpa [ev, can] using hc
    exact k

/-- One such run to its end, with these answers: nothing if one of them is missing or is not an
answer that the store and the memory could give. -/
def finish {α : Type} (answers : World → (o : Op) → Option o.Reply) :
    Io α → World → Option (α × World)
  | .ret a, w => some (a, w)
  | .call o k, w =>
    match answers w o with
    | some r =>
      if w.can (ev o r) && working (ev o r) then finish answers (k r) (w.apply (ev o r)) else none
    | none => none
  | .halt, _ => none

/-- The first call of a run that ends was answered. -/
theorem finish_call {α : Type} {answers : World → (o : Op) → Option o.Reply} {o : Op}
    {k : o.Reply → Io α} {r : α × World} (hrun : finish answers (.call o k) w = some r) :
    ∃ x, w.can (ev o x) ∧ working (ev o x) ∧ finish answers (k x) (w.apply (ev o x)) = some r := by
  rw [finish] at hrun
  split at hrun
  · rename_i x _
    split at hrun
    · rename_i hok
      rw [Bool.and_eq_true] at hok
      exact ⟨x, hok.1, hok.2, hrun⟩
    · cases hrun
  · cases hrun

theorem finish_sound {α : Type} {answers : World → (o : Op) → Option o.Reply} {x : Io α}
    {Q : α → World → Prop} (h : x.wp alone Q w) {a : α} {w' : World}
    (hrun : finish answers x w = some (a, w')) : Q a w' := by
  induction x generalizing w with
  | ret b =>
    cases hrun
    exact h
  | halt => cases hrun
  | call o k ih =>
    obtain ⟨r, hcan, hworking, hrest⟩ := finish_call hrun
    exact ih r (h.2 r _ ⟨hcan, hworking, rfl⟩) hrest

/-- The answers to these calls are ones that the store and the memory could give. -/
def Admits (w : World) (es : List PortEvent) : Prop :=
  ∀ before x after, es = before ++ x :: after → (before.foldl apply w).can x

theorem admits_nil : w.Admits [] := by simp [Admits]

theorem admits_cons {e : PortEvent} {es : List PortEvent} (he : w.can e)
    (hes : (w.apply e).Admits es) : w.Admits (e :: es) := by
  rintro (_ | ⟨y, before⟩) x after heq
  · cases heq
    exact he
  · obtain ⟨rfl, rfl⟩ := List.cons.inj heq
    exact hes before x after rfl

/-- A run to its end is a complete run of the program. -/
theorem exists_trace_of_finish {α : Type} {answers : World → (o : Op) → Option o.Reply} {x : Io α}
    {a : α} {w' : World} (hrun : finish answers x w = some (a, w')) :
    ∃ es, x.Trace es a ∧ w.Admits es := by
  induction x generalizing w with
  | ret b =>
    cases hrun
    exact ⟨[], .ret _, admits_nil⟩
  | halt => cases hrun
  | call o k ih =>
    obtain ⟨r, hcan, -, hrest⟩ := finish_call hrun
    obtain ⟨es, htrace, hes⟩ := ih r hrest
    exact ⟨ev o r :: es, .call htrace, admits_cons hcan hes⟩

end WalletKit.World
