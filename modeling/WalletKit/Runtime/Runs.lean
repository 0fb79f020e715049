import WalletKit.Runtime.World

/-!
# Runs over the store

Systems whose world contains a `World` and whose calls do to it what `World.apply` says.
The world is then a function of the log, every answer was possible when it was given, and
a loaded nonce state is the present one or an older one.
-/
namespace WalletKit

open Machine

namespace World

/-- The world a list of calls leads to. -/
def replay (log : List PortEvent) : World := log.foldl apply initial

@[simp] theorem replay_nil : replay [] = initial := rfl

theorem replay_append (l l' : List PortEvent) : replay (l ++ l') = l'.foldl apply (replay l) := by
  simp [replay]

@[simp] theorem replay_snoc (l : List PortEvent) (e : PortEvent) :
    replay (l ++ [e]) = (replay l).apply e := by simp [replay]

@[simp] theorem replay_log (l : List PortEvent) : (replay l).log = l := by
  induction l using List.reverseRecOn with
  | nil => rfl
  | append_singleton l e ih => simp [ih]

/-- What every logged event keeps, the rest of the log keeps. -/
theorem replay_keeps {I : World → Prop} {log l l' : List PortEvent}
    (hstep : ∀ l e l', log = l ++ e :: l' → I (replay l) → I ((replay l).apply e))
    (hlog : log = l ++ l') (hl : I (replay l)) : I (replay log) := by
  induction l' generalizing l with
  | nil => simpa [hlog] using hl
  | cons e l' ih =>
    refine ih (l := l ++ [e]) (by simp [hlog]) ?_
    rw [replay_snoc]
    exact hstep l e l' hlog hl

end World

/-- The swap an event stands for, if it is one that went through. -/
def swapped : PortEvent → Option CasNote
  | ⟨.casNonceState _ _ _ _ note, r⟩ =>
    match (r : Except StateStoreError Bool) with
    | .ok true => some note
    | _ => none
  | _ => none

theorem swapped_cas {r : Except StateStoreError Bool} {scope : NonceScope} {v : Nat}
    {s : NonceState} {f : FenceToken} {note : CasNote} (hr : r ≠ .ok true) :
    swapped (ev (.casNonceState scope v s f note) r) = none := by
  match r, hr with
  | .error _, _ => rfl
  | .ok false, _ => rfl

theorem swapped_eq_some {e : PortEvent} {note : CasNote} (h : swapped e = some note) :
    ∃ scope v s f, e = ev (.casNonceState scope v s f note) (.ok true) := by
  obtain ⟨o, r⟩ := e
  cases o with
  | casNonceState scope v s f note' =>
    match r, h with
    | .ok true, rfl => exact ⟨scope, v, s, f, rfl⟩
  | _ => cases h

/-- An event that is no successful swap leaves every nonce state as it was. -/
theorem loadNonceState_quiet {s : Store} {e : PortEvent} (h : swapped e = none)
    (scope : NonceScope) :
    (World.storeAfter s e).loadNonceState scope = s.loadNonceState scope := by
  unfold World.storeAfter
  split
  · split
    · cases h
    · rfl
  · split <;> rfl
  · rfl

/-- A swap that goes through found the version it expected. -/
theorem World.loadNonceState_swap {w : World} {scope : NonceScope} {n : Nat} {v : NonceState}
    {f : FenceToken} {note : CasNote}
    (hcan : w.can (ev (.casNonceState scope n v f note) (.ok true))) :
    (w.store.loadNonceState scope).version = n ∧
      ∀ t, (w.apply (ev (.casNonceState scope n v f note) (.ok true))).store.loadNonceState t =
        if t = scope then ⟨v, n + 1⟩ else w.store.loadNonceState t :=
  Store.casNonceState_true (of_decide_eq_true hcan)

/-- Only an executor's own note of its head changes what is remembered. -/
theorem World.lastLatest_apply {w : World} {o : Op} {r : o.Reply}
    (ho : ∀ x l, o ≠ .lastLatestStore x l) : (w.apply ⟨o, r⟩).lastLatest = w.lastLatest := by
  cases o with
  | lastLatestStore x l => exact absurd rfl (ho x l)
  | _ => rfl

/-- The handle an event stores. -/
def wrote : PortEvent → Option TxHandle
  | ⟨.putHandle h _, r⟩ =>
    match (r : Except StateStoreError Unit) with
    | .ok _ => some h
    | .error _ => none
  | _ => none

theorem wrote_eq_some {e : PortEvent} {h : TxHandle} (he : wrote e = some h) :
    ∃ site, e = ev (.putHandle h site) (.ok ()) := by
  obtain ⟨o, r⟩ := e
  cases o with
  | putHandle g site =>
    match r, he with
    | .ok (), rfl => exact ⟨site, rfl⟩
  | _ => cases he

theorem World.handle_apply (w : World) (e : PortEvent) (id : HandleId) :
    (w.apply e).store.handle id = match wrote e with
      | some h => if id = h.id then some h else w.store.handle id
      | none => w.store.handle id := by
  obtain ⟨o, r⟩ := e
  cases o with
  | putHandle g site =>
    match r with
    | .ok () => exact Store.handle_putHandle _ _ _
    | .error _ => rfl
  | casNonceState scope n v f note =>
    match r with
    | .ok true => exact congrArg (Table.get · id) (Store.casNonceState_handles _ _ _ _ _)
    | .ok false => rfl
    | .error _ => rfl
  | _ => rfl

/-- What is stored after a write is what was written, or was there under another id. -/
theorem World.stored_put {w : World} {h' g : TxHandle} {site : PutSite}
    (hg : (w.apply (ev (.putHandle h' site) (.ok ()))).store.handle g.id = some g) :
    g = h' ∨ g.id ≠ h'.id ∧ w.store.handle g.id = some g := by
  rw [World.handle_apply] at hg
  change (if g.id = h'.id then some h' else w.store.handle g.id) = some g at hg
  split at hg
  · cases hg; exact .inl rfl
  · exact .inr ⟨‹_›, hg⟩

/-- The store reported this handle. -/
def Reads (h : TxHandle) : PortEvent → Prop
  | ⟨.pendingHandles _, r⟩ => ∃ hs, (r : Except StateStoreError (List TxHandle)) = .ok hs ∧ h ∈ hs
  | ⟨.handle _, r⟩ => (r : Except StateStoreError (Option TxHandle)) = .ok (some h)
  | _ => False

/-- A handle that the store reports is stored. -/
theorem stored_of_reads {w : World} {e : PortEvent} {h : TxHandle} (hr : Reads h e)
    (hcan : w.can e) : w.store.handle h.id = some h := by
  obtain ⟨o, r⟩ := e
  cases o with
  | pendingHandles a =>
    obtain ⟨hs, rfl, hmem⟩ := hr
    have hperm : hs.Perm (w.store.pendingHandles a) := of_decide_eq_true hcan
    exact (Store.mem_pendingHandles.mp (hperm.mem_iff.mp hmem)).1
  | handle id =>
    obtain rfl := hr
    have hfound : some h = w.store.handle id := of_decide_eq_true hcan
    rw [Table.key_of_get hfound.symm]
    exact hfound.symm
  | _ => cases hr

variable {W C α : Type} {S : System ports W C α} {view : W → World}

/-- The calls of `S` are answered by a store and a memory and change them accordingly. -/
structure Backed (S : System ports W C α) (view : W → World) : Prop where
  can : ∀ {p i x o r}, S.allow p i x o r → (view p.world).can ⟨o, r⟩
  next : ∀ {p i x o r}, S.allow p i x o r →
    view (S.next p.world x o r) = (view p.world).apply ⟨o, r⟩

namespace Backed

variable {p₀ p : Pool ports W C α}

/-- A run starts with no calls and an empty store. -/
def Fresh (view : W → World) (p₀ : Pool ports W C α) : Prop :=
  p₀.threads = [] ∧ view p₀.world = .initial

theorem replay (hS : Backed S view) (h₀ : Fresh view p₀) (h : S.Reaches p₀ p) :
    view p.world = .replay (view p.world).log := by
  refine h.invariant (I := fun p => view p.world = .replay (view p.world).log)
    (by rw [h₀.2]; rfl) fun p p' hp hs => ?_
  cases hs with
  | spawn c _ => exact hp
  | @move i th o k x r hi hprog ha =>
    rw [Pool.world_answer, hS.next ha, World.apply_log, World.replay_snoc, ← hp]

/-- The log only grows. -/
theorem log_prefix (hS : Backed S view) {q : Pool ports W C α} (h : S.Reaches p q) :
    (view p.world).log <+: (view q.world).log := by
  refine h.invariant (I := fun q => (view p.world).log <+: (view q.world).log)
    (List.prefix_refl _) fun q q' hq hs => ?_
  cases hs with
  | spawn c _ => exact hq
  | @move i th o k x r hi hprog ha =>
    rw [Pool.world_answer, hS.next ha, World.apply_log]
    exact hq.trans (List.prefix_append _ _)

/-- What holds of every move of a run held of each logged event when it happened. -/
theorem log_moved {K : World → PortEvent → Prop} (hS : Backed S view) (h₀ : Fresh view p₀)
    (hK : ∀ {p i th x o k r}, S.Reaches p₀ p → p.threads[i]? = some th → th.prog = .call o k →
      S.allow p i x o r → K (view p.world) ⟨o, r⟩) (h : S.Reaches p₀ p) :
    ∀ l e l', (view p.world).log = l ++ e :: l' → K (.replay l) e := by
  induction h with
  | refl =>
    intro l e l' hl
    rw [h₀.2] at hl
    simp [World.initial] at hl
  | @tail p p' hreach hs ih =>
    cases hs with
    | spawn c _ => exact ih
    | @move i th o k x r hi hprog ha =>
      intro l e l' hl
      rw [Pool.world_answer, hS.next ha, World.apply_log] at hl
      rcases List.eq_nil_or_concat l' with rfl | ⟨l'', x', rfl⟩
      · obtain ⟨hlog, he⟩ := List.append_inj' hl rfl
        rw [← hlog, ← hS.replay h₀ hreach]
        cases he
        exact hK hreach hi hprog ha
      · rw [List.concat_eq_append, ← List.cons_append, ← List.append_assoc] at hl
        exact ih l e l'' (List.append_inj' hl rfl).1

/-- What is checked of every answer held of each logged one when it was given. -/
theorem log_answered {K : World → PortEvent → Prop} (hS : Backed S view) (h₀ : Fresh view p₀)
    (hK : ∀ {p i x o r}, S.allow p i x o r → K (view p.world) ⟨o, r⟩) (h : S.Reaches p₀ p) :
    ∀ l e l', (view p.world).log = l ++ e :: l' → K (.replay l) e :=
  hS.log_moved h₀ (fun _ _ _ ha => hK ha) h

/-- The logged events are those of the calls. -/
theorem log_perm (hS : Backed S view) (h₀ : Fresh view p₀) (h : S.Reaches p₀ p) :
    (view p.world).log.Perm (p.threads.flatMap (·.past)) := by
  refine h.invariant (I := fun p => (view p.world).log.Perm (p.threads.flatMap (·.past)))
    (by simp [h₀.1, h₀.2, World.initial]) fun p p' hp hs => ?_
  cases hs with
  | spawn c _ => simpa [Pool.spawn] using hp
  | @move i th o k x r hi hprog ha =>
    obtain ⟨hlt, hget⟩ := List.getElem?_eq_some_iff.mp hi
    have hsplit : p.threads = p.threads.take i ++ th :: p.threads.drop (i + 1) := by
      conv_lhs => rw [← List.take_append_drop i p.threads, List.drop_eq_getElem_cons hlt, hget]
    rw [Pool.world_answer, hS.next ha, World.apply_log]
    simp only [Pool.answer, List.set_eq_take_append_cons_drop, if_pos hlt, List.flatMap_append,
      List.flatMap_cons, List.append_assoc]
    rw [hsplit, List.flatMap_append, List.flatMap_cons] at hp
    refine (hp.append_right _).trans ?_
    simp only [List.append_assoc]
    exact ((List.perm_append_comm.append_left _).append_left _)

theorem exists_thread_of_mem_log (hS : Backed S view) (h₀ : Fresh view p₀) (h : S.Reaches p₀ p)
    {e : PortEvent} (he : e ∈ (view p.world).log) : ∃ th ∈ p.threads, e ∈ th.past :=
  List.mem_flatMap.mp ((hS.log_perm h₀ h).mem_iff.mp he)

/-- What every call does at most as often as something else, all of them do so together. -/
theorem countP_log_le (hS : Backed S view) (h₀ : Fresh view p₀) (h : S.Reaches p₀ p)
    {f g : PortEvent → Bool} (hle : ∀ th ∈ p.threads, th.past.countP f ≤ th.past.countP g) :
    (view p.world).log.countP f ≤ (view p.world).log.countP g := by
  rw [(hS.log_perm h₀ h).countP_eq, (hS.log_perm h₀ h).countP_eq, List.countP_flatMap,
    List.countP_flatMap]
  exact List.sum_le_sum hle

/-- Each call's own events are logged, in their order. -/
theorem past_sublist (hS : Backed S view) (h₀ : Fresh view p₀) (h : S.Reaches p₀ p) :
    ∀ th ∈ p.threads, th.past.Sublist (view p.world).log := by
  refine h.invariant (I := fun p => ∀ th ∈ p.threads, th.past.Sublist (view p.world).log)
    (by simp [h₀.1]) fun p p' hp hs => ?_
  cases hs with
  | spawn c _ =>
    intro th hth
    rcases Pool.mem_spawn.mp hth with hth | rfl
    · exact hp th hth
    · exact List.nil_sublist _
  | @move i th o k x r hi hprog ha =>
    intro th' hth'
    rw [Pool.world_answer, hS.next ha, World.apply_log]
    rcases Pool.mem_answer hth' with hth' | rfl
    · exact (hp th' hth').trans (List.sublist_append_left _ _)
    · exact (hp th (List.mem_of_getElem? hi)).append (List.Sublist.refl _)

theorem mem_log (hS : Backed S view) (h₀ : Fresh view p₀) (h : S.Reaches p₀ p)
    {th : Thread ports C α} (hth : th ∈ p.threads) {e : PortEvent} (he : e ∈ th.past) :
    e ∈ (view p.world).log := (hS.past_sublist h₀ h th hth).subset he

/-- When calls are made one at a time, the newest one's events end the log. -/
theorem past_suffix (hS : Backed S view) (hseq : S.Sequential) (h₀ : Fresh view p₀)
    (h : S.Reaches p₀ p) {th : Thread ports C α} (hth : p.threads.getLast? = some th) :
    th.past <:+ (view p.world).log := by
  refine h.invariant (I := fun p => ∀ th, p.threads.getLast? = some th →
    th.past <:+ (view p.world).log) (by simp [h₀.1]) (fun p p' hp hs => ?_) th hth
  cases hs with
  | spawn c _ =>
    intro th hth
    obtain rfl : (⟨c, [], S.body c⟩ : Thread ports C α) = th := by simpa [Pool.spawn] using hth
    exact List.nil_suffix
  | @move i th o k x r hi hprog ha =>
    intro th' hth'
    have hlast : p.threads.getLast? = some th := hseq.last hi ha
    rw [hseq.last_answer hi ha] at hth'
    obtain rfl := Option.some.inj hth'
    rw [Pool.world_answer, hS.next ha, World.apply_log]
    obtain ⟨pre, hpre⟩ := hp th hlast
    exact ⟨pre, by rw [← hpre, List.append_assoc]⟩

/-- What a call has loaded is older than the stored nonce state, or is it. -/
theorem loaded (hS : Backed S view) (h₀ : Fresh view p₀) (h : S.Reaches p₀ p) :
    ∀ th ∈ p.threads, ∀ scope v, ev (.loadNonceState scope) (.ok v) ∈ th.past →
      v.version < ((view p.world).store.loadNonceState scope).version ∨
        v = (view p.world).store.loadNonceState scope := by
  refine h.invariant (I := fun p => ∀ th ∈ p.threads, ∀ scope v,
    ev (.loadNonceState scope) (.ok v) ∈ th.past →
      v.version < ((view p.world).store.loadNonceState scope).version ∨
        v = (view p.world).store.loadNonceState scope) (by simp [h₀.1]) fun p p' hp hs => ?_
  cases hs with
  | spawn c _ =>
    intro th hth scope v hv
    rcases Pool.mem_spawn.mp hth with hth | rfl
    · exact hp th hth scope v hv
    · cases hv
  | @move i th o k x r hi hprog ha =>
    intro th' hth' scope v hv
    rw [Pool.world_answer, hS.next ha]
    -- before the answer, what was loaded was older or current; the answer may move on
    have hold : v.version < ((view p.world).store.loadNonceState scope).version ∨
        v = (view p.world).store.loadNonceState scope := by
      rcases Pool.mem_answer hth' with hth' | rfl
      · exact hp th' hth' scope v hv
      · rcases List.mem_append.mp hv with hv | hv
        · exact hp th (List.mem_of_getElem? hi) scope v hv
        · cases List.mem_singleton.mp hv
          exact .inr (by simpa [World.can] using hS.can ha)
    cases hq : swapped ⟨o, r⟩ with
    | none =>
      change v.version < ((World.storeAfter _ _).loadNonceState scope).version ∨
        v = (World.storeAfter _ _).loadNonceState scope
      rwa [loadNonceState_quiet hq]
    | some note =>
      obtain ⟨t, n, s, f, he⟩ := swapped_eq_some hq
      cases he
      obtain ⟨hn, hafter⟩ := World.loadNonceState_swap (hS.can ha)
      have hnow := hafter scope
      unfold ev at hnow
      rw [hnow]
      by_cases ht : scope = t
      · subst ht
        rw [if_pos rfl]
        refine .inl ?_
        rcases hold with hlt | rfl
        · exact Nat.lt_succ_of_lt (hn ▸ hlt)
        · exact hn ▸ Nat.lt_succ_self _
      · rwa [if_neg ht]

/-- A nonce state that was never swapped is absent. -/
theorem absent (hS : Backed S view) (h₀ : Fresh view p₀) (h : S.Reaches p₀ p) (scope : NonceScope)
    (hv : ((view p.world).store.loadNonceState scope).version = 0) :
    (view p.world).store.loadNonceState scope = .absent := by
  refine h.invariant (I := fun p => ((view p.world).store.loadNonceState scope).version = 0 →
    (view p.world).store.loadNonceState scope = .absent) (fun _ => by rw [h₀.2]; rfl)
    (fun p p' hp hs => ?_) hv
  cases hs with
  | spawn c _ => exact hp
  | @move i th o k x r hi hprog ha =>
    rw [Pool.world_answer, hS.next ha]
    cases hq : swapped ⟨o, r⟩ with
    | none =>
      change ((World.storeAfter _ _).loadNonceState scope).version = 0 →
        (World.storeAfter _ _).loadNonceState scope = _
      rwa [loadNonceState_quiet hq]
    | some note =>
      obtain ⟨t, n, s, f, he⟩ := swapped_eq_some hq
      cases he
      have hnow := (World.loadNonceState_swap (hS.can ha)).2 scope
      unfold ev at hnow
      rw [hnow]
      by_cases ht : scope = t
      · rw [if_pos ht]
        exact fun hz => absurd hz (Nat.succ_ne_zero n)
      · rwa [if_neg ht]

/-- A swap that goes through was computed from the stored state: from the one its call has
loaded under the expected version. -/
theorem swap_current (hS : Backed S view) (h₀ : Fresh view p₀) (h : S.Reaches p₀ p)
    {th : Thread ports C α} (hth : th ∈ p.threads) {scope : NonceScope} {n : Nat}
    {v value : NonceState} {f : FenceToken} {note : CasNote}
    (hload : ev (.loadNonceState scope) (.ok ⟨v, n⟩) ∈ th.past)
    (hcan : (view p.world).can (ev (.casNonceState scope n value f note) (.ok true))) :
    (view p.world).store.loadNonceState scope = ⟨v, n⟩ ∧
      ∀ t, ((view p.world).apply (ev (.casNonceState scope n value f note)
        (.ok true))).store.loadNonceState t =
        if t = scope then ⟨value, n + 1⟩ else (view p.world).store.loadNonceState t := by
  obtain ⟨hn, hafter⟩ := World.loadNonceState_swap hcan
  refine ⟨?_, hafter⟩
  rcases hS.loaded h₀ h th hth scope _ hload with hlt | he
  · exact absurd hlt (by simp [hn])
  · exact he.symm

end Backed

end WalletKit
