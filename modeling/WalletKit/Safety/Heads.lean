import WalletKit.Provenance.Executor
import WalletKit.Runtime.Calls
import WalletKit.Runtime.Toy

/-!
# The heads an executor accepts

A confirm cycle compares the head it has read with the last accepted one and stores it, in
separate steps with other reads between them. Cycles that overlap can therefore store a lower head
over a higher one. As long as each cycle of an executor has ended, or was cut off, before the next
one begins, the accepted head does not fall.
-/
namespace WalletKit

open Machine

section Cycles

/-- An operation other than the reads and the write that decide whether a cycle is accepted. -/
def RestOp : Op → Prop
  | .blockNumber | .lastLatestLoad _ | .finalizedBlock | .lastLatestStore _ _ => False
  | _ => True

/-- What a cycle reads first: a head `l`, a count `m` and the last accepted head `n`. -/
def headReads (e : AccountExecutor) (l m n : Nat) : List PortEvent :=
  [ev .blockNumber (.ok l), ev (.txCount e.account) (.ok m), ev (.lastLatestLoad e.id) n]

/-- A cycle of `e` has accepted the head `l`. -/
def Accepted (e : AccountExecutor) (past : List PortEvent) (l : Nat) : Prop :=
  ∃ m n tag after, past = headReads e l m n ++ [ev .finalizedBlock (.ok tag),
      ev (.lastLatestStore e.id l) ()] ++ after ∧ n ≤ l ∧ ∀ x ∈ after, RestOp x.op

/-- A cycle of `e` was skipped: the head has regressed, or is below the finalized block. -/
def Skipped (e : AccountExecutor) (past : List PortEvent) : Prop :=
  ∃ l m n, past = headReads e l m n ∧ l < n ∨
    ∃ tag : Option Nat, past = headReads e l m n ++ [ev .finalizedBlock (.ok tag)] ∧ l < tag.getD 0

/-- What a confirm call has done before an operation. -/
inductive HeadsOwe (e : AccountExecutor) : List PortEvent → Op → Prop where
  | latest : HeadsOwe e [] .blockNumber
  | mined {l : Nat} : HeadsOwe e [ev .blockNumber (.ok l)] (.txCount e.account)
  | last {l m : Nat} : HeadsOwe e [ev .blockNumber (.ok l), ev (.txCount e.account) (.ok m)]
      (.lastLatestLoad e.id)
  | tag {l m n : Nat} : n ≤ l → HeadsOwe e (headReads e l m n) .finalizedBlock
  | store {l m n : Nat} {tag : Option Nat} : n ≤ l → tag.getD 0 ≤ l →
      HeadsOwe e (headReads e l m n ++ [ev .finalizedBlock (.ok tag)]) (.lastLatestStore e.id l)
  | accepted {past : List PortEvent} {o : Op} {l : Nat} : Accepted e past l → RestOp o →
      HeadsOwe e past o

variable {e : AccountExecutor} {past : List PortEvent} {l : Nat}

theorem Accepted.snoc (h : Accepted e past l) {x : PortEvent} (hx : RestOp x.op) :
    Accepted e (past ++ [x]) l := by
  obtain ⟨m, n, tag, after, rfl, hn, hafter⟩ := h
  refine ⟨m, n, tag, after ++ [x], by simp, hn, fun y hy => ?_⟩
  rcases List.mem_append.mp hy with hy | hy
  · exact hafter y hy
  · rwa [List.mem_singleton.mp hy]

/-- A cycle accepts its head by the store. -/
theorem Accepted.of_snoc {x : PortEvent} (h : Accepted e (past ++ [x]) l) :
    Accepted e past l ∨ x = ev (.lastLatestStore e.id l) () := by
  obtain ⟨m, n, tag, after, hpast, hn, hafter⟩ := h
  rcases List.eq_nil_or_concat after with rfl | ⟨after, y, rfl⟩
  · refine .inr ?_
    have hlast := congrArg List.getLast? hpast
    simpa [headReads] using hlast
  · rw [List.concat_eq_append, ← List.append_assoc] at hpast
    obtain ⟨rfl, -⟩ := List.append_inj' hpast rfl
    exact .inl ⟨m, n, tag, after, rfl, hn, fun y hy => hafter y (by simp [hy])⟩

theorem not_accepted_nil : ¬Accepted e [] l := by
  rintro ⟨m, n, tag, after, hpast, -⟩
  simp [headReads] at hpast

/-- A cycle has one head. -/
theorem Accepted.inCycle (h : Accepted e past l) {before scan : List PortEvent} {cycle : Cycle}
    (hpast : past = before ++ scan) (hc : InCycle before e cycle) : cycle.view.latest = l := by
  obtain ⟨m, n, tag, after, rfl, -, hafter⟩ := h
  obtain ⟨pre, last, tag', post, rfl, -⟩ := hc
  cases pre with
  | nil =>
    have hhead : ev .blockNumber (.ok l) = ev .blockNumber (.ok cycle.view.latest) := by
      simpa [headReads, cycleReads] using congrArg List.head? hpast
    cases hhead
    rfl
  | cons x pre =>
    -- the head would have been read a second time
    have hmem : ev .blockNumber (.ok cycle.view.latest) ∈ (headReads e l m n ++
        [ev .finalizedBlock (.ok tag), ev (.lastLatestStore e.id l) ()] ++ after).tail := by
      rw [hpast]
      simp [cycleReads]
    have hlater : ev .blockNumber (.ok cycle.view.latest) ∈ after := by
      simpa [headReads, ev] using hmem
    exact (hafter _ hlater).elim

/-- Nothing is written before the head was accepted. -/
theorem HeadsOwe.put {h' : TxHandle} {site : PutSite} (h : HeadsOwe e past (.putHandle h' site)) :
    ∃ l, Accepted e past l := by
  cases h with
  | accepted ha _ => exact ⟨_, ha⟩

/-- A cycle that was skipped does nothing more. -/
theorem Skipped.not_owe (h : Skipped e past) (o : Op) : ¬HeadsOwe e past o := by
  intro ho
  obtain ⟨l, m, n, ⟨rfl, hl⟩ | ⟨tag, rfl, hl⟩⟩ := h
  · cases ho with
    | tag hn => omega
    | accepted ha =>
      obtain ⟨_, _, _, _, hpast, -⟩ := ha
      simp [headReads] at hpast
  · cases ho with
    | store hn ht => omega
    | accepted ha =>
      obtain ⟨_, _, _, _, hpast, -⟩ := ha
      simp [headReads] at hpast

end Cycles

section Programs

variable [Alloy] {e : AccountExecutor}

namespace AccountExecutor

omit [Alloy] in
theorem restOp_of_nonceOp {o : Op} (ho : LocalNonceManager.NonceOp o) : RestOp o := by
  cases o with
  | blockNumber | finalizedBlock | lastLatestLoad | lastLatestStore => cases ho
  | _ => trivial

theorem advanceHandle_rest (cycle : Cycle) (handle : TxHandle) :
    (e.advanceHandle cycle handle).Ops RestOp :=
  (advanceHandle_ops cycle handle).mono fun o ho => by
    cases o with
    | blockNumber | finalizedBlock | lastLatestLoad | lastLatestStore => cases ho
    | _ => trivial

/-- The head is read first, and once. -/
theorem confirm_heads (e : AccountExecutor) :
    e.confirm.run.wp (.history (HeadsOwe e)) (fun _ _ => True) [] := by
  -- after the head was accepted, the head operations do not come again
  have after : ∀ {α : Type} {x : Io α} {past l}, x.Ops RestOp → Accepted e past l →
      x.wp (.history (HeadsOwe e)) (fun _ past => Accepted e past l) past :=
    fun hx hacc => Prog.wp_of_ops (P := (Accepted e · _)) hx (fun o past ho ha => .accepted ha ho)
      (fun _ _ => trivial) (fun o past r past' ho ha hstep => hstep ▸ ha.snoc ho) hacc
  unfold confirm readCycle
  simp only [Prog.wp_run_bind, Prog.wp_run_lift, Prog.wp_run_orThrow, Rpc.wp_blockNumber,
    Rpc.wp_txCount, ExecutorMemory.wp_lastLatest, asks_history, Prog.forall_except, Except.mapError]
  refine ⟨.latest, fun _ => trivial, fun l => ⟨.mined, fun _ => trivial, fun m =>
    ⟨.last, fun n => ?_⟩⟩⟩
  split
  · trivial
  rename_i hn
  simp only [Prog.wp_run_bind, Prog.wp_run_orThrow, Rpc.wp_finalizedBlock, asks_history,
    Prog.forall_except, Except.mapError]
  refine ⟨.tag (not_lt.mp hn), fun _ => trivial, fun tag => ?_⟩
  split
  · trivial
  rename_i htag
  simp only [Prog.wp_run_bind, Prog.wp_run_lift, Prog.wp_run_pure, ExecutorMemory.wp_storeLatest,
    Prog.wp_run_orThrow, asks_history]
  refine ⟨.store (not_lt.mp hn) (not_lt.mp htag), fun _ => ?_⟩
  have hops := (e.nonceManager.reset_ops e.account m).mono fun _ ho => restOp_of_nonceOp ho.nonceOp
  refine Prog.wp_mono (after hops ⟨m, n, tag, [], rfl, not_lt.mp hn, by simp⟩) ?_
  rintro (err | _) past hacc
  · trivial
  simp only [Except.mapError, StateStore.wp_pendingHandles, asks_history, Prog.forall_except]
  refine ⟨.accepted hacc trivial, fun _ => trivial, fun hs => ?_⟩
  exact Prog.wp_mono (after (.forM _ fun handle _ => advanceHandle_rest _ handle)
    (hacc.snoc trivial)) fun _ _ _ => trivial

end AccountExecutor

end Programs

section Confirms

variable [Alloy] {e : AccountExecutor}

abbrev ConfirmThread := Thread ports Unit (Except ExecutorError Unit)
abbrev ConfirmPool := Pool ports World Unit (Except ExecutorError Unit)

/-- Calls of `confirm` on one executor, in any interleaving. -/
def confirms (e : AccountExecutor) : System ports World Unit (Except ExecutorError Unit) where
  Choice := Unit
  body _ := e.confirm.run
  admits _ _ := True
  allow p _ _ o r := p.world.can ⟨o, r⟩
  next w _ o r := w.apply ⟨o, r⟩

/-- No later call has begun. -/
def newest (p : ConfirmPool) (i : Nat) : Bool := (p.threads.drop (i + 1)).all (·.past.isEmpty)

/-- Calls of `confirm` on one executor, each of which has ended or was cut off when the next one
begins. -/
abbrev serialConfirms (e : AccountExecutor) : System ports World Unit (Except ExecutorError Unit) :=
  (confirms e).given fun p i _ => newest p i

/-- No confirm has been called yet, over any store and with any accepted head. -/
def noConfirms (w : World) : ConfirmPool := ⟨w, []⟩

variable {w : World} {n₀ : Nat} {p p' : ConfirmPool} {th : ConfirmThread} {i : Nat}

omit [Alloy] in
theorem past_of_newest {j : Nat} {th' : ConfirmThread} (h : newest p i) (hij : i < j)
    (hj : p.threads[j]? = some th') : th'.past = [] := by
  have hmem : th' ∈ p.threads.drop (i + 1) :=
    List.mem_of_getElem? (i := j - (i + 1)) (by rw [List.getElem?_drop, ← hj]; congr 1; omega)
  simpa using List.all_eq_true.mp h th' hmem

/-- Heads are accepted in the order of the calls, each one is between the first stored head `n₀`
and the one stored now, and what the newest call has loaded and not stored over is that one. -/
structure Rising (e : AccountExecutor) (n₀ : Nat) (p : ConfirmPool) : Prop where
  first : n₀ ≤ p.world.lastLatest e.id
  above : ∀ th ∈ p.threads, ∀ l, Accepted e th.past l → n₀ ≤ l
  stored : ∀ th ∈ p.threads, ∀ l, Accepted e th.past l → l ≤ p.world.lastLatest e.id
  ordered : ∀ {i j : Nat} {th th' : ConfirmThread} {l l'}, i < j → p.threads[i]? = some th →
    p.threads[j]? = some th' → Accepted e th.past l → Accepted e th'.past l' → l ≤ l'
  loaded : ∀ {i : Nat} {th : ConfirmThread} {n}, p.threads[i]? = some th → newest p i →
    ev (.lastLatestLoad e.id) n ∈ th.past →
    (∀ l, ev (.lastLatestStore e.id l) () ∉ th.past) → p.world.lastLatest e.id = n

theorem heads_owe (h : (serialConfirms e).Reaches (noConfirms w) p) (hth : th ∈ p.threads) {o : Op}
    {k : o.Reply → Io (Except ExecutorError Unit)} (hprog : th.prog = .call o k) :
    HeadsOwe e th.past o := by
  have hist := h.history (fun _ => AccountExecutor.confirm_heads e) rfl th hth
  rw [hprog] at hist
  exact (Prog.wp_history_call.mp hist).1

omit [Alloy] in
theorem newest_of_spawn {c : Unit} {b : Io (Except ExecutorError Unit)}
    (h : newest (p.spawn c b) i) : newest p i := by
  refine List.all_eq_true.mpr fun th hth => List.all_eq_true.mp h th ?_
  rw [Pool.spawn, List.drop_append]
  exact List.mem_append_left _ hth

omit [Alloy] in
theorem rising_spawn (h : Rising e n₀ p) (c : Unit) (b : Io (Except ExecutorError Unit)) :
    Rising e n₀ (p.spawn c b) where
  first := h.first
  above th hth l hl := by
    rcases Pool.mem_spawn.mp hth with hth | rfl
    · exact h.above th hth l hl
    · exact absurd hl not_accepted_nil
  stored th hth l hl := by
    rcases Pool.mem_spawn.mp hth with hth | rfl
    · exact h.stored th hth l hl
    · exact absurd hl not_accepted_nil
  ordered {i j th th' l l'} hij hi hj hl hl' := by
    rcases Pool.get_spawn hi with hi | ⟨-, rfl⟩
    · rcases Pool.get_spawn hj with hj | ⟨-, rfl⟩
      · exact h.ordered hij hi hj hl hl'
      · exact absurd hl' not_accepted_nil
    · exact absurd hl not_accepted_nil
  loaded {i th n} hi hnew hload hstore := by
    rcases Pool.get_spawn hi with hi | ⟨-, rfl⟩
    · exact h.loaded hi (newest_of_spawn hnew) hload hstore
    · cases hload

omit [Alloy] in
/-- The head is stored: the last accepted one was loaded by this call, and is not higher. -/
theorem le_of_store (h : Rising e n₀ p) (hi : p.threads[i]? = some th) (hnew : newest p i)
    {x : ExecutorId} {l : Nat} (howe : HeadsOwe e th.past (.lastLatestStore x l)) :
    x = e.id ∧ p.world.lastLatest e.id ≤ l ∧ ∀ l', ¬Accepted e th.past l' := by
  generalize hpast : th.past = past at howe
  cases howe with
  | @store l m n tag hn htag =>
    have hno : ∀ l', ev (.lastLatestStore e.id l') () ∉ th.past := by
      simp [hpast, headReads, ev]
    refine ⟨rfl, ?_, fun l' hl' => ?_⟩
    · rw [h.loaded hi hnew (n := n) (by simp [hpast, headReads]) hno]
      exact hn
    · obtain ⟨_, _, _, _, he, -⟩ := hl'
      exact hno l' (by simp [hpast, he])
  | accepted _ hrest => cases hrest

omit [Alloy] in
/-- A move of the newest call does not lower the accepted head. -/
theorem lastLatest_le_apply (h : Rising e n₀ p) (hi : p.threads[i]? = some th) (hnew : newest p i)
    {o : Op} (r : o.Reply) (howe : HeadsOwe e th.past o) :
    p.world.lastLatest e.id ≤ (p.world.apply ⟨o, r⟩).lastLatest e.id := by
  by_cases ho : ∃ x l, o = .lastLatestStore x l
  · obtain ⟨x, l, rfl⟩ := ho
    obtain ⟨rfl, hle, -⟩ := le_of_store h hi hnew howe
    simpa [World.apply, World.lastLatestAfter] using hle
  · rw [World.lastLatest_apply fun x l he => ho ⟨x, l, he⟩]

omit [Alloy] in
/-- What the newest call has accepted after a move it had accepted, or it has just stored it. -/
theorem accepted_of_move (h : Rising e n₀ p) (hi : p.threads[i]? = some th) (hnew : newest p i)
    {o : Op} {r : o.Reply} (howe : HeadsOwe e th.past o) {l : Nat}
    (hl : Accepted e (th.past ++ [⟨o, r⟩]) l) : Accepted e th.past l ∨
      (p.world.apply ⟨o, r⟩).lastLatest e.id = l ∧ p.world.lastLatest e.id ≤ l := by
  refine hl.of_snoc.imp_right fun he => ?_
  cases he
  exact ⟨by simp [World.apply, World.lastLatestAfter], (le_of_store h hi hnew howe).2.1⟩

omit [Alloy] in
/-- Each move of the newest call keeps the heads rising. -/
theorem rising_move (h : Rising e n₀ p) (hi : p.threads[i]? = some th) (hnew : newest p i) {o : Op}
    {r : o.Reply} {k : Io (Except ExecutorError Unit)} (howe : HeadsOwe e th.past o)
    (hcan : p.world.can ⟨o, r⟩) :
    Rising e n₀ (p.answer i th o r k (p.world.apply ⟨o, r⟩)) := by
  have hmono := lastLatest_le_apply h hi hnew r howe
  refine ⟨h.first.trans hmono, fun th' hth' l hl => ?_, fun th' hth' l hl => ?_,
    fun {a b x y l l'} hab ha hb hl hl' => ?_, fun {a x n} ha hnewest hload hstore => ?_⟩
  · rcases Pool.mem_answer hth' with hth' | rfl
    · exact h.above th' hth' l hl
    · rcases accepted_of_move h hi hnew howe hl with hold | ⟨-, hle⟩
      · exact h.above th (List.mem_of_getElem? hi) l hold
      · exact h.first.trans hle
  · rw [Pool.world_answer]
    rcases Pool.mem_answer hth' with hth' | rfl
    · exact (h.stored th' hth' l hl).trans hmono
    · rcases accepted_of_move h hi hnew howe hl with hold | ⟨he, -⟩
      · exact (h.stored th (List.mem_of_getElem? hi) l hold).trans hmono
      · exact he.ge
  · rw [Pool.get_answer hi] at ha hb
    split at ha
    · -- a later call has not begun
      rename_i hai
      rw [if_neg (by omega)] at hb
      rw [past_of_newest hnew (hai ▸ hab) hb] at hl'
      exact absurd hl' not_accepted_nil
    · split at hb
      · rename_i hbi
        cases hb
        rcases accepted_of_move h hi hnew howe hl' with hold | ⟨-, hle⟩
        · exact h.ordered hab ha (hbi ▸ hi) hl hold
        · exact (h.stored x (List.mem_of_getElem? ha) l hl).trans hle
      · exact h.ordered hab ha hb hl hl'
  · rw [Pool.world_answer]
    have hget := Pool.get_answer hi (r := r) (k := k) (w := p.world.apply ⟨o, r⟩)
    rcases Nat.lt_trichotomy a i with hlt | rfl | hlt
    · -- the mover is later, and has begun
      have hnil := past_of_newest hnewest hlt ((hget i).trans (if_pos rfl))
      simp at hnil
    · rw [hget, if_pos rfl] at ha
      cases ha
      have hquiet : ∀ x l, o ≠ .lastLatestStore x l := by
        rintro x l rfl
        obtain ⟨rfl, -⟩ := le_of_store h hi hnew howe
        exact hstore l (by simp [ev])
      rw [World.lastLatest_apply hquiet]
      rcases List.mem_append.mp hload with hload | hload
      · exact h.loaded hi hnew hload fun l hl => hstore l (List.mem_append_left _ hl)
      · cases List.mem_singleton.mp hload
        exact (of_decide_eq_true hcan).symm
    · rw [hget, if_neg (by omega)] at ha
      rw [past_of_newest hnew hlt ha] at hload
      cases hload

theorem rising_of_reaches (h : (serialConfirms e).Reaches (noConfirms w) p) :
    Rising e (w.lastLatest e.id) p := by
  induction h with
  | refl => exact ⟨le_rfl, by simp [noConfirms], by simp [noConfirms], by simp [noConfirms],
      by simp [noConfirms]⟩
  | @tail p p' hreach hs ih =>
    cases hs with
    | spawn c _ => exact rising_spawn ih c _
    | @move i th o k x r hi hprog ha =>
      exact rising_move ih hi ha.2 (heads_owe hreach (List.mem_of_getElem? hi) hprog) ha.1

/-- What a tick writes when it moves a handle, and the cycle that this follows from. -/
def Drives (e : AccountExecutor) (past : List PortEvent) (h h' : TxHandle) (cycle : Cycle) : Prop :=
  ∃ before scan event next, past = before ++ scan ∧ InCycle before e cycle ∧
    transition h.status event cycle.view cycle.finality = some next ∧
    h' = { h with status := AccountExecutor.settleStatus h next }

/-- **The accepted head never moves back**, as long as cycles do not overlap: over any store, where
each confirm call of an executor has ended or was cut off when the next one begins, whatever heads
are read, `last_latest` does not fall; a cycle that moves a handle has a head that is not below
any other accepted one, nor below the one accepted before, and a finalized block that is not above
it; and a skipped cycle is over and has changed neither the store nor `last_latest`. -/
theorem accepted_head_never_falls (h : (serialConfirms e).Reaches (noConfirms w) p) :
    (∀ p', (serialConfirms e).Step p p' →
      p.world.lastLatest e.id ≤ p'.world.lastLatest e.id) ∧
    (∀ i th h' g k x r, p.threads[i]? = some th → th.prog = .call (.putHandle h' (.advance g)) k →
      (serialConfirms e).allow p i x (.putHandle h' (.advance g)) r →
      ∃ cycle, Drives e th.past g h' cycle ∧ cycle.view.finalized ≤ cycle.view.latest ∧
        w.lastLatest e.id ≤ cycle.view.latest ∧
        ∀ th' ∈ p.threads, ∀ l, Accepted e th'.past l → l ≤ cycle.view.latest) ∧
    ∀ th ∈ p.threads, Skipped e th.past → (∀ o k, th.prog ≠ .call o k) ∧ ∀ x ∈ th.past, ∀ w : World,
      (w.apply x).store = w.store ∧ (w.apply x).lastLatest = w.lastLatest := by
  have hrise := rising_of_reaches h
  refine ⟨fun p' hs => ?_, fun i th h' g k x r hi hprog ha => ?_, fun th hth hskip => ?_⟩
  · cases hs with
    | spawn c _ => exact le_rfl
    | @move i th o k x r hi hprog ha =>
      exact lastLatest_le_apply hrise hi ha.2 r (heads_owe h (List.mem_of_getElem? hi) hprog)
  · have hth := List.mem_of_getElem? hi
    have hist := h.history (fun _ => AccountExecutor.confirm_history (e := e) (done_of_idle rfl))
      rfl th hth
    rw [hprog] at hist
    obtain ⟨e', he, before, scan, cycle, event, next, hpast, hcycle, -, -, -, hnext, hh'⟩ :=
      (Prog.wp_history_call.mp hist).1
    cases he
    obtain ⟨l, hacc⟩ := (heads_owe h hth hprog).put
    obtain rfl := hacc.inCycle hpast hcycle
    refine ⟨cycle, ⟨before, scan, event, next, hpast, hcycle, hnext, hh'⟩, ?_,
      hrise.above th hth _ hacc, ?_⟩
    · obtain ⟨_, _, _, _, -, -, -, -, -, hle⟩ := hcycle
      exact hle
    · intro th' hth' l' hl'
      obtain ⟨j, hj⟩ := List.mem_iff_getElem?.mp hth'
      rcases Nat.lt_trichotomy j i with hlt | rfl | hlt
      · exact hrise.ordered hlt hj hi hl' hacc
      · obtain rfl := Option.some.inj (hj.symm.trans hi)
        exact (hl'.inCycle hpast hcycle).ge
      · rw [past_of_newest ha.2 hlt hj] at hl'
        exact absurd hl' not_accepted_nil
  · refine ⟨fun o k hprog => hskip.not_owe o (heads_owe h hth hprog), fun x hx w => ?_⟩
    obtain ⟨l, m, n, ⟨hpast, -⟩ | ⟨tag, hpast, -⟩⟩ := hskip <;> rw [hpast] at hx <;>
      simp only [headReads, List.cons_append, List.nil_append, List.mem_cons, List.not_mem_nil,
        or_false] at hx
    · rcases hx with rfl | rfl | rfl <;> exact ⟨rfl, rfl⟩
    · rcases hx with rfl | rfl | rfl | rfl <;> exact ⟨rfl, rfl⟩

end Confirms

section Races

attribute [local instance] Toy.alloy

instance (e : AccountExecutor) (p : ConfirmPool) (i : Nat) (x : (confirms e).Choice) (o : ports.Op)
    (r : ports.Reply o) : Decidable ((confirms e).allow p i x o r) :=
  inferInstanceAs (Decidable (_ = true))

instance (e : AccountExecutor) (p : ConfirmPool) (c : Unit) : Decidable ((confirms e).admits p c) :=
  inferInstanceAs (Decidable True)

/-- What a send and a first cycle at head 10 leave. -/
def sentAtTen : World :=
  (System.played (S := interleavedCalls) Client.start
    [.spawn (.send Toy.manager Toy.intent .default none), .moves 0 40 () (World.serve Toy.calm),
      .spawn (.confirm Toy.executor), .moves 1 40 () (World.serve Toy.calm)]).world

/-- Two more cycles one after the other, at heads 12 and 20; the second one is about to store. -/
def oneAfterTheOther : ConfirmPool :=
  System.played (S := serialConfirms Toy.executor) (noConfirms sentAtTen)
    [.spawn (), .moves 0 20 () (World.serve (Toy.chain 12 4 none)), .spawn (),
      .moves 1 4 () (World.serve (Toy.chain 20 5 (some Toy.receipt)))]

/-- Everything but the write of a handle that moves is answered. -/
def unmoved (others : (o : Op) → Option o.Reply) (w : World) : (o : Op) → Option o.Reply
  | .putHandle _ (.advance _) => none
  | o => World.serve others w o

/-- The second of those cycles has read the receipt of the send and is about to write that it is
confirmed. -/
def aboutToMove : ConfirmPool :=
  System.played (S := serialConfirms Toy.executor) oneAfterTheOther
    [.moves 1 20 () (unmoved (Toy.chain 20 5 (some Toy.receipt)))]

/-- The record that call `i` is about to move, and what it makes of it. -/
def moving? (p : ConfirmPool) (i : Nat) : Option (TxHandle × TxHandle) :=
  match p.next? i with
  | some (.putHandle h' (.advance g)) => some (g, h')
  | _ => none

theorem exists_of_moving? {p : ConfirmPool} {i : Nat} {g h' : TxHandle}
    (h : moving? p i = some (g, h')) :
    ∃ th k, p.threads[i]? = some th ∧ th.prog = .call (.putHandle h' (.advance g)) k := by
  unfold moving? at h
  split at h
  · rename_i hnext
    cases h
    obtain ⟨th, hi, ho⟩ := Option.bind_eq_some_iff.mp hnext
    obtain ⟨k, hprog⟩ := Prog.exists_call_of_next? ho
    exact ⟨th, k, hi, hprog⟩
  · cases h

theorem accepted_head_rises_to_twenty :
    (sentAtTen.lastLatest 0 = 10 ∧ oneAfterTheOther.world.lastLatest 0 = 12) ∧
    (∃ p', (serialConfirms Toy.executor).Step oneAfterTheOther p' ∧ p'.world.lastLatest 0 = 20 ∧
      oneAfterTheOther.world.lastLatest 0 ≤ p'.world.lastLatest 0) ∧
    ∃ g h' th cycle, th ∈ aboutToMove.threads ∧ g.status = .sent ∧ h'.status = .confirmed 10 ∧
      Drives Toy.executor th.past g h' cycle ∧ cycle.view.finalized ≤ cycle.view.latest ∧
      10 ≤ cycle.view.latest ∧
      ∀ th' ∈ aboutToMove.threads, ∀ l, Accepted Toy.executor th'.past l →
        l ≤ cycle.view.latest := by
  have hreach : (serialConfirms Toy.executor).Reaches (noConfirms sentAtTen) oneAfterTheOther :=
    System.reaches_played _ _
  have hmoving : (serialConfirms Toy.executor).Reaches oneAfterTheOther aboutToMove :=
    System.reaches_played _ _
  have hstore : (System.moveBy (S := serialConfirms Toy.executor) oneAfterTheOther 1 ()
      (World.serve (Toy.chain 20 5 (some Toy.receipt)))).any (·.world.lastLatest 0 = 20) := by
    decide +kernel
  obtain ⟨p', hmove, hhead⟩ := (Option.any_eq_true _ _).mp hstore
  have hstep := System.step_of_moveBy hmove
  have hheads : sentAtTen.lastLatest 0 = 10 ∧ oneAfterTheOther.world.lastLatest 0 = 12 := by
    decide +kernel
  have hrun : (moving? aboutToMove 1).any (fun x => x.1.status = .sent ∧
      x.2.status = .confirmed 10) ∧ newest aboutToMove 1 := by decide +kernel
  obtain ⟨hany, hnewest⟩ := hrun
  obtain ⟨⟨g, h'⟩, hmoves, hstatus⟩ := (Option.any_eq_true _ _).mp hany
  obtain ⟨hsent, hconfirmed⟩ := of_decide_eq_true hstatus
  obtain ⟨th, k, hi, hprog⟩ := exists_of_moving? hmoves
  obtain ⟨cycle, hdrives, hfinal, hfirst, hothers⟩ :=
    (accepted_head_never_falls (hreach.trans hmoving)).2.1 1 th h' g k () (.ok ()) hi hprog
      ⟨rfl, hnewest⟩
  have hrises := (accepted_head_never_falls hreach).1 p' hstep
  have hid : Toy.executor.id = 0 := rfl
  rw [hid] at hfirst hrises
  rw [hheads.1] at hfirst
  exact ⟨hheads, ⟨p', hstep, of_decide_eq_true hhead, hrises⟩, g, h', th, cycle,
    List.mem_of_getElem? hi, hsent, hconfirmed, hdrives, hfinal, hfirst, hothers⟩

/-- The first cycle has read head 10 and is about to store it, when the second one has accepted
head 20. -/
def overlapping : ConfirmPool :=
  System.played (S := confirms Toy.executor) (noConfirms .initial)
    [.spawn (), .moves 0 4 () (World.serve Toy.calm), .spawn (),
      .moves 1 20 () (World.serve (Toy.chain 20 4 none))]

theorem overlapping_cycles_lower_head : ∃ (e : AccountExecutor) (p p' : ConfirmPool),
    (confirms e).Reaches (noConfirms .initial) p ∧ (confirms e).Step p p' ∧
      p'.world.lastLatest e.id < p.world.lastLatest e.id := by
  obtain ⟨p', hmove, hhead⟩ : ∃ p', System.moveBy (S := confirms Toy.executor) overlapping 0 ()
      (World.serve Toy.calm) = some p' ∧ p'.world.lastLatest 0 < overlapping.world.lastLatest 0 :=
    ⟨_, rfl, by decide +kernel⟩
  exact ⟨Toy.executor, overlapping, p', System.reaches_played _ _, System.step_of_moveBy hmove,
    hhead⟩

end Races

end WalletKit
