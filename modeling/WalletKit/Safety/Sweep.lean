import WalletKit.Safety.Progress

/-!
# A confirm cycle is a map over the store

`confirm` lists the pending handles of its account, in an order that depends on the backend, and
works through the list with several reads and a write for each. On a chain that stands still it
comes to something simple: every record of the store becomes what `swept` makes of it, whatever
the order, and every other record stays. A second cycle on the same chain then finds nothing to do.
Where the executor remembers a head above the chain's, the cycle is skipped and changes nothing.
-/
namespace WalletKit

open Machine World

section Still

/-- The relay says this of its tasks. -/
def TellsTask (relay : TaskId → Except RelayError RelayStatus) : PortEvent → Prop
  | ⟨.poll task, r⟩ => r = relay task
  | _ => True

/-- A program that nothing interrupts, on a store that works, while the chain and the tasks of the
relay stand still. It may not be cut off. -/
def World.still (c : Chain) (relay : TaskId → Except RelayError RelayStatus) :
    Spec ports World where
  step w o r w' := w.can ⟨o, r⟩ ∧ working ⟨o, r⟩ ∧ c.answers ⟨o, r⟩ ∧ TellsTask relay ⟨o, r⟩ ∧
    w' = w.apply ⟨o, r⟩
  owes _ _ := True
  stuck _ := False

/-- Neither the store nor the heads that are remembered have changed. -/
structure Steady (w v : World) : Prop where
  store : v.store = w.store
  lastLatest : v.lastLatest = w.lastLatest

variable {c : Chain} {relay : TaskId → Except RelayError RelayStatus} {w : World}

theorem asks_still {o : Op} {Q : o.Reply → World → Prop} :
    Spec.Asks (still c relay) o Q w ↔ ∀ r, w.can (ev o r) → working (ev o r) →
      c.answers (ev o r) → TellsTask relay (ev o r) → Q r (w.apply (ev o r)) :=
  ⟨fun h r hc hw ha ht => h.2 r _ ⟨hc, hw, ha, ht, rfl⟩, fun h => ⟨trivial, by
    rintro r _ ⟨hc, hw, ha, ht, rfl⟩
    exact h r hc hw ha ht⟩⟩

theorem steady_of_leaves {o : Op} (ho : Leaves o) (r : o.Reply) : Steady w (w.apply (ev o r)) :=
  ⟨ho.store _ r, lastLatest_apply (by rintro x n rfl; cases ho)⟩

theorem Steady.trans {v u : World} (h : Steady w v) (h' : Steady v u) : Steady w u :=
  ⟨h'.store.trans h.store, h'.lastLatest.trans h.lastLatest⟩

/-- A read of the chain. -/
theorem asks_still_chain {o : Op} {Q : o.Reply → World → Prop} (ho : Leaves o) {a : o.Reply}
    (hread : ∀ r, c.answers (ev o r) → r = a) (hQ : ∀ v, Steady w v → Q a v) :
    Spec.Asks (still c relay) o Q w := by
  refine asks_still.mpr fun r _ _ ha _ => ?_
  obtain rfl := hread r ha
  exact hQ _ (steady_of_leaves ho _)

theorem asks_still_put {h : TxHandle} {site : PutSite}
    {Q : Except StateStoreError Unit → World → Prop}
    (hQ : Q (.ok ()) (w.apply (ev (.putHandle h site) (.ok ())))) :
    Spec.Asks (still c relay) (.putHandle h site) Q w := by
  refine asks_still.mpr fun r _ hw _ _ => ?_
  match r with
  | .ok () => exact hQ
  | .error _ => cases hw

end Still

section Abstract

variable [Alloy]

/-- The first of these hashes that the chain has, with its transaction. -/
def Chain.found (c : Chain) (hashes : List TxHash) : Option Inclusion :=
  hashes.findSome? fun x => c.txs.find? (·.hash = x)

/-- What the chain has come to for a handle. -/
def Chain.eventOf (c : Chain) (a : Address) (h : TxHandle) (hashes : List TxHash) : ChainEvent :=
  match c.found hashes with
  | some t => .mined t.block (c.hashes t.block)
      (outcomeOf ⟨some t.block, some (c.hashes t.block), t.succeeded, t.logs⟩ h)
  | none => if h.nonce < c.count a then .replaced else .pending

namespace AccountExecutor

variable (e : AccountExecutor) (c : Chain) (relay : TaskId → Except RelayError RelayStatus)

/-- What becomes of a task that waits for its hash. -/
def polled (h : TxHandle) : TxHandle :=
  match e.relay, h.meta.bind (·.task) with
  | true, some task =>
    match relay task with
    | .ok (.included hash) => { h with broadcasts := h.broadcasts ++ [hash], status := .sent }
    | .ok (.failed reason) => { h with status := .failed reason }
    | _ => h
  | _, _ => h

/-- What a cycle makes of a record. -/
def swept (h : TxHandle) : TxHandle :=
  if h.account = e.account ∧ h.status.isTerminal = false then
    if isAwaitingRelay h then e.polled relay h
    else Round.advance h ⟨h.cancelled, c.eventOf e.account h h.broadcasts.reverse, e.cycleOn c c c⟩
  else h

end AccountExecutor

variable {e : AccountExecutor} {c : Chain} {relay : TaskId → Except RelayError RelayStatus}
  {h : TxHandle}

omit [Alloy] in
theorem polled_id : (e.polled relay h).id = h.id := by
  unfold AccountExecutor.polled
  split
  · split <;> rfl
  · rfl

theorem swept_id : (e.swept c relay h).id = h.id := by
  unfold AccountExecutor.swept
  split
  · split
    · exact polled_id
    · exact (AccountExecutor.advance_sameRecord h _).id
  · rfl

end Abstract

section Loop

variable [Alloy] {e : AccountExecutor} {c : Chain}
  {relay : TaskId → Except RelayError RelayStatus} {w v : World} {h h' : TxHandle}

/-- The store holds this record, and is otherwise as it was. -/
structure Rewrites (h' : TxHandle) (w v : World) : Prop where
  handles : ∀ id, v.store.handle id = if id = h'.id then some h' else w.store.handle id
  nonces : v.store.nonces = w.store.nonces
  lastLatest : v.lastLatest = w.lastLatest

omit [Alloy] in
theorem Steady.rewrites (hv : Steady w v) (hh : w.store.handle h.id = some h) : Rewrites h w v where
  handles id := by
    rw [hv.store]
    split
    · rename_i hid
      rw [hid, hh]
    · rfl
  nonces := by rw [hv.store]
  lastLatest := hv.lastLatest

omit [Alloy] in
theorem Rewrites.steady {u : World} (hv : Rewrites h w v) (hu : Steady v u) : Rewrites h w u :=
  ⟨fun id => by rw [hu.store, hv.handles], by rw [hu.store, hv.nonces],
    hu.lastLatest.trans hv.lastLatest⟩

omit [Alloy] in
theorem Steady.put (hv : Steady w v) (site : PutSite) :
    Rewrites h w (v.apply (ev (.putHandle h site) (.ok ()))) where
  handles id := by
    rw [handle_apply, hv.store]
    rfl
  nonces := by
    change v.store.nonces = w.store.nonces
    rw [hv.store]
  lastLatest := hv.lastLatest

/-- The scan of a handle's hashes comes to what the chain has. -/
theorem scan_still (h : TxHandle) (a : Address) (hashes : List TxHash) :
    (AccountExecutor.scan h (c.count a) hashes).wp (still c relay)
      (fun event v => event = c.eventOf a h hashes ∧ Steady w v) w := by
  induction hashes generalizing w with
  | nil => exact ⟨rfl, rfl, rfl⟩
  | cons x hashes ih =>
    unfold AccountExecutor.scan
    simp only [Prog.wp_bind, Rpc.wp_receipt]
    refine asks_still_chain (a := .ok (c.receipt x)) trivial
      (fun r hr => ok_of_toOption (of_decide_eq_true hr)) fun v hv => ?_
    cases hfound : c.txs.find? (·.hash = x) with
    | none =>
      have hevent : c.eventOf a h (x :: hashes) = c.eventOf a h hashes := by
        simp [Chain.eventOf, Chain.found, hfound]
      rw [Chain.receipt, hfound, hevent]
      exact Prog.wp_mono ih fun event u hu => ⟨hu.1, hv.trans hu.2⟩
    | some t =>
      have hevent : c.eventOf a h (x :: hashes) = .mined t.block (c.hashes t.block)
          (outcomeOf ⟨some t.block, some (c.hashes t.block), t.succeeded, t.logs⟩ h) := by
        simp [Chain.eventOf, Chain.found, hfound]
      rw [Chain.receipt, hfound, hevent]
      simp only [Option.map_some]
      unfold AccountExecutor.anchor
      simp only [Prog.wp_bind, Rpc.wp_blockHash]
      have hblock : c.blockHash t.block = some (c.hashes t.block) :=
        if_pos (c.bounded t (List.mem_of_find?_eq_some hfound))
      refine asks_still_chain (a := .ok (c.blockHash t.block)) trivial
        (fun r hr => ok_of_toOption (of_decide_eq_true hr)) fun u hu => ?_
      rw [hblock]
      simpa using hv.trans hu

theorem onSettled_still (hr : e.refill = none) (hv : Rewrites h' w v) :
    (e.onSettled h).wp (still c relay) (fun _ => Rewrites h' w) v := by
  unfold AccountExecutor.onSettled
  simp only [Prog.wp_bind, ExecutorMemory.wp_removeApproval, hr]
  exact asks_still.mpr fun r _ _ _ _ =>
    hv.steady (steady_of_leaves (o := .approvalsRemove e.id h.id) trivial r)

theorem pollTask_still (hr : e.refill = none) (hh : w.store.handle h.id = some h) :
    (e.pollTask h).wp (still c relay) (fun _ => Rewrites (e.polled relay h) w) w := by
  have hsame : Steady w w := ⟨rfl, rfl⟩
  unfold AccountExecutor.pollTask AccountExecutor.polled
  cases hrelay : e.relay with
  | false => exact hsame.rewrites hh
  | true =>
    cases htask : h.meta.bind (·.task) with
    | none => exact hsame.rewrites hh
    | some task =>
      simp only [Prog.wp_bind, Relay.wp_poll]
      refine asks_still.mpr fun r _ _ _ ht => ?_
      have hv : Steady w (w.apply (ev (.poll task) r)) :=
        steady_of_leaves (o := .poll task) trivial r
      obtain rfl : r = relay task := ht
      generalize relay task = answer at hv ⊢
      obtain err | _ | hash | reason := answer
      · exact hv.rewrites hh
      · exact hv.rewrites hh
      · simp only [Prog.wp_bind, StateStore.wp_putHandle]
        exact asks_still_put (hv.put _)
      · simp only [Prog.wp_bind, StateStore.wp_putHandle]
        exact asks_still_put (onSettled_still hr (hv.put _))

theorem advanceOnChain_still (hr : e.refill = none) (hh : w.store.handle h.id = some h) :
    (e.advanceOnChain (e.cycleOn c c c) h).wp (still c relay) (fun _ => Rewrites (Round.advance h
      ⟨h.cancelled, c.eventOf e.account h h.broadcasts.reverse, e.cycleOn c c c⟩) w) w := by
  unfold AccountExecutor.advanceOnChain AccountExecutor.eventFor
  refine Prog.wp_bind.mpr (Prog.wp_mono (scan_still h e.account _) ?_)
  rintro _ v ⟨rfl, hv⟩
  unfold Round.advance
  dsimp only
  cases transition h.status _ (e.cycleOn c c c).view (e.cycleOn c c c).finality with
  | none => exact hv.rewrites hh
  | some next =>
    simp only [Prog.wp_bind, StateStore.wp_putHandle]
    refine asks_still_put ?_
    dsimp only
    split
    · exact onSettled_still hr (hv.put _)
    · exact hv.put _

/-- The pass over one pending handle. -/
theorem advanceHandle_still (hr : e.refill = none) (hh : w.store.handle h.id = some h)
    (ha : h.account = e.account) (hlive : h.status.isTerminal = false) :
    (e.advanceHandle (e.cycleOn c c c) h).wp (still c relay)
      (fun _ => Rewrites (e.swept c relay h) w) w := by
  unfold AccountExecutor.advanceHandle AccountExecutor.swept
  rw [if_pos ⟨ha, hlive⟩]
  split
  · exact pollTask_still hr hh
  · exact advanceOnChain_still hr hh

/-- The records are swept, but for those that the cycle has still to come to. -/
structure Sweeping (e : AccountExecutor) (c : Chain)
    (relay : TaskId → Except RelayError RelayStatus) (w : World) (rest : List TxHandle)
    (v : World) : Prop where
  handles : ∀ id, v.store.handle id = if id ∈ rest.map (·.id) then w.store.handle id else
    (w.store.handle id).map (e.swept c relay)
  nonces : v.store.nonces = w.store.nonces
  lastLatest : v.lastLatest = w.lastLatest

/-- What is not pending on the account is not swept. -/
theorem Steady.sweeping {hs : List TxHandle} (hperm : hs.Perm (w.store.pendingHandles e.account))
    (hv : Steady w v) : Sweeping e c relay w hs v where
  handles id := by
    rw [hv.store]
    split
    · rfl
    · rename_i hnot
      cases hg : w.store.handle id with
      | none => rfl
      | some g =>
        have hid : g.id = id := Table.key_of_get hg
        have hout : ¬(g.account = e.account ∧ g.status.isTerminal = false) := by
          rintro ⟨ha, hlive⟩
          exact hnot (List.mem_map.mpr ⟨g, (mem_of_perm hperm).mpr ⟨hid ▸ hg, ha, hlive⟩, hid⟩)
        simp [AccountExecutor.swept, hout]
  nonces := by rw [hv.store]
  lastLatest := hv.lastLatest

theorem Sweeping.next {rest : List TxHandle} (hh : w.store.handle h.id = some h)
    (hnot : h.id ∉ rest.map (·.id)) (hv : Sweeping e c relay w (h :: rest) v) {u : World}
    (hu : Rewrites (e.swept c relay h) v u) : Sweeping e c relay w rest u where
  handles id := by
    rw [hu.handles, swept_id]
    split
    · rename_i hid
      rw [hid, if_neg hnot, hh]
      rfl
    · rename_i hid
      rw [hv.handles]
      simp [hid]
  nonces := hu.nonces.trans hv.nonces
  lastLatest := hu.lastLatest.trans hv.lastLatest

/-- The loop sweeps the store, in whatever order the handles are listed. -/
theorem loop_still (hr : e.refill = none) {hs : List TxHandle}
    (hperm : hs.Perm (w.store.pendingHandles e.account)) (hv : Steady w v) :
    (hs.forM (e.advanceHandle (e.cycleOn c c c))).wp (still c relay)
      (fun _ => Sweeping e c relay w []) v := by
  refine Prog.wp_forM (Sweeping e c relay w) (hv.sweeping hperm) (fun _ h => h) ?_
  rintro h rest v ⟨done, hd⟩ hv
  obtain ⟨hh, ha, hlive⟩ := (mem_of_perm hperm).mp (show h ∈ hs by simp [← hd])
  have hnot : h.id ∉ rest.map (·.id) := by
    have hnodup : (hs.map (·.id)).Nodup :=
      (hperm.map _).nodup_iff.mpr (w.store.handles.nodup.sublist (List.filter_sublist.map _))
    rw [← hd, List.map_append, List.map_cons] at hnodup
    exact (List.nodup_cons.mp (List.nodup_append.mp hnodup).2.1).1
  have hstored : v.store.handle h.id = some h := by
    rw [hv.handles, if_pos (by simp), hh]
  exact Prog.wp_mono (advanceHandle_still hr hstored ha hlive) fun _ u hu => hv.next hh hnot hu

end Loop

section Cycle

variable {e : AccountExecutor} {c : Chain} {relay : TaskId → Except RelayError RelayStatus}
  {w v : World}

/-- The account has moved to the count of the chain; nothing else of the store has changed. -/
structure Reset (a : Address) (n : Nat) (w v : World) : Prop where
  handles : ∀ id, v.store.handle id = w.store.handle id
  nonces : ∀ scope, v.store.loadNonceState scope =
    if scope = ⟨a⟩ then ⟨(w.store.loadNonceState scope).value.reset n,
      (w.store.loadNonceState scope).version + 1⟩ else w.store.loadNonceState scope
  lastLatest : v.lastLatest = w.lastLatest

theorem reset_still {m : LocalNonceManager} (hm : 0 < m.attempts) (a : Address) (n : Nat)
    {Q : Except NonceManagerError Unit → World → Prop} (hQ : ∀ v, Reset a n w v → Q (.ok ()) v) :
    (m.reset a n).run.wp (still c relay) Q w := by
  obtain ⟨rounds, hrounds⟩ := LocalNonceManager.attempts_succ hm
  unfold LocalNonceManager.reset
  rw [hrounds]
  unfold LocalNonceManager.resetLoop LocalNonceManager.load LocalNonceManager.cas
  simp only [Prog.wp_run_bind, Prog.wp_run_orThrow, StateStore.wp_loadNonceState,
    StateStore.wp_casNonceState]
  refine asks_still.mpr fun r hc hw _ _ => ?_
  cases r with
  | error => cases hw
  | ok loaded =>
    obtain rfl : loaded = w.store.loadNonceState ⟨a⟩ := of_decide_eq_true hc
    -- nothing has happened since the load, so the swap finds the version it expects
    refine asks_still.mpr fun r hc hw _ _ => ?_
    rcases r with _ | _ | _
    · cases hw
    · have hfalse := Store.casNonceState_loaded (of_decide_eq_true hc)
      cases hfalse
    · obtain ⟨-, hload⟩ := loadNonceState_swap hc
      refine hQ _ ⟨fun id => ?_, fun scope => ?_, rfl⟩
      · rw [handle_apply]
        rfl
      · rw [hload]
        split
        · rename_i hscope
          subst hscope
          rfl
        · rfl

/-- A cycle is skipped just where the chain is behind the head that is remembered. -/
theorem readCycle_still {Q : Except ExecutorError (Option Cycle) → World → Prop}
    (hskip : c.head < w.lastLatest e.id → ∀ v, Steady w v → Q (.ok none) v)
    (hQ : w.lastLatest e.id ≤ c.head → ∀ v, v.store = w.store →
      v.lastLatest = Function.update w.lastLatest e.id c.head →
      Q (.ok (some (e.cycleOn c c c))) v) : e.readCycle.run.wp (still c relay) Q w := by
  unfold AccountExecutor.readCycle
  simp only [Prog.wp_run_bind, Prog.wp_run_orThrow, Rpc.wp_blockNumber, Rpc.wp_txCount,
    Prog.wp_run_lift, ExecutorMemory.wp_lastLatest]
  refine asks_still_chain (a := .ok c.head) trivial
    (fun r hr => ok_of_toOption (of_decide_eq_true hr)) fun v₁ h₁ => ?_
  refine asks_still_chain (a := .ok (c.count e.account)) trivial
    (fun r hr => ok_of_toOption (of_decide_eq_true hr)) fun v₂ h₂ => ?_
  refine asks_still.mpr fun (last : Nat) hc _ _ _ => ?_
  have h₃ : Steady v₂ (v₂.apply (ev (.lastLatestLoad e.id) last)) :=
    steady_of_leaves (o := .lastLatestLoad e.id) trivial last
  obtain rfl : last = w.lastLatest e.id := by
    rw [← h₁.lastLatest, ← h₂.lastLatest]
    exact of_decide_eq_true hc
  split
  · rename_i hbehind
    exact hskip hbehind _ ((h₁.trans h₂).trans h₃)
  rename_i hlast
  simp only [Prog.wp_run_bind, Prog.wp_run_orThrow, Rpc.wp_finalizedBlock]
  refine asks_still_chain (a := .ok c.finalized) trivial
    (fun r hr => ok_of_toOption (of_decide_eq_true hr)) fun v₄ h₄ => ?_
  have hle : c.finalized.getD 0 ≤ c.head := by
    have hall := c.finalized_le
    cases hf : c.finalized with
    | none => simp
    | some f => simpa [hf] using hall
  dsimp only [Except.mapError]
  rw [if_neg (not_lt.mpr hle)]
  simp only [Prog.wp_run_bind, Prog.wp_run_lift, ExecutorMemory.wp_storeLatest, Prog.wp_run_pure]
  have hsteady := ((h₁.trans h₂).trans h₃).trans h₄
  refine asks_still.mpr fun _ _ _ _ _ => hQ (not_lt.mp hlast) _ hsteady.store ?_
  change Function.update v₄.lastLatest e.id c.head = _
  rw [hsteady.lastLatest]

end Cycle

section Law

variable [Alloy] {e : AccountExecutor} {c : Chain}
  {relay : TaskId → Except RelayError RelayStatus} {w v : World}

/-- What a confirm cycle makes of the store. -/
structure Swept (e : AccountExecutor) (c : Chain) (relay : TaskId → Except RelayError RelayStatus)
    (w v : World) : Prop where
  handles : ∀ id, v.store.handle id = (w.store.handle id).map (e.swept c relay)
  nonces : ∀ scope, v.store.loadNonceState scope =
    if scope = ⟨e.account⟩ then ⟨(w.store.loadNonceState scope).value.reset (c.count e.account),
      (w.store.loadNonceState scope).version + 1⟩ else w.store.loadNonceState scope
  lastLatest : v.lastLatest = Function.update w.lastLatest e.id c.head

theorem confirm_still (hr : e.refill = none) (hm : 0 < e.nonceManager.attempts) :
    e.confirm.run.wp (still c relay) (fun r v => r = .ok () ∧
      (c.head < w.lastLatest e.id → Steady w v) ∧
      (w.lastLatest e.id ≤ c.head → Swept e c relay w v)) w := by
  unfold AccountExecutor.confirm
  refine Prog.wp_run_bind.mpr (readCycle_still (fun hbehind v hv => ?_)
    fun hlast v₁ hstore hlatest => ?_)
  · exact ⟨rfl, fun _ => hv, fun hlast => absurd hbehind (not_lt.mpr hlast)⟩
  dsimp only
  simp only [Prog.wp_run_bind, Prog.wp_run_orThrow, Prog.wp_run_lift]
  refine reset_still hm _ _ fun v₂ h₂ => ?_
  simp only [Except.mapError, StateStore.wp_pendingHandles]
  refine asks_still.mpr fun r hc hw _ _ => ?_
  cases r with
  | error => cases hw
  | ok hs =>
    have hlist : Steady v₂ (v₂.apply (ev (.pendingHandles e.account) (.ok hs))) :=
      steady_of_leaves (o := .pendingHandles e.account) trivial _
    refine Prog.wp_mono (loop_still hr (of_decide_eq_true hc) hlist) fun _ v hv =>
      ⟨trivial, fun hbehind => absurd hbehind (not_lt.mpr hlast), fun _ => ⟨?_, ?_, ?_⟩⟩
    · intro id
      rw [hv.handles, if_neg (by simp), h₂.handles, hstore]
    · intro scope
      have hload : v.store.loadNonceState scope = v₂.store.loadNonceState scope := by
        rw [Store.loadNonceState, hv.nonces]
        rfl
      rw [hload, h₂.nonces, hstore]
      rfl
    · rw [hv.lastLatest, h₂.lastLatest, hlatest]

omit [Alloy] in
/-- A status that a transition has led to is where the same event leaves it, unless the head of the
cycle is itself final. -/
theorem transition_again {s t : TxStatus} {event : ChainEvent} {view : ChainView}
    {cfg : FinalityConfig} (h : transition s event view cfg = some t)
    (hlive : t.isTerminal = false) (hhead : isFinal view.latest view cfg = false) :
    transition t event view cfg = none := by
  obtain ⟨-, -, ⟨rfl, rfl, -⟩ | ⟨b, bh, o, rfl, ⟨-, rfl⟩ | ⟨hf, rfl⟩⟩ |
    ⟨rfl, ⟨l, -, -, rfl⟩ | ⟨-, rfl⟩⟩⟩ := transition_cases h
  · rfl
  · simp at hlive
  · simp [transition, TxStatus.isTerminal, hf, Option.filter]
  · cases hlive
  · simp [transition_replaced (show (TxStatus.replacing view.latest).isTerminal = false from rfl),
      hhead]

omit [Alloy] in
theorem advance_again {h : TxHandle} {r : Round}
    (hhead : isFinal r.cycle.view.latest r.cycle.view r.cycle.finality = false)
    (hlive : (r.advance h).status.isTerminal = false) : r.advance (r.advance h) = r.advance h := by
  cases hnext : transition h.status r.event r.cycle.view r.cycle.finality with
  | none =>
    have hsame : r.advance h = { h with cancelled := r.cancelled } := by
      simp [Round.advance, hnext]
    rw [hsame]
    simp [Round.advance, hnext]
  | some t =>
    have hmoved : r.advance h = { h with
        cancelled := r.cancelled
        status := AccountExecutor.settleStatus { h with cancelled := r.cancelled } t } := by
      simp [Round.advance, hnext]
    rw [hmoved] at hlive ⊢
    dsimp only at hlive
    rcases settleStatus_cases { h with cancelled := r.cancelled } t with hs | ⟨-, hs⟩
    · rw [hs] at hlive ⊢
      have hagain := transition_again hnext hlive hhead
      simp [Round.advance, hagain]
    · rw [hs] at hlive
      cases hlive

omit [Alloy] in
/-- A round changes nothing but the status and the mark. -/
theorem advance_fields (h : TxHandle) (r : Round) :
    r.advance h = { h with cancelled := r.cancelled, status := (r.advance h).status } := by
  unfold Round.advance
  dsimp only
  split <;> rfl

theorem swept_of_terminal {h : TxHandle} (hs : h.status.isTerminal) : e.swept c relay h = h := by
  simp [AccountExecutor.swept, hs]

omit [Alloy] in
theorem polled_cases (hrelay : ∀ task hash, relay task ≠ .ok (.included hash)) (h : TxHandle) :
    e.polled relay h = h ∨ (e.polled relay h).status.isTerminal := by
  unfold AccountExecutor.polled
  split
  · split
    · rename_i hash hincluded
      exact absurd hincluded (hrelay _ _)
    · exact .inr rfl
    · exact .inl rfl
  · exact .inl rfl

/-- Nothing is left to do for a record that was swept. -/
theorem swept_swept (hrelay : ∀ task hash, relay task ≠ .ok (.included hash))
    (hhead : isFinal c.head (e.cycleOn c c c).view (e.cycleOn c c c).finality = false)
    (h : TxHandle) : e.swept c relay (e.swept c relay h) = e.swept c relay h := by
  by_cases hin : h.account = e.account ∧ h.status.isTerminal = false
  · by_cases hwait : isAwaitingRelay h
    · have hpolled : e.swept c relay h = e.polled relay h := by
        simp only [AccountExecutor.swept, if_pos hin, if_pos hwait]
      rcases polled_cases hrelay h with hsame | hterminal
      · rw [hpolled, hsame, hpolled, hsame]
      · rw [hpolled]
        exact swept_of_terminal hterminal
    · generalize hr : (⟨h.cancelled, c.eventOf e.account h h.broadcasts.reverse,
        e.cycleOn c c c⟩ : Round) = r
      have hadvance : e.swept c relay h = r.advance h := by
        simp only [AccountExecutor.swept, if_pos hin, if_neg hwait, hr]
      rw [hadvance]
      cases hlive : (r.advance h).status.isTerminal with
      | true => exact swept_of_terminal hlive
      | false =>
        have hagain : r.advance (r.advance h) = r.advance h :=
          advance_again (by subst hr; exact hhead) hlive
        -- the second cycle reads the same event
        have hfields := advance_fields h r
        generalize r.advance h = g at hlive hagain hfields ⊢
        have hround : (⟨g.cancelled, c.eventOf e.account g g.broadcasts.reverse,
            e.cycleOn c c c⟩ : Round) = r := by
          rw [← hr, hfields, ← hr]
          simp [Chain.eventOf, outcomeOf]
        have hstill : ¬isAwaitingRelay g := by
          rw [hfields]
          exact hwait
        have haccount : g.account = e.account := by
          rw [hfields]
          exact hin.1
        simp only [AccountExecutor.swept, if_pos (And.intro haccount hlive), if_neg hstill, hround,
          hagain]
  · have hsame : e.swept c relay h = h := if_neg hin
    rw [hsame, hsame]

/-- **A confirm cycle is a map over the store.** Alone on a working store, with a chain and a relay
that stand still and no refill, it succeeds. Where the executor remembers a head above the chain's,
it changes nothing. Otherwise it moves the nonces of its account to the count of the chain, and
makes of every record what `swept` makes of it, in whatever order the backend lists them; and a
second cycle changes no record, as long as the head of the chain is not itself final and no task has
been included since. -/
theorem confirm_sweeps_store (hr : e.refill = none) (hm : 0 < e.nonceManager.attempts) :
    e.confirm.run.wp (still c relay) (fun r v => r = .ok () ∧
      (c.head < w.lastLatest e.id → Steady w v) ∧
      (w.lastLatest e.id ≤ c.head → Swept e c relay w v ∧
        ((∀ task hash, relay task ≠ .ok (.included hash)) →
          isFinal c.head (e.cycleOn c c c).view (e.cycleOn c c c).finality = false →
          e.confirm.run.wp (still c relay) (fun r u => r = .ok () ∧
            ∀ id, u.store.handle id = v.store.handle id) v))) w := by
  refine Prog.wp_mono (confirm_still hr hm) ?_
  rintro r v ⟨rfl, hskipped, hswept⟩
  refine ⟨rfl, hskipped, fun hlast => ⟨hswept hlast, fun hrelay hhead => ?_⟩⟩
  have hv := hswept hlast
  have hlast' : v.lastLatest e.id ≤ c.head := by simp [hv.lastLatest]
  refine Prog.wp_mono (confirm_still hr hm) ?_
  rintro r u ⟨rfl, -, hu⟩
  refine ⟨rfl, fun id => ?_⟩
  rw [(hu hlast').handles, hv.handles, Option.map_map]
  exact congrArg (Option.map · _) (funext (swept_swept hrelay hhead))

end Law

section SweepRun

attribute [local instance] Toy.alloy

theorem confirm_sweeps_store_stranded :
    Toy.executor.confirm.run.wp (still Toy.sentMined fun _ => .ok .pending) (fun r v => r = .ok () ∧
      ∃ g, v.store.handle g.id = some g ∧ g.status = .confirmed 11) strandedSend.world := by
  have hlast : strandedSend.world.lastLatest Toy.executor.id ≤ Toy.sentMined.head := by
    decide +kernel
  refine Prog.wp_mono (confirm_sweeps_store rfl (by decide)) ?_
  rintro r v ⟨hok, -, hswept⟩
  have hv := (hswept hlast).1
  have hhas : strandedSend.world.store.has fun g =>
      (Toy.executor.swept Toy.sentMined (fun _ => .ok .pending) g).status = .confirmed 11 := by
    decide +kernel
  obtain ⟨g, hg, hs⟩ := Store.exists_of_has hhas
  refine ⟨hok, Toy.executor.swept Toy.sentMined (fun _ => .ok .pending) g, ?_, of_decide_eq_true hs⟩
  rw [swept_id, hv.handles, hg]
  rfl

end SweepRun

end WalletKit
