import WalletKit.Runtime.Truthful
import WalletKit.Safety.Burial
import WalletKit.Safety.Cancelled
import WalletKit.Safety.Clock

/-!
# Settlement after faults

Whatever has gone wrong before, no status that is not terminal holds a handle back. One tick that
runs alone, on a store that works and on truthful reads, settles a handle one of whose
transactions is mined deep enough; two settle one whose nonce another transaction holds, the
second with a view that makes the head of the first final. What earlier ticks have left behind,
a clock that runs from an old head or a head that is remembered, is no obstacle as long as no
head was reported that is above the present one.
-/
namespace WalletKit

open Machine Signing World

section Rules

variable {cs : Chain → Prop} {g : TxHandle} {c l : Nat} {w : World} {a : Address}
  {hs : List TxHandle}

theorem asks_pending {Q : Except StateStoreError (List TxHandle) → World → Prop}
    (h : Holds g c l w)
    (hQ : ∀ hs v, hs.Perm (w.store.pendingHandles a) → Holds g c l v → Q (.ok hs) v) :
    Spec.Asks (truthful cs) (.pendingHandles a) Q w := by
  refine asks_truthful.mpr fun r hc hw _ _ => ?_
  match r with
  | .error _ => cases hw
  | .ok hs => exact hQ hs _ (of_decide_eq_true hc) (h.leaves (o := .pendingHandles a) trivial _)

theorem mem_of_perm (hperm : hs.Perm (w.store.pendingHandles a)) {x : TxHandle} : x ∈ hs ↔
    w.store.handle x.id = some x ∧ x.account = a ∧ x.status.isTerminal = false :=
  hperm.mem_iff.trans Store.mem_pendingHandles

theorem nodup_of_perm (hperm : hs.Perm (w.store.pendingHandles a)) : hs.Nodup := by
  refine hperm.nodup_iff.mpr (List.Nodup.of_map (·.id) ?_)
  exact w.store.handles.nodup.sublist (List.filter_sublist.map _)

theorem Holds.weaken (h : Holds g c l w) {k : Nat} (hk : l ≤ k) : Holds g 0 k w :=
  ⟨h.stored, by simp, fun x => (h.heads x).trans hk⟩

/-- A listed handle other than this one has another id. -/
theorem Holds.id_ne (h : Holds g c l w) (hperm : hs.Perm (w.store.pendingHandles a)) {x : TxHandle}
    (hx : x ∈ hs) (hne : x ≠ g) : x.id ≠ g.id := by
  intro hid
  have hstored := ((mem_of_perm hperm).mp hx).1
  rw [hid, h.stored] at hstored
  exact hne (Option.some.inj hstored).symm

end Rules

namespace AccountExecutor

/-- The loops of this executor's nonce managers are observed for at least a round. -/
def Observed (e : AccountExecutor) : Prop :=
  0 < e.nonceManager.attempts ∧ ∀ m ∈ e.refill, 0 < m.nonceManager.attempts

/-- The cycle that reads its head, its count and its tag on these chains. -/
def cycleOn (e : AccountExecutor) (head count tag : Chain) : Cycle :=
  ⟨⟨head.head, tag.finalized.getD 0⟩,
    ⟨if tag.finalized.isSome then .finalized else .depth, e.requiredConfirmations⟩,
    count.count e.account⟩

variable [Alloy] {e : AccountExecutor} {cs : Chain → Prop} {g : TxHandle} {c l : Nat} {w : World}

section Others

theorem onSettled_alone (he : e.Observed) (h : Holds g c l w) (hlt : g.nonce < c)
    (haccount : g.intent.account = g.account) (d : TxHandle) :
    (e.onSettled d).wp (truthful cs) (fun _ => Holds g c l) w := by
  unfold onSettled
  simp only [Prog.wp_bind, ExecutorMemory.wp_removeApproval]
  refine asks_leaves h trivial fun _ v h => ?_
  cases hr : e.refill with
  | none => exact h
  | some manager =>
    dsimp only
    split
    · exact Prog.wp_bind.mpr (TransactionManager.sendWithMeta_alone (he.2 manager hr) h hlt haccount
        _ _ _ _)
    · exact h

theorem scan_alone (h : Holds g c l w) (handle : TxHandle) (mined : Nat) (hashes : List TxHash) :
    (scan handle mined hashes).wp (truthful cs) (fun _ => Holds g c l) w := by
  induction hashes generalizing w with
  | nil => exact h
  | cons x hashes ih =>
    unfold scan
    simp only [Prog.wp_bind, Rpc.wp_receipt]
    refine asks_leaves h trivial fun r v h => ?_
    obtain e | _ | rc := r
    · exact h
    · exact ih h
    · dsimp only
      unfold anchor
      split
      · simp only [Prog.wp_bind, Rpc.wp_blockHash]
        refine asks_leaves h trivial fun r v h => ?_
        obtain e | _ | bh := r
        · exact h
        · exact h
        · dsimp only
          split <;> exact h
      · exact h

/-- The pass over another handle leaves this one alone. -/
theorem advanceHandle_alone (he : e.Observed) (h : Holds g c l w) (hlt : g.nonce < c)
    (haccount : g.intent.account = g.account) (cycle : Cycle) {handle : TxHandle}
    (hne : handle.id ≠ g.id) :
    (e.advanceHandle cycle handle).wp (truthful cs) (fun _ => Holds g c l) w := by
  unfold advanceHandle
  split
  · unfold pollTask
    split
    · simp only [Prog.wp_bind, Relay.wp_poll]
      refine asks_leaves h trivial fun r v h => ?_
      obtain _ | _ | hash | reason := r
      · exact h
      · exact h
      · simp only [Prog.wp_bind, StateStore.wp_putHandle]
        exact asks_put_other h hne fun _ h => h
      · simp only [Prog.wp_bind, StateStore.wp_putHandle]
        exact asks_put_other h hne fun _ h => onSettled_alone he h hlt haccount _
    · exact h
  · unfold advanceOnChain
    refine Prog.wp_bind.mpr (Prog.wp_mono (scan_alone h _ _ _) fun event v h => ?_)
    split
    · exact h
    · simp only [Prog.wp_bind, StateStore.wp_putHandle]
      refine asks_put_other h hne fun v h => ?_
      dsimp only
      split
      · exact onSettled_alone he h hlt haccount _
      · exact h

omit [Alloy] in
theorem recover_alone (h : Holds g c l w) :
    e.recover.run.wp (truthful cs) (fun r v => r = .ok () ∧ Holds g c l v) w := by
  unfold recover
  simp only [Prog.wp_run_bind, Prog.wp_run_orThrow, Prog.wp_run_lift, StateStore.wp_pendingHandles]
  refine asks_pending h fun hs v _ h => ?_
  refine Prog.wp_forM (fun _ => Holds g c l) h (fun v h => ⟨trivial, h⟩) fun handle _ v _ h => ?_
  unfold recoverHandle
  split
  all_goals first
    | exact h
    | split
      · exact h
      · simp only [Prog.wp_bind, Submission.wp_submit]
        exact asks_leaves h trivial fun _ _ h => h

omit [Alloy] in
theorem bumpApproval_alone (h : Holds g c l w) (handle : TxHandle) (fees : Eip1559Estimation)
    (now : Nat) : (e.bumpApproval handle fees now).run.wp (truthful cs)
      (fun _ => Holds g c l) w := by
  unfold bumpApproval
  simp only [Prog.wp_run_bind, Prog.wp_run_lift, ExecutorMemory.wp_approval]
  refine asks_leaves h trivial fun cached v h => ?_
  split
  · exact h
  · simp only [Prog.wp_run_bind, Prog.wp_run_orThrow, PolicyEngine.wp_evaluate]
    refine asks_leaves h trivial fun r v h => ?_
    obtain _ | _ | _ := r <;> exact h

theorem submitBump_alone (h : Holds g c l w) {handle : TxHandle} (hne : handle.id ≠ g.id)
    (gasLimit : Nat) (fees : Eip1559Estimation) (approval : PolicyApproval) (now : Nat) :
    (e.submitBump handle gasLimit fees approval now).run.wp (truthful cs) (fun _ => Holds g c l)
      w := by
  have recorded : ∀ {routed : TxHandle} (signed : SignedTx) (v : World), routed.id ≠ g.id →
      Holds g c l v → (e.recordBump routed handle signed approval now).run.wp (truthful cs)
        (fun _ => Holds g c l) v := by
    intro routed signed v hne h
    unfold recordBump
    simp only [Prog.wp_run_bind, Prog.wp_run_orThrow, Prog.wp_run_lift, StateStore.wp_putHandle,
      ExecutorMemory.wp_insertApproval]
    exact asks_put_other h hne fun v h => asks_leaves h trivial fun _ _ h => h
  unfold submitBump signEncode
  simp only [Prog.wp_run_bind, Prog.wp_run_orThrow, Prog.wp_run_lift, Prog.wp_run_pure,
    Signer.wp_signTransaction, Submission.wp_submit]
  refine asks_leaves h trivial fun r v h => ?_
  cases r with
  | error => exact h
  | ok signature =>
    refine asks_leaves h trivial fun r v h => ?_
    cases r with
    | ok => exact recorded _ v hne h
    | error err =>
      dsimp only
      split
      · exact recorded _ v hne h
      · exact h

/-- A bump writes over no other handle. -/
theorem bump_alone (h : Holds g c l w) {handle : TxHandle} (hne : handle.id ≠ g.id) (now : Nat) :
    (e.bump handle now).run.wp (truthful cs) (fun _ => Holds g c l) w := by
  unfold bump
  simp only [Prog.wp_run_bind, Prog.wp_run_orThrow, Rpc.wp_txCount]
  refine asks_leaves h trivial fun r v h => ?_
  cases r with
  | error => exact h
  | ok mined =>
    dsimp only [Except.mapError]
    split
    · exact h
    split
    · exact h
    simp only [Prog.wp_run_bind, Prog.wp_run_lift, GasOracle.wp_bump]
    refine asks_leaves h trivial fun r v h => ?_
    obtain (_ | _) | bumped := r
    · exact h
    · exact h
    · dsimp only
      split
      · exact h
      refine Prog.wp_run_bind.mpr (Prog.wp_mono (bumpApproval_alone h _ _ _) ?_)
      rintro (_ | _ | approval) v h
      · exact h
      · exact h
      · exact submitBump_alone h hne _ _ _ _

theorem escalate_alone (h : Holds g c l w) (hs : g.status ≠ .sent) :
    e.escalate.run.wp (truthful cs) (fun _ => Holds g c l) w := by
  unfold escalate
  simp only [Prog.wp_run_bind, Prog.wp_run_orThrow, Prog.wp_run_lift, Clock.wp_nowUnix,
    StateStore.wp_pendingHandles]
  refine asks_leaves h trivial fun now v h => ?_
  refine asks_pending h fun hs v' hperm h' => ?_
  refine Prog.wp_forM (fun _ => Holds g c l) h' (fun v h => h) ?_
  rintro handle rest v ⟨done, hd⟩ h''
  unfold escalateHandle
  split
  · rename_i hstuck
    refine Prog.wp_bind.mpr (bump_alone h'' (h.id_ne hperm (by simp [← hd]) ?_) now)
    rintro rfl
    exact hs hstuck.1
  · exact h''

end Others

section Own

/-- The scan of hashes that have no receipt. -/
theorem scan_unmined (h : Holds g c l w) (handle : TxHandle) (mined : Nat) {hashes : List TxHash}
    (hno : ∀ x, cs x → ∀ y ∈ hashes, x.receipt y = none) :
    (scan handle mined hashes).wp (truthful cs) (fun event v =>
      event = (if handle.nonce < mined then .replaced else .pending) ∧ Holds g c l v) w := by
  induction hashes generalizing w with
  | nil => exact ⟨rfl, h⟩
  | cons y hashes ih =>
    unfold scan
    simp only [Prog.wp_bind, Rpc.wp_receipt]
    refine asks_chain h trivial (f := fun x => .ok (x.receipt y))
      (fun x r hr => ok_of_toOption (of_decide_eq_true hr)) fun x v hx h => ?_
    rw [hno x hx y (by simp)]
    exact ih h fun x hx y hy => hno x hx y (by simp [hy])

/-- The scan of hashes one of which has a receipt, of a canonical block. -/
theorem scan_mined (h : Holds g c l w) (handle : TxHandle) (mined : Nat) {hashes : List TxHash}
    {y : TxHash} (hy : y ∈ hashes) {b : Nat} {bh : B256} {ok : Bool} {logs : List Log}
    (hreceipt : ∀ x, cs x → x.receipt y = some ⟨some b, some bh, ok, logs⟩)
    (hblock : ∀ x, cs x → x.blockHash b = some bh)
    (hothers : ∀ x, cs x → ∀ z ∈ hashes, z ≠ y → x.receipt z = none) :
    (scan handle mined hashes).wp (truthful cs) (fun event v =>
      event = .mined b bh (outcomeOf ⟨some b, some bh, ok, logs⟩ handle) ∧ Holds g c l v) w := by
  induction hashes generalizing w with
  | nil => cases hy
  | cons z hashes ih =>
    unfold scan
    simp only [Prog.wp_bind, Rpc.wp_receipt]
    refine asks_chain h trivial (f := fun x => .ok (x.receipt z))
      (fun x r hr => ok_of_toOption (of_decide_eq_true hr)) fun x v hx h => ?_
    by_cases hz : z = y
    · subst hz
      rw [hreceipt x hx]
      unfold anchor
      simp only [Prog.wp_bind, Rpc.wp_blockHash]
      refine asks_chain h trivial (f := fun x => .ok (x.blockHash b))
        (fun x r hr => ok_of_toOption (of_decide_eq_true hr)) fun x v hx h => ?_
      rw [hblock x hx]
      simpa using h
    · rw [hothers x hx z (by simp) hz]
      refine ih h (List.mem_of_ne_of_mem (Ne.symm hz) hy) fun x hx y hy => ?_
      exact hothers x hx y (by simp [hy])

/-- The pass over the handle itself, when its scan is known to end with this event. -/
theorem advanceOwn_alone (he : e.Observed) (hlt : g.nonce < c)
    (haccount : g.intent.account = g.account) (hne : g.broadcasts ≠ []) (cycle : Cycle)
    {event : ChainEvent} (hscan : (eventFor g cycle.minedNonce).wp (truthful cs)
      (fun event' v => event' = event ∧ Holds g c l v) w) :
    (e.advanceHandle cycle g).wp (truthful cs)
      (fun _ => Holds (Round.advance g ⟨g.cancelled, event, cycle⟩) c l) w := by
  unfold advanceHandle
  rw [if_neg (by simp [isAwaitingRelay, hne])]
  unfold advanceOnChain
  refine Prog.wp_bind.mpr (Prog.wp_mono hscan ?_)
  rintro _ v ⟨rfl, h⟩
  unfold Round.advance
  dsimp only
  cases transition g.status _ cycle.view cycle.finality with
  | none => exact h
  | some next =>
    simp only [Prog.wp_bind, StateStore.wp_putHandle]
    refine asks_put_own h ⟨rfl, rfl, rfl, rfl, rfl⟩ fun v h => ?_
    dsimp only
    split
    · exact onSettled_alone he h hlt haccount _
    · exact h

end Own

section Ticks

/-- The views that a cycle can meet among these chains: no head is below `l`, and no tag is above
a head. -/
structure Views (cs : Chain → Prop) (l : Nat) : Prop where
  heads : ∀ x, cs x → l ≤ x.head
  tags : ∀ x y, cs x → cs y → y.finalized.getD 0 ≤ x.head

omit [Alloy] in
/-- A cycle among such views is not skipped. -/
theorem readCycle_alone (hviews : Views cs l) (h : Holds g 0 l w)
    {Q : Except ExecutorError (Option Cycle) → World → Prop}
    (hQ : ∀ x y z v, cs x → cs y → cs z → Holds g 0 x.head v → Q (.ok (some (e.cycleOn x y z))) v) :
    e.readCycle.run.wp (truthful cs) Q w := by
  unfold readCycle
  simp only [Prog.wp_run_bind, Prog.wp_run_orThrow, Rpc.wp_blockNumber, Rpc.wp_txCount,
    Prog.wp_run_lift, ExecutorMemory.wp_lastLatest]
  refine asks_chain h trivial (f := fun x => .ok x.head)
    (fun x r hr => ok_of_toOption (of_decide_eq_true hr)) fun x v hx h => ?_
  refine asks_chain h trivial (f := fun y => .ok (y.count e.account))
    (fun y r hr => ok_of_toOption (of_decide_eq_true hr)) fun y v hy h => ?_
  refine asks_truthful.mpr fun (last : Nat) hc _ _ _ => ?_
  have h' : Holds g 0 l _ := h.leaves (o := .lastLatestLoad e.id) trivial last
  have hlast : last ≤ x.head := calc
    last = v.lastLatest e.id := of_decide_eq_true hc
    _ ≤ l := h.heads e.id
    _ ≤ x.head := hviews.heads x hx
  rw [if_neg (not_lt.mpr hlast)]
  simp only [Prog.wp_run_bind, Prog.wp_run_orThrow, Rpc.wp_finalizedBlock]
  refine asks_chain h' trivial (f := fun z => .ok z.finalized)
    (fun z r hr => ok_of_toOption (of_decide_eq_true hr)) fun z v hz h => ?_
  dsimp only [Except.mapError]
  rw [if_neg (not_lt.mpr (hviews.tags x z hx hz))]
  simp only [Prog.wp_run_bind, Prog.wp_run_lift, ExecutorMemory.wp_storeLatest, Prog.wp_run_pure]
  refine asks_truthful.mpr fun _ _ _ _ _ => hQ x y z _ hx hy hz ⟨h.stored, h.floor, fun i => ?_⟩
  have hle : l ≤ x.head := hviews.heads x hx
  by_cases hi : i = e.id
  · subst hi
    simp [ev, World.apply, World.lastLatestAfter]
  · simpa [ev, World.apply, World.lastLatestAfter, hi] using (h.heads i).trans hle

/-- On these chains the nonce of the handle is consumed, and its scan ends with this event. -/
structure Shows (cs : Chain → Prop) (g : TxHandle) (event : ChainEvent) : Prop where
  consumed : ∀ x, cs x → g.nonce < x.count g.account
  scanned : ∀ c l mined w, g.nonce < mined → Holds g c l w →
    (eventFor g mined).wp (truthful cs) (fun event' v => event' = event ∧ Holds g c l v) w

/-- The handle after a cycle on these chains whose scan ends with this event. -/
def Advanced (e : AccountExecutor) (cs : Chain → Prop) (g : TxHandle) (event : ChainEvent)
    (w : World) : Prop :=
  ∃ x y z, cs x ∧ cs y ∧ cs z ∧
    Holds (Round.advance g ⟨g.cancelled, event, e.cycleOn x y z⟩) (y.count g.account) x.head w

omit [Alloy] in
theorem advance_of_terminal (hs : g.status.isTerminal) (event : ChainEvent) (cycle : Cycle) :
    Round.advance g ⟨g.cancelled, event, cycle⟩ = g := by
  simp [Round.advance, transition, hs]

omit [Alloy] in
theorem advance_sameRecord (g : TxHandle) (r : Round) : SameRecord g (r.advance g) := by
  unfold Round.advance
  dsimp only
  split <;> exact ⟨rfl, rfl, rfl, rfl, rfl⟩

variable {event : ChainEvent}

theorem confirm_alone (he : e.Observed) (ha : e.account = g.account) (hviews : Views cs l)
    (hshows : Shows cs g event) (haccount : g.intent.account = g.account) (hne : g.broadcasts ≠ [])
    (h : Holds g 0 l w) :
    e.confirm.run.wp (truthful cs) (fun r v => r = .ok () ∧ e.Advanced cs g event v) w := by
  unfold confirm
  refine Prog.wp_run_bind.mpr (readCycle_alone hviews h fun x y z v hx hy hz h => ?_)
  dsimp only
  have hlt : g.nonce < y.count g.account := hshows.consumed y hy
  simp only [Prog.wp_run_bind, Prog.wp_run_orThrow, cycleOn]
  rw [ha]
  refine LocalNonceManager.reset_alone he.1 h fun v h => ?_
  simp only [Except.mapError, Prog.wp_run_lift, StateStore.wp_pendingHandles]
  refine asks_pending h fun hs u hperm hu => ?_
  generalize hg' : Round.advance g ⟨g.cancelled, event, e.cycleOn x y z⟩ = g'
  have hsame : SameRecord g g' := hg' ▸ advance_sameRecord g _
  -- the handle is as it was until its turn has come
  refine Prog.wp_forM (fun rest => Holds (if g ∈ rest then g else g') (y.count g.account) x.head)
    ?_ (fun v h => ⟨trivial, x, y, z, hx, hy, hz, by simpa [hg'] using h⟩) ?_
  · split
    · exact hu
    · rename_i hnot
      have hs : g.status.isTerminal := by
        by_contra hs
        exact hnot ((mem_of_perm hperm).mpr ⟨h.stored, rfl, by simpa using hs⟩)
      rwa [← hg', advance_of_terminal hs]
  · rintro d rest v ⟨done, hd⟩ hv
    by_cases hdg : d = g
    · subst hdg
      have hnot : d ∉ rest := by
        have hnodup : (done ++ d :: rest).Nodup := hd ▸ nodup_of_perm hperm
        exact (List.nodup_cons.mp (List.nodup_append.mp hnodup).2.1).1
      rw [if_pos (by simp)] at hv
      rw [if_neg hnot, ← hg']
      have hscan := hshows.scanned _ _ _ v hlt hv
      simpa [cycleOn, ha] using advanceOwn_alone he hlt haccount hne (e.cycleOn x y z)
        (by simpa [cycleOn, ha] using hscan)
    · have hid : d.id ≠ g.id := h.id_ne hperm (by simp [← hd]) hdg
      simp only [List.mem_cons, Ne.symm hdg, false_or] at hv
      generalize hcur : (if g ∈ rest then g else g') = cur at hv ⊢
      have hrec : SameRecord g cur := by
        rw [← hcur]
        split
        · exact ⟨rfl, rfl, rfl, rfl, rfl⟩
        · exact hsame
      exact advanceHandle_alone he hv (by rwa [hrec.nonce])
        (by rw [hrec.intent, hrec.account, haccount]) _ (by rwa [hrec.id])

omit [Alloy] in
/-- A handle that is found mined or displaced is not taken for one that is still under way. -/
theorem advance_ne_sent {r : Round} (hp : r.event ≠ .pending) (hu : r.event ≠ .unknown) :
    (r.advance g).status ≠ .sent := by
  intro hs
  unfold Round.advance at hs
  cases hnext : transition g.status r.event r.cycle.view r.cycle.finality with
  | none =>
    rw [hnext] at hs
    replace hs : g.status = .sent := hs
    rw [hs] at hnext
    cases he : r.event with
    | pending => exact hp he
    | unknown => exact hu he
    | replaced => simp [he, transition, TxStatus.isTerminal, Option.filter] at hnext
    | mined b bh o =>
      cases hf : isFinal b r.cycle.view r.cycle.finality <;> cases o <;>
        simp [he, transition, TxStatus.isTerminal, Option.filter, hf, Outcome.settled] at hnext
  | some next =>
    rw [hnext] at hs
    have hsent : next = .sent := by
      rcases settleStatus_cases { g with cancelled := r.cancelled } next with he | ⟨-, he⟩
      · exact he.symm.trans hs
      · cases he.symm.trans hs
    subst hsent
    obtain ⟨-, -, ⟨he, -⟩ | ⟨b, bh, o, -, ⟨-, ht⟩ | ⟨-, ht⟩⟩ | ⟨-, ⟨_, -, -, ht⟩ | ⟨-, ht⟩⟩⟩ :=
      transition_cases hnext
    · exact hp he
    · cases o <;> cases ht
    · cases ht
    · cases ht
    · cases ht

theorem tick_alone (he : e.Observed) (ha : e.account = g.account) (hviews : Views cs l)
    (hshows : Shows cs g event) (hp : event ≠ .pending) (hu : event ≠ .unknown)
    (haccount : g.intent.account = g.account) (hne : g.broadcasts ≠ []) (h : Holds g 0 l w) :
    e.tick.run.wp (truthful cs) (fun _ => e.Advanced cs g event) w := by
  unfold tick
  refine Prog.wp_run_bind.mpr (Prog.wp_mono (recover_alone h) ?_)
  rintro _ v ⟨rfl, h⟩
  refine Prog.wp_run_bind.mpr (Prog.wp_mono
    (confirm_alone he ha hviews hshows haccount hne h) ?_)
  rintro _ v ⟨rfl, x, y, z, hx, hy, hz, h⟩
  refine Prog.wp_mono (escalate_alone h (advance_ne_sent hp hu)) fun _ v h => ?_
  exact ⟨x, y, z, hx, hy, hz, h⟩

/-- A block is final for a cycle that takes its views among these chains. -/
def Final (e : AccountExecutor) (cs : Chain → Prop) (b : Nat) : Prop :=
  ∀ x y z, cs x → cs y → cs z → isFinal b (e.cycleOn x y z).view (e.cycleOn x y z).finality

end Ticks

end AccountExecutor

section Outcomes

open AccountExecutor

/-- On each of these chains this transaction has the nonce of the handle, in this block. It is one
the handle has broadcast, and no other one of those has a receipt. -/
structure Mined (cs : Chain → Prop) (g : TxHandle) (t : Inclusion) (bh : B256) : Prop where
  own : t.hash ∈ g.broadcasts
  holder : ∀ x, cs x → x.holder g.account g.nonce = some t
  block : ∀ x, cs x → x.hashes t.block = bh
  only : ∀ x, cs x → ∀ y ∈ g.broadcasts, y ≠ t.hash → x.receipt y = none

/-- On each of these chains the nonce of the handle is consumed, and nothing it has broadcast has
a receipt. -/
structure Displaced (cs : Chain → Prop) (g : TxHandle) : Prop where
  consumed : ∀ x, cs x → g.nonce < x.count g.account
  unmined : ∀ x, cs x → ∀ y ∈ g.broadcasts, x.receipt y = none

theorem Chain.receipt_of_mem {x : Chain} {t : Inclusion} (ht : t ∈ x.txs) :
    x.receipt t.hash = some ⟨some t.block, some (x.hashes t.block), t.succeeded, t.logs⟩ := by
  obtain ⟨t', hfind⟩ := Option.isSome_iff_exists.mp
    (List.find?_isSome.mpr ⟨t, ht, by simp⟩ : (x.txs.find? (·.hash = t.hash)).isSome)
  obtain rfl : t' = t := List.inj_on_of_nodup_map x.distinct (List.mem_of_find?_eq_some hfind) ht
    (by simpa using List.find?_some hfind)
  simp [Chain.receipt, hfind]

variable [Alloy] {cs : Chain → Prop} {g : TxHandle} {t : Inclusion} {bh : B256}

theorem Mined.shows (h : Mined cs g t bh) : Shows cs g (.mined t.block bh
    (outcomeOf ⟨some t.block, some bh, t.succeeded, t.logs⟩ g)) where
  consumed x hx := Chain.exists_holder_iff.mp ⟨t, h.holder x hx⟩
  scanned c l mined w _ hw := by
    have hmem : ∀ x, cs x → t ∈ x.txs := fun x hx =>
      (Chain.holder_eq_some.mp (h.holder x hx)).1
    refine scan_mined hw g mined (List.mem_reverse.mpr h.own) (fun x hx => ?_) (fun x hx => ?_)
      fun x hx y hy => h.only x hx y (List.mem_reverse.mp hy)
    · rw [Chain.receipt_of_mem (hmem x hx), h.block x hx]
    · rw [Chain.blockHash, if_pos (x.bounded t (hmem x hx)), h.block x hx]

theorem Displaced.shows (h : Displaced cs g) : Shows cs g .replaced where
  consumed := h.consumed
  scanned c l mined w hlt hw := by
    have hno : ∀ x, cs x → ∀ y ∈ g.broadcasts.reverse, x.receipt y = none :=
      fun x hx y hy => h.unmined x hx y (List.mem_reverse.mp hy)
    have hscan := scan_unmined hw g mined hno
    rwa [if_pos hlt] at hscan

omit [Alloy] in
/-- A final receipt settles the handle by its outcome. -/
theorem advance_mined {cycle : Cycle} {b : Nat} {o : Outcome} (hlive : g.status.isTerminal = false)
    (hf : isFinal b cycle.view cycle.finality) :
    Round.advance g ⟨g.cancelled, .mined b bh o, cycle⟩ = { g with status := o.settled b } := by
  have hne : o.settled b ≠ .replaced := by cases o <;> simp [Outcome.settled]
  simp [Round.advance, transition_mined hlive hf, settleStatus, hne]

/-- The status of a handle whose displacement is final. -/
def displacedStatus (g : TxHandle) : TxStatus := if g.cancelled then .dropped else .replaced

omit [Alloy] in
/-- A clock that has run settles the handle. -/
theorem advance_waited {cycle : Cycle} {s : Nat} (hs : g.status = .replacing s)
    (hf : isFinal s cycle.view cycle.finality) :
    Round.advance g ⟨g.cancelled, .replaced, cycle⟩ = { g with status := displacedStatus g } := by
  have hnext : transition g.status .replaced cycle.view cycle.finality = some .replaced := by
    rw [hs, transition_replaced rfl]
    simp [hf]
  simp [Round.advance, hnext, settleStatus, displacedStatus]

omit [Alloy] in
/-- A consumed nonce settles the handle, or leaves it with a clock that runs from a head no later
than this one. -/
theorem advance_displaced_cases (cycle : Cycle) {l : Nat} (hlive : g.status.isTerminal = false)
    (hclock : ∀ s, g.status = .replacing s → s ≤ l) (hlatest : cycle.view.latest ≤ l) :
    Round.advance g ⟨g.cancelled, .replaced, cycle⟩ = { g with status := displacedStatus g } ∨
      ∃ s ≤ l, Round.advance g ⟨g.cancelled, .replaced, cycle⟩ =
        { g with status := .replacing s } := by
  by_cases hwaits : ∃ s, g.status = .replacing s
  · obtain ⟨s, hs⟩ := hwaits
    by_cases hf : isFinal s cycle.view cycle.finality
    · exact .inl (advance_waited hs hf)
    · refine .inr ⟨s, hclock s hs, ?_⟩
      have hnext : transition g.status .replaced cycle.view cycle.finality = none := by
        rw [hs, transition_replaced rfl]
        simp [hf]
      simp [Round.advance, hnext, ← hs]
  · refine .inr ⟨cycle.view.latest, hlatest, ?_⟩
    have hnext : transition g.status .replaced cycle.view cycle.finality =
        some (.replacing cycle.view.latest) := by
      cases hs : g.status with
      | replacing s => exact absurd ⟨s, hs⟩ hwaits
      | pending | sent | mined => rw [transition_replaced rfl]
      | confirmed | failed | replaced | dropped => rw [hs] at hlive; cases hlive
    simp [Round.advance, hnext, settleStatus]

end Outcomes

section Law

variable [Alloy] {H : Nat} {p : CallPool} {g : TxHandle} {e e' : AccountExecutor}

/-- No head above `H` is reported. -/
def headsUpTo (H : Nat) : PortEvent → Bool
  | ⟨.blockNumber, r⟩ => (r : Except RpcError Nat).toOption.all (· ≤ H)
  | _ => true

/-- Calls in any interleaving, any of which may fail or be cut off, while no head above `H` is
reported. -/
abbrev headedCalls (H : Nat) : System ports World Call CallResult :=
  Call.client.system fun _ _ e => headsUpTo H e

theorem head_le (h : (headedCalls H).Reaches Client.start p) {th : CallThread}
    (hth : th ∈ p.threads) {n : Nat} (hread : ev .blockNumber (.ok n) ∈ th.past) : n ≤ H := by
  have hanswered := h.answered (K := fun _ e => headsUpTo H e) (fun _ ha => ha.2) rfl th hth _ hread
  exact of_decide_eq_true hanswered

/-- No executor remembers a head above `H`. -/
theorem lastLatest_le (h : (headedCalls H).Reaches Client.start p) (x : ExecutorId) :
    p.world.lastLatest x ≤ H := by
  induction h with
  | refl => exact Nat.zero_le _
  | @tail q q' hreach hs ih =>
    cases hs with
    | spawn c _ => exact ih
    | @move i th o k y r hi hprog ha =>
      by_cases ho : ∃ z n, o = .lastLatestStore z n
      · obtain ⟨z, n, rfl⟩ := ho
        have hth := List.mem_of_getElem? hi
        obtain ⟨role, -, e, -, -, hread⟩ :=
          (Client.system_runs _ _).owes Client.fresh_start hreach hth hprog
        by_cases hx : x = z
        · subst hx
          simpa [headedCalls, Client.system, World.apply, World.lastLatestAfter] using
            head_le hreach hth hread
        · simpa [headedCalls, Client.system, World.apply, World.lastLatestAfter, hx] using ih
      · have hquiet := World.lastLatest_apply (w := q.world) (r := r)
          fun z n hz => ho ⟨z, n, hz⟩
        simpa [headedCalls, Client.system, hquiet] using ih

/-- No clock runs from a head above `H`. -/
theorem clock_le (h : (headedCalls H).Reaches Client.start p)
    (hg : p.world.store.handle g.id = some g) {s : Nat} (hs : g.status = .replacing s) : s ≤ H := by
  refine ((Client.system_runs _ _).handles_in (P := fun _ g => ∀ s, g.status = .replacing s → s ≤ H)
    Client.fresh_start (fun _ hg => hg) ?_ h).1 g hg s hs
  intro p i th x h' site k role hreach hth hprog ha hrole howes hknown s hs
  rcases howes.replacing hs with ⟨g, hb, hclock⟩ | ⟨e, g, mined, -, -, hread, -⟩
  · exact hknown g (howes.known hb) s hclock
  · obtain ⟨before, after, hpast⟩ := hread
    exact head_le hreach hth (by simp [hpast])

theorem holds_of_reaches (h : (headedCalls H).Reaches Client.start p)
    (hg : p.world.store.handle g.id = some g) : Holds g 0 H p.world :=
  ⟨hg, by simp, lastLatest_le h⟩

/-- Whatever has happened before, a handle that is still live settles: by its outcome in the first
tick that finds it mined deep enough, and as displaced in the second of two ticks that find its
nonce consumed and nothing of it mined, when the head of the first is final in the second. -/
theorem settles_after_faults (h : (headedCalls H).Reaches Client.start p)
    (hg : p.world.store.handle g.id = some g) (hlive : g.status.isTerminal = false)
    (he : e.Observed) (ha : e.account = g.account) (he' : e'.Observed)
    (ha' : e'.account = g.account) :
    (∀ cs t bh, AccountExecutor.Views cs H → Mined cs g t bh → e.Final cs t.block →
      e.tick.run.wp (World.truthful cs) (fun _ w => w.store.handle g.id = some { g with
        status := (outcomeOf ⟨some t.block, some bh, t.succeeded, t.logs⟩ g).settled t.block })
        p.world) ∧
    ∀ cs cs' l, AccountExecutor.Views cs H → (∀ x, cs x → x.head ≤ l) → Displaced cs g →
      AccountExecutor.Views cs' l → Displaced cs' g → e'.Final cs' l →
      e.tick.run.wp (World.truthful cs) (fun _ v =>
        e'.tick.run.wp (World.truthful cs') (fun _ w => w.store.handle g.id = some { g with
          status := if g.cancelled then .dropped else .replaced }) v) p.world := by
  have hruns := Client.system_runs Call.client fun _ _ e => headsUpTo H e
  have haccount : g.intent.account = g.account :=
    ((hruns.coherent Client.fresh_start h).1 g hg).account.symm
  have hne : g.broadcasts ≠ [] := (Call.broadcasts_ne_nil hruns Client.fresh_start h).1 g hg
  have hholds : Holds g 0 H p.world := holds_of_reaches h hg
  constructor
  · intro cs t bh hviews hmined hfinal
    refine Prog.wp_mono (AccountExecutor.tick_alone he ha hviews hmined.shows (by simp) (by simp)
      haccount hne hholds) ?_
    rintro _ w ⟨x, y, z, hx, hy, hz, hw⟩
    rw [advance_mined hlive (hfinal x y z hx hy hz)] at hw
    exact hw.stored
  · intro cs cs' l hviews hl hdisplaced hviews' hdisplaced' hfinal
    refine Prog.wp_mono (AccountExecutor.tick_alone he ha hviews hdisplaced.shows (by simp)
      (by simp) haccount hne hholds) ?_
    rintro _ v ⟨x, y, z, hx, hy, hz, hv⟩
    have hH : H ≤ l := (hviews.heads x hx).trans (hl x hx)
    -- the second tick, from whatever status the first one has left
    have second : ∀ s, Holds { g with status := s } 0 l v →
        (∀ cycle, isFinal l cycle.view cycle.finality →
          Round.advance { g with status := s } ⟨g.cancelled, .replaced, cycle⟩ =
            { g with status := displacedStatus g }) →
        e'.tick.run.wp (World.truthful cs') (fun _ w => w.store.handle g.id =
          some { g with status := displacedStatus g }) v := by
      intro s hv hsettles
      refine Prog.wp_mono (AccountExecutor.tick_alone he' ha' hviews'
        (g := { g with status := s }) (Displaced.shows ⟨hdisplaced'.consumed, hdisplaced'.unmined⟩)
        (by simp) (by simp) haccount hne hv) ?_
      rintro _ w ⟨x, y, z, hx, hy, hz, hw⟩
      rw [hsettles _ (hfinal x y z hx hy hz)] at hw
      exact hw.stored
    have hweak := hv.weaken (hl x hx)
    rcases advance_displaced_cases (e.cycleOn x y z) hlive
      (fun s hs => (clock_le h hg hs).trans hH) (hl x hx) with hs | ⟨s, hsl, hs⟩
    · rw [hs] at hweak
      refine second _ hweak fun cycle _ => AccountExecutor.advance_of_terminal ?_ _ cycle
      cases hc : g.cancelled <;> simp [displacedStatus, hc, TxStatus.isTerminal]
    · rw [hs] at hweak
      exact second _ hweak fun cycle hf => advance_waited rfl (isFinal_mono hsl hf)

end Law

section ProgressRuns

attribute [local instance] Toy.alloy

/-- A send whose broadcast is taken, and whose record of that is not written. -/
def strandedSend : CallPool :=
  System.played (S := headedCalls 10) Client.start
    [.spawn (.send Toy.manager Toy.intent .default none), .moves 0 40 () fun w => fun
      | .putHandle _ (.sent _) => some (.error (.backend "down"))
      | o => World.serve Toy.calm w o]

/-- At head 13, with the transaction of the send in block 11. -/
def Toy.sentMined : Chain := Toy.mining Toy.sentBody.hash Toy.sentBody_unmined 13 Toy.le_thirteen

theorem settles_after_faults_stranded : ∃ g, strandedSend.world.store.handle g.id = some g ∧
    g.status = .pending ∧ Toy.executor.tick.run.wp (World.truthful (· = Toy.sentMined))
      (fun _ w => w.store.handle g.id = some { g with status := .confirmed 11 })
      strandedSend.world := by
  have hreach : (headedCalls 10).Reaches Client.start strandedSend := System.reaches_played _ _
  have hhas : strandedSend.world.store.has fun g =>
      g.status = .pending && g.account = Toy.account &&
      g.nonce = 4 && g.broadcasts = [Toy.sentBody.hash] && g.meta.isNone := by decide +kernel
  obtain ⟨g, hg, hkind⟩ := Store.exists_of_has hhas
  simp only [Bool.and_eq_true, decide_eq_true_eq, Option.isNone_iff_eq_none] at hkind
  obtain ⟨⟨⟨⟨hs, haccount⟩, hnonce⟩, hbroadcasts⟩, hmeta⟩ := hkind
  refine ⟨g, hg, hs, ?_⟩
  have hmined :
      Mined (· = Toy.sentMined) g ⟨Toy.account, 4, Toy.sentBody.hash, 11, true, []⟩ 1 := by
    refine ⟨by simp [hbroadcasts], ?_, ?_, ?_⟩
    · rintro x rfl
      rw [haccount, hnonce]
      decide +kernel
    · rintro x rfl
      rfl
    · rintro x rfl y hy hne
      exact absurd (by simpa [hbroadcasts] using hy) hne
  have hviews : AccountExecutor.Views (· = Toy.sentMined) 10 := by
    refine ⟨?_, ?_⟩
    · rintro x rfl
      decide
    · rintro x y rfl rfl
      decide
  have hobserved : Toy.executor.Observed := ⟨by decide, by rintro m ⟨⟩⟩
  have hfinal : Toy.executor.Final (· = Toy.sentMined) 11 := by
    rintro x y z rfl rfl rfl
    decide
  have hsettled := (settles_after_faults hreach hg (by rw [hs]; rfl) hobserved haccount.symm
    hobserved haccount.symm).1 _ _ _ hviews hmined hfinal
  simpa [outcomeOf, hmeta, Outcome.settled] using hsettled

end ProgressRuns

end WalletKit
