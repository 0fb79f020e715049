import WalletKit.Provenance.Manager

/-!
# The history of a tick

What `recover`, `confirm` and `escalate` have read before they broadcast or write. The
loops run over one reply of `pending_handles`; their invariants say that this reply, and
for `confirm` the reads of the cycle, are in the past. A refill in between is a send of its
own and reads none of that again.
-/
namespace WalletKit

open Machine Signing

variable [Alloy]

namespace AccountExecutor

variable {e : AccountExecutor} {h : List PortEvent}

/-- The calls a loop over pending handles makes while it works on one of `done`. -/
def LoopOp (done : List TxHandle) : Op → Prop
  | .receipt _ | .blockHash _ | .poll _ | .txCount _ | .gasBump _ | .evaluate _ _
  | .signTransaction _ _ _ _ _ | .submit _ _ (.bump _) | .approvalsGet _ _
  | .approvalsInsert _ _ _ | .approvalsRemove _ _ => True
  | .putHandle g (.advance _) | .putHandle g (.poll _) | .putHandle g (.bump _) =>
    ∃ d ∈ done, d.id = g.id
  | _ => False

namespace LoopOp

variable {done : List TxHandle} {x : PortEvent}

omit [Alloy] in
theorem quiet (hx : LoopOp done x.op) : Quiet x := by
  obtain ⟨o, r⟩ := x
  cases o with
  | submit rlp opts site => cases site <;> first | exact fun _ => rfl | cases hx
  | putHandle g site => cases site <;> first | exact fun _ => rfl | cases hx
  | casNonceState => cases hx
  | _ => exact fun _ => rfl

omit [Alloy] in
theorem spares (hx : LoopOp done x.op) : Spares done x := by
  intro g site hop
  rw [hop] at hx
  cases site with
  | advance | poll | bump => exact .inr hx
  | _ => cases hx

omit [Alloy] in
theorem not_blockNumber (hx : LoopOp done x.op) : x.op ≠ .blockNumber := by
  intro hop
  rw [hop] at hx
  exact hx

end LoopOp

section Recover

theorem recover_history (hdone : Done h) :
    e.recover.run.wp (.history (Owes (.executor e))) (fun _ => Done) h := by
  unfold recover
  simp only [Prog.wp_run_bind, Prog.wp_run_lift, Prog.wp_run_orThrow,
    StateStore.wp_pendingHandles, asks_history, Prog.forall_except, Except.mapError]
  refine ⟨hdone.2, fun _ => hdone.snoc fun _ => rfl, fun hs => ?_⟩
  refine Prog.wp_forM (fun _ past => Done past ∧
      ∃ after, past = h ++ ev (.pendingHandles e.account) (.ok hs) :: after ∧
        ∀ x ∈ after, ∃ rlp opts site, x.op = .submit rlp opts site)
    ⟨hdone.snoc fun _ => rfl, [], rfl, by simp⟩ (fun _ hv => hv.1) ?_
  rintro handle rest past ⟨done, hlist⟩ hinv
  have hmem : handle ∈ hs := by simp [← hlist]
  unfold recoverHandle
  split
  case h_3 => exact hinv
  all_goals
    split
    · exact hinv
    · rename_i hstatus hsigned
      obtain ⟨hd, after, hpast, hafter⟩ := hinv
      simp only [Prog.wp_bind, Prog.wp_pure, Submission.wp_submit, asks_history]
      refine ⟨⟨e, rfl, rfl, rfl, by simp [hstatus], by simpa using hsigned, h, hs, after,
        hpast, hmem, hafter⟩, fun r =>
        ⟨hd.snoc fun _ => rfl, after ++ [ev _ r], by simp [hpast], fun x hx => ?_⟩⟩
      rcases List.mem_append.mp hx with hx | hx
      · exact hafter x hx
      · rw [List.mem_singleton.mp hx]
        exact ⟨_, _, _, rfl⟩

end Recover

section Confirm

theorem readCycle_history (hdone : Done h) :
    e.readCycle.run.wp (.history (Owes (.executor e))) (fun r past => Done past ∧
      ∀ cycle, r = .ok (some cycle) → InCycle past e cycle) h := by
  unfold readCycle
  simp only [Prog.wp_run_bind, Prog.wp_run_lift, Prog.wp_run_orThrow, Rpc.wp_blockNumber,
    Rpc.wp_txCount, ExecutorMemory.wp_lastLatest, asks_history, Prog.forall_except,
    Except.mapError]
  have hd₁ : ∀ r, Done (h ++ [ev .blockNumber r]) := fun r => hdone.snoc fun _ => rfl
  have hd₂ : ∀ r r', Done (h ++ [ev .blockNumber r] ++ [ev (.txCount e.account) r']) :=
    fun r r' => (hd₁ r).snoc fun _ => rfl
  refine ⟨trivial, fun _ => ⟨hd₁ _, by simp⟩, fun latest => ⟨trivial, fun _ => ⟨hd₂ _ _, by simp⟩,
    fun mined => ⟨trivial, fun last => ?_⟩⟩⟩
  have hd₃ := (hd₂ (.ok latest) (.ok mined)).snoc (e := ev (.lastLatestLoad e.id) last)
    fun _ => rfl
  split
  · exact ⟨hd₃, by simp⟩
  rename_i hlast
  simp only [Prog.wp_run_bind, Prog.wp_run_orThrow, Rpc.wp_finalizedBlock, asks_history,
    Prog.forall_except, Except.mapError]
  refine ⟨trivial, fun _ => ⟨hd₃.snoc fun _ => rfl, by simp⟩, fun tag => ?_⟩
  have hd₄ := hd₃.snoc (e := ev .finalizedBlock (.ok tag)) fun _ => rfl
  split
  · exact ⟨hd₄, by simp⟩
  rename_i hfinal
  simp only [Prog.wp_run_bind, Prog.wp_run_lift, Prog.wp_run_pure, ExecutorMemory.wp_storeLatest,
    asks_history]
  refine ⟨⟨e, rfl, rfl, by simp⟩, fun _ => ⟨hd₄.snoc fun _ => rfl, ?_⟩⟩
  rintro cycle ⟨rfl⟩
  exact ⟨h, last, tag, [], by simp [cycleReads], by simp, rfl, rfl, not_lt.mp hlast,
    not_lt.mp hfinal⟩

/-- The calls of a scan. -/
def ScanOp : Op → Prop
  | .receipt _ | .blockHash _ => True
  | _ => False

/-- What a scan of the older broadcasts adds to the reads of the newer ones. -/
theorem scan_history {role : Role} {handle : TxHandle} {mined : Nat} (hashes : List TxHash)
    (newer : List TxHash) (hall : handle.broadcasts.reverse = newer ++ hashes) :
    (scan handle mined hashes).wp (.history (Owes role)) (fun event past =>
      ∃ reads, past = h ++ reads ∧ (∀ x ∈ reads, ScanOp x.op) ∧
        (event = .unknown ∨ Scanned handle mined reads event)) (h ++ noReceipts newer) := by
  have hquiet : ∀ xs, ∀ x ∈ noReceipts xs, ScanOp x.op := by
    intro xs x hx
    obtain ⟨y, -, rfl⟩ := List.mem_map.mp hx
    trivial
  have quiet_append : ∀ {xs t}, (∀ x ∈ t, ScanOp x.op) → ∀ x ∈ noReceipts xs ++ t, ScanOp x.op :=
    fun ht x hx => (List.mem_append.mp hx).elim (hquiet _ x) (ht x)
  induction hashes generalizing newer with
  | nil =>
    rw [List.append_nil] at hall
    refine ⟨noReceipts newer, rfl, hquiet newer, .inr ?_⟩
    rw [← hall]
    split
    · exact .consumed ‹_›
    · exact .open (not_lt.mp ‹_›)
  | cons x older ih =>
    unfold scan
    simp only [Prog.wp_bind, Rpc.wp_receipt, asks_history, Prog.forall_except]
    refine ⟨trivial, fun err => ⟨noReceipts newer ++ [ev (.receipt x) (.error err)], by simp,
      quiet_append (by simp [ScanOp, ev]), .inl rfl⟩, fun found => ?_⟩
    cases found with
    | none =>
      have := ih (newer ++ [x]) (by simp [hall])
      simpa [noReceipts] using this
    | some rc =>
      dsimp only
      have unknown : ∀ t, (∀ y ∈ t, ScanOp y.op) → ∃ reads,
          h ++ noReceipts newer ++ [ev (.receipt x) (.ok (some rc))] ++ t = h ++ reads ∧
            (∀ y ∈ reads, ScanOp y.op) ∧ (ChainEvent.unknown = .unknown ∨
              Scanned handle mined reads .unknown) := fun t ht =>
        ⟨noReceipts newer ++ ([ev (.receipt x) (.ok (some rc))] ++ t), by simp,
          quiet_append (by simpa [ScanOp, ev] using ht), .inl rfl⟩
      unfold anchor
      split
      · rename_i b bh hb hbh
        simp only [Prog.wp_bind, Rpc.wp_blockHash, asks_history, Prog.forall_except]
        refine ⟨trivial, fun err => unknown [_] (by simp [ScanOp, ev]), fun canonical => ?_⟩
        cases canonical with
        | none => exact unknown [_] (by simp [ScanOp, ev])
        | some c =>
          dsimp only
          split
          · rename_i hc
            subst hc
            refine ⟨_, by simp; rfl, quiet_append (by simp [ScanOp, ev]), .inr ?_⟩
            have hsplit : handle.broadcasts = older.reverse ++ x :: newer.reverse := by
              have := congrArg List.reverse hall
              simpa using this
            have hread : Scanned handle mined _ _ := .anchored hsplit hb hbh
            simpa using hread
          · exact unknown [_] (by simp [ScanOp, ev])
      · simpa using unknown [] (by simp)

/-- What a confirm cycle knows when it is finished with `done`. -/
def Confirming (e : AccountExecutor) (cycle : Cycle) (hs done : List TxHandle)
    (past : List PortEvent) : Prop :=
  Done past ∧ InCycle past e cycle ∧ Reading past e.account hs done

variable {cycle : Cycle} {hs done rest : List TxHandle}

omit [Alloy] in
theorem Confirming.append {t : List PortEvent} (hc : Confirming e cycle hs done h)
    (hd : Done (h ++ t)) (ht : ∀ x ∈ t, x.op ≠ .blockNumber ∧ Spares done x) :
    Confirming e cycle hs done (h ++ t) :=
  ⟨hd, hc.2.1.append fun x hx => (ht x hx).1, hc.2.2.append fun x hx => (ht x hx).2⟩

omit [Alloy] in
theorem Confirming.snoc {x : PortEvent} (hc : Confirming e cycle hs done h)
    (hx : LoopOp done x.op) : Confirming e cycle hs done (h ++ [x]) :=
  hc.append (hc.1.snoc hx.quiet) (by simpa using ⟨hx.not_blockNumber, hx.spares⟩)

omit [Alloy] in
theorem Confirming.finish (hc : Confirming e cycle hs done h) (handle : TxHandle) :
    Confirming e cycle hs (done ++ [handle]) h :=
  ⟨hc.1, hc.2.1, hc.2.2.mono fun _ hd => List.mem_append_left _ hd⟩

theorem refillIntent_history {manager : TransactionManager} (hrefill : e.refill = some manager)
    (handle : TxHandle) (hc : Confirming e cycle hs done h) :
    (refillIntent manager handle).wp (.history (Owes (.executor e)))
      (fun _ => Confirming e cycle hs done) h := by
  unfold refillIntent TransactionManager.send
  refine Prog.wp_bind.mpr (Prog.wp_mono (Prog.wp_history_frame
    (TransactionManager.sendWithMeta_history hrefill hc.1)
    (TransactionManager.sendWithMeta_ops ..)) ?_)
  rintro r past ⟨hd, t, rfl, ht⟩
  refine hc.append hd fun x hx => ⟨fun hop => ?_, fun g site hop => .inl ?_⟩
  all_goals
    have := ht x hx
    rw [hop] at this
    exact this

theorem onSettled_history (handle : TxHandle) (hc : Confirming e cycle hs done h) :
    (e.onSettled handle).wp (.history (Owes (.executor e)))
      (fun _ => Confirming e cycle hs done) h := by
  unfold onSettled
  simp only [Prog.wp_bind, ExecutorMemory.wp_removeApproval, asks_history]
  refine ⟨trivial, fun _ => ?_⟩
  have hc₁ := hc.snoc (x := ev (.approvalsRemove e.id handle.id) ()) trivial
  cases hr : e.refill with
  | none => exact hc₁
  | some manager =>
    dsimp only
    split
    · exact refillIntent_history hr handle hc₁
    · exact hc₁

theorem advanceOnChain_history {handle : TxHandle} (hlist : hs = done ++ handle :: rest)
    (hrelay : isAwaitingRelay handle = false) (hc : Confirming e cycle hs done h) :
    (e.advanceOnChain cycle handle).wp (.history (Owes (.executor e)))
      (fun _ => Confirming e cycle hs (done ++ [handle])) h := by
  unfold advanceOnChain eventFor
  have hscan : (scan handle cycle.minedNonce handle.broadcasts.reverse).wp
      (.history (Owes (.executor e))) _ (h ++ noReceipts []) :=
    scan_history handle.broadcasts.reverse [] rfl
  rw [show noReceipts [] = [] from rfl, List.append_nil] at hscan
  refine Prog.wp_bind.mpr (Prog.wp_mono hscan ?_)
  rintro event _ ⟨reads, rfl, hreads, hevent⟩
  have hloop : ∀ x ∈ reads, LoopOp (done ++ [handle]) x.op := by
    rintro ⟨o, r⟩ hx
    have hop := hreads _ hx
    cases o with
    | receipt | blockHash => trivial
    | _ => cases hop
  have hc₁ : Confirming e cycle hs (done ++ [handle]) (h ++ reads) := by
    clear hscan hreads hevent
    induction reads using List.reverseRecOn with
    | nil => simpa using hc.finish handle
    | append_singleton t x ih =>
      rw [← List.append_assoc]
      exact (ih fun y hy => hloop y (by simp [hy])).snoc (hloop x (by simp))
  split
  · exact hc₁
  · rename_i next hnext
    simp only [Prog.wp_bind, StateStore.wp_putHandle, asks_history, Prog.forall_except]
    have hscanned : Scanned handle cycle.minedNonce reads event := by
      rcases hevent with rfl | hevent
      · simp [transition] at hnext
      · exact hevent
    have hc₂ : ∀ r, Confirming e cycle hs (done ++ [handle]) (h ++ reads ++ [ev (.putHandle
        { handle with status := settleStatus handle next } (.advance handle)) r]) := fun r =>
      hc₁.snoc ⟨handle, by simp, rfl⟩
    refine ⟨⟨e, rfl, h, reads, cycle, event, next, rfl, hc.2.1, ⟨hs, done, rest, hlist, hc.2.2⟩,
      hrelay, hscanned, hnext, rfl⟩, fun _ => hc₂ _, fun _ => ?_⟩
    split
    · exact onSettled_history _ (hc₂ _)
    · exact hc₂ _

theorem pollTask_history {handle : TxHandle} (hlist : hs = done ++ handle :: rest)
    (hrelay : isAwaitingRelay handle) (hc : Confirming e cycle hs done h) :
    (e.pollTask handle).wp (.history (Owes (.executor e)))
      (fun _ => Confirming e cycle hs (done ++ [handle])) h := by
  unfold pollTask
  split
  · rename_i task _ _
    simp only [Prog.wp_bind, Relay.wp_poll, asks_history, Prog.forall_except]
    have hc₁ : ∀ r, Confirming e cycle hs done (h ++ [ev (.poll task) r]) := fun r =>
      hc.snoc trivial
    refine ⟨trivial, fun _ => (hc₁ _).finish handle, fun status => ?_⟩
    have hpending : Pending (h ++ [ev (.poll task) (.ok status)]) e.account handle :=
      ⟨hs, done, rest, hlist, (hc₁ _).2.2⟩
    have hc₂ : ∀ g r, g.id = handle.id → Confirming e cycle hs (done ++ [handle])
        (h ++ [ev (.poll task) (.ok status)] ++ [ev (.putHandle g (.poll handle)) r]) :=
      fun g r hg => ((hc₁ _).finish handle).snoc ⟨handle, by simp, hg.symm⟩
    cases status with
    | pending => exact (hc₁ _).finish handle
    | included hash =>
      simp only [Prog.wp_bind, Prog.wp_pure, StateStore.wp_putHandle, asks_history]
      exact ⟨⟨e, rfl, hpending, hrelay, .inl ⟨hash, rfl⟩⟩, fun _ => hc₂ _ _ rfl⟩
    | failed reason =>
      simp only [Prog.wp_bind, StateStore.wp_putHandle, asks_history, Prog.forall_except]
      exact ⟨⟨e, rfl, hpending, hrelay, .inr ⟨reason, rfl⟩⟩, fun _ => hc₂ _ _ rfl,
        fun _ => onSettled_history _ (hc₂ _ _ rfl)⟩
  · exact hc.finish handle

theorem reset_history (hd : Done h) (hin : InCycle h e cycle) :
    (e.nonceManager.reset e.account cycle.minedNonce).run.wp (.history (Owes (.executor e)))
      (fun _ past => Done past ∧ InCycle past e cycle) h := by
  refine LocalNonceManager.resetLoop_history (P := fun past => Done past ∧ InCycle past e cycle)
    (fun h r hh => ⟨trivial, hh.1.snoc fun _ => rfl, hh.2.append (by simp [ev])⟩)
    (fun h v s hh hfrom => ⟨⟨hfrom, hh.1, e, rfl, rfl, ?_⟩, fun r hr =>
      ⟨hh.1.snoc (quiet_cas hr), hh.2.append (by simp [ev])⟩, hh.1.snoc fun _ => rfl,
      hh.2.append (by simp [ev])⟩)
    (fun h e hh => hh) e.nonceManager.attempts ⟨hd, hin⟩
  obtain ⟨before, last, tag, after, hpast, -⟩ := hh.2
  simp [hpast, cycleReads]

theorem confirm_history (hdone : Done h) :
    e.confirm.run.wp (.history (Owes (.executor e))) (fun _ => Done) h := by
  unfold confirm
  refine Prog.wp_run_bind.mpr (Prog.wp_mono (readCycle_history hdone) ?_)
  rintro (err | _ | cycle) past ⟨hd, hcycle⟩
  · exact hd
  · exact hd
  simp only [Prog.wp_run_bind, Prog.wp_run_lift, Prog.wp_run_orThrow]
  refine Prog.wp_mono (reset_history hd (hcycle cycle rfl)) ?_
  rintro (err | _) past ⟨hd, hin⟩
  · exact hd
  simp only [Except.mapError, StateStore.wp_pendingHandles, asks_history, Prog.forall_except]
  have hd₁ : ∀ r, Done (past ++ [ev (.pendingHandles e.account) r]) := fun r =>
    hd.snoc fun _ => rfl
  refine ⟨hd.2, fun _ => hd₁ _, fun hs => ?_⟩
  refine Prog.wp_forM (fun rest past => ∃ done, hs = done ++ rest ∧
      Confirming e cycle hs done past)
    ⟨[], rfl, hd₁ _, hin.append (by simp [ev]), past, [], rfl, by simp⟩ ?_ ?_
  · rintro past ⟨done, -, hc⟩
    exact hc.1
  rintro handle rest past - ⟨done, hlist, hc⟩
  suffices hstep : (e.advanceHandle cycle handle).wp (.history (Owes (.executor e)))
      (fun _ => Confirming e cycle hs (done ++ [handle])) past from
    Prog.wp_mono hstep fun _ _ hv => ⟨done ++ [handle], by simp [hlist], hv⟩
  unfold advanceHandle
  split
  · exact pollTask_history hlist ‹_› hc
  · exact advanceOnChain_history hlist (Bool.eq_false_iff.mpr ‹_›) hc

end Confirm

section Escalate

variable {now : Nat} {hs done rest : List TxHandle} {handle : TxHandle}

/-- What `escalate` knows when it is finished with `done`. -/
def Escalating (e : AccountExecutor) (now : Nat) (hs done : List TxHandle)
    (past : List PortEvent) : Prop :=
  Done past ∧ ev .nowUnix now ∈ past ∧ Reading past e.account hs done

omit [Alloy] in
theorem Escalating.snoc {x : PortEvent} (hc : Escalating e now hs done h)
    (hx : LoopOp done x.op) : Escalating e now hs done (h ++ [x]) :=
  ⟨hc.1.snoc hx.quiet, List.mem_append_left _ hc.2.1, hc.2.2.append (by simpa using hx.spares)⟩

omit [Alloy] in
theorem Escalating.finish (hc : Escalating e now hs done h) (handle : TxHandle) :
    Escalating e now hs (done ++ [handle]) h :=
  ⟨hc.1, hc.2.1, hc.2.2.mono fun _ hd => List.mem_append_left _ hd⟩

theorem recordBump_history {signed : SignedTx} {approval : PolicyApproval} {routed : TxHandle}
    (hlist : hs = done ++ handle :: rest) (hc : Escalating e now hs done h)
    (hrouted : routed = { handle with submission := ⟨bumpRoute handle⟩ })
    (hhash : signed.hash = keccak256 signed.rlp)
    (hsigned : ∀ t, BumpSigned (h ++ t) e handle approval now signed.rlp) :
    (e.recordBump routed handle signed approval now).run.wp (.history (Owes (.executor e)))
      (fun _ => Escalating e now hs (done ++ [handle])) h := by
  unfold recordBump
  simp only [Prog.wp_run_bind, Prog.wp_run_lift, Prog.wp_run_orThrow, StateStore.wp_putHandle,
    ExecutorMemory.wp_insertApproval, asks_history, Prog.forall_except, Except.mapError]
  have hc₁ : ∀ g r, g.id = handle.id → Escalating e now hs (done ++ [handle])
      (h ++ [ev (.putHandle g (.bump handle)) r]) := fun g r hg =>
    (hc.finish handle).snoc ⟨handle, by simp, hg.symm⟩
  exact ⟨⟨e, approval, now, signed.rlp, rfl, by rw [hrouted, hhash], by simpa using hsigned [],
      hs, done, rest, hlist, hc.2.2⟩,
    fun _ => hc₁ _ _ (by rw [hrouted]), fun _ => ⟨⟨e, handle, now, signed.rlp, _, rfl, rfl, rfl,
      hsigned _, List.mem_append_right _ (List.mem_singleton.mpr rfl)⟩,
      fun _ => (hc₁ _ _ (by rw [hrouted])).snoc trivial⟩⟩

theorem bumpApproval_history {fees : Eip1559Estimation} (hc : Escalating e now hs done h) :
    (e.bumpApproval handle fees now).run.wp (.history (Owes (.executor e)))
      (fun r past => Escalating e now hs done past ∧ ∀ approval, r = .ok (some approval) →
        BumpApproved past e handle approval) h := by
  unfold bumpApproval
  simp only [Prog.wp_run_bind, Prog.wp_run_lift, ExecutorMemory.wp_approval, asks_history]
  refine ⟨trivial, fun cached => ?_⟩
  have hc₁ := hc.snoc (x := ev (.approvalsGet e.id handle.id) cached) trivial
  split
  · rename_i approval hfound
    obtain ⟨hcached, -⟩ := Option.filter_eq_some_iff.mp hfound
    refine ⟨hc₁, ?_⟩
    rintro _ ⟨rfl⟩
    exact .inl (by simp [hcached])
  · simp only [Prog.wp_run_bind, Prog.wp_run_orThrow, PolicyEngine.wp_evaluate, asks_history,
      Prog.forall_except, Except.mapError]
    have hc₂ : ∀ r, Escalating e now hs done (h ++ [ev (.approvalsGet e.id handle.id) cached] ++
        [ev (.evaluate e.policy (bumpRequest handle.intent)) r]) := fun r => hc₁.snoc trivial
    refine ⟨trivial, fun _ => ⟨hc₂ _, by simp⟩, fun decision => ?_⟩
    cases decision with
    | deny rejection => exact ⟨hc₂ _, by rintro _ ⟨⟩⟩
    | allow approval =>
      refine ⟨hc₂ _, fun granted hgranted => .inr ?_⟩
      have : granted = approval := by
        simp only [Except.ok.injEq] at hgranted
        split at hgranted
        · exact (Option.some.inj hgranted).symm
        · cases hgranted
      simp [Allowed, this]

theorem submitBump_history {gasLimit : Nat} {fees : Eip1559Estimation}
    {approval : PolicyApproval} (hlist : hs = done ++ handle :: rest)
    (hc : Escalating e now hs done h) (hsent : handle.status = .sent)
    (hfees : handle.envelope.admits fees.maxFeePerGas fees.maxPriorityFeePerGas)
    (happroved : BumpApproved h e handle approval) :
    (e.submitBump handle gasLimit fees approval now).run.wp (.history (Owes (.executor e)))
      (fun _ => Escalating e now hs (done ++ [handle])) h := by
  unfold submitBump signEncode
  simp only [Prog.wp_run_bind, Prog.wp_run_lift, Prog.wp_run_orThrow, Prog.wp_run_pure,
    Signer.wp_signTransaction, Submission.wp_submit, asks_history, Prog.forall_except,
    Except.mapError]
  generalize htx : buildTx handle.intent handle.nonce gasLimit fees = tx
  have hc₁ : ∀ r, Escalating e now hs done
      (h ++ [ev (.signTransaction e.signer tx handle.intentHash approval now) r]) := fun r =>
    hc.snoc trivial
  refine ⟨trivial, fun _ => (hc₁ _).finish handle, fun sig => ?_⟩
  have hseen : SeenPending (h ++ [ev (.signTransaction e.signer tx handle.intentHash approval now)
      (.ok sig)]) e.account handle := Pending.seen ⟨hs, done, rest, hlist, (hc₁ _).2.2⟩
  have hsigned : ∀ t, BumpSigned (h ++
      [ev (.signTransaction e.signer tx handle.intentHash approval now) (.ok sig)] ++ t) e handle
      approval now (SignedTx.of tx sig).rlp := by
    intro t
    subst htx
    obtain ⟨hs', hread, hmem⟩ := hseen
    exact ⟨⟨hs', List.mem_append_left t hread, hmem⟩, hsent,
      happroved.imp (fun hm => by simp [hm]) (fun hm => by simp [Allowed, show _ ∈ h from hm]),
      gasLimit, fees, hfees, List.mem_append_left t (hc₁ _).2.1, sig, by simp, rfl⟩
  have hc₂ : ∀ r, Escalating e now hs done (h ++ [ev (.signTransaction e.signer tx
      handle.intentHash approval now) (.ok sig)] ++ [ev (.submit (SignedTx.of tx sig).rlp
        ⟨bumpRoute handle⟩ (.bump handle)) r]) := fun r => (hc₁ _).snoc trivial
  have record : ∀ r, (e.recordBump { handle with submission := ⟨bumpRoute handle⟩ } handle
      (.of tx sig) approval now).run.wp (.history (Owes (.executor e)))
      (fun _ => Escalating e now hs (done ++ [handle])) (h ++ [ev (.signTransaction e.signer tx
        handle.intentHash approval now) (.ok sig)] ++ [ev (.submit (SignedTx.of tx sig).rlp
          ⟨bumpRoute handle⟩ (.bump handle)) r]) := fun r =>
    recordBump_history hlist (hc₂ r) rfl rfl fun t => by
      rw [List.append_assoc]
      exact hsigned _
  refine ⟨⟨e, approval, now, rfl, rfl, by simpa using hsigned []⟩, fun err => ?_,
    fun x => record (.ok x)⟩
  split
  · exact record (.error err)
  · exact (hc₂ _).finish handle

theorem bump_history (hlist : hs = done ++ handle :: rest) (hc : Escalating e now hs done h)
    (hsent : handle.status = .sent) :
    (e.bump handle now).run.wp (.history (Owes (.executor e)))
      (fun _ => Escalating e now hs (done ++ [handle])) h := by
  unfold bump
  simp only [Prog.wp_run_bind, Prog.wp_run_orThrow, Rpc.wp_txCount, asks_history,
    Prog.forall_except, Except.mapError]
  have hc₁ : ∀ r, Escalating e now hs done (h ++ [ev (.txCount e.account) r]) := fun r =>
    hc.snoc trivial
  refine ⟨trivial, fun _ => (hc₁ _).finish handle, fun mined => ?_⟩
  split
  · exact (hc₁ _).finish handle
  split
  · exact (hc₁ _).finish handle
  rename_i current _
  simp only [Prog.wp_run_bind, Prog.wp_run_lift, GasOracle.wp_bump, asks_history,
    Prog.forall_except]
  have hc₂ : ∀ r, Escalating e now hs done (h ++ [ev (.txCount e.account) (.ok mined)] ++
      [ev (.gasBump current.fees) r]) := fun r => (hc₁ _).snoc trivial
  refine ⟨trivial, fun err => ?_, fun fees => ?_⟩
  · cases err with
    | rpc => exact (hc₂ _).finish handle
    | ceilingExceeded => exact (hc₂ _).finish handle
  split
  · exact (hc₂ _).finish handle
  rename_i hfees
  refine Prog.wp_run_bind.mpr (Prog.wp_mono (bumpApproval_history (hc₂ _)) ?_)
  rintro (err | _ | approval) past ⟨hc₃, happroved⟩
  · exact hc₃.finish handle
  · exact hc₃.finish handle
  · exact submitBump_history hlist hc₃ hsent (by simpa using hfees) (happroved approval rfl)

theorem escalate_history (hdone : Done h) :
    e.escalate.run.wp (.history (Owes (.executor e))) (fun _ => Done) h := by
  unfold escalate
  simp only [Prog.wp_run_bind, Prog.wp_run_lift, Prog.wp_run_orThrow, Clock.wp_nowUnix,
    StateStore.wp_pendingHandles, asks_history, Prog.forall_except, Except.mapError]
  refine ⟨trivial, fun now => ?_⟩
  have hd₁ : Done (h ++ [ev .nowUnix now]) := hdone.snoc fun _ => rfl
  have hd₂ : ∀ r, Done (h ++ [ev .nowUnix now] ++ [ev (.pendingHandles e.account) r]) := fun r =>
    hd₁.snoc fun _ => rfl
  refine ⟨hd₁.2, fun _ => hd₂ _, fun hs => ?_⟩
  refine Prog.wp_forM (fun rest past => ∃ done, hs = done ++ rest ∧ Escalating e now hs done past)
    ⟨[], rfl, hd₂ _, by simp, _, [], rfl, by simp⟩ ?_ ?_
  · rintro past ⟨done, -, hc⟩
    exact hc.1
  rintro handle rest past - ⟨done, hlist, hc⟩
  suffices hstep : (e.escalateHandle now handle).wp (.history (Owes (.executor e)))
      (fun _ => Escalating e now hs (done ++ [handle])) past from
    Prog.wp_mono hstep fun _ _ hv => ⟨done ++ [handle], by simp [hlist], hv⟩
  unfold escalateHandle
  split
  · rename_i hstuck
    exact Prog.wp_bind.mpr (Prog.wp_mono (bump_history hlist hc hstuck.1) fun _ _ hv => hv)
  · exact hc.finish handle

end Escalate

/-- Every tick owes its history to what it writes, swaps and broadcasts. -/
theorem tick_history (hdone : Done h) :
    e.tick.run.wp (.history (Owes (.executor e))) (fun _ => Done) h := by
  unfold tick
  refine Prog.wp_run_bind.mpr (Prog.wp_mono (recover_history hdone) ?_)
  rintro (_ | _) past hd
  · exact hd
  refine Prog.wp_run_bind.mpr (Prog.wp_mono (confirm_history hd) ?_)
  rintro (_ | _) past hd
  · exact hd
  exact escalate_history hd

section Parts

/-- The calls of `recover`. -/
def RecoverOp : Op → Prop
  | .pendingHandles _ | .submit _ _ (.recover _) => True
  | _ => False

omit [Alloy] in
theorem recoverHandle_ops (handle : TxHandle) : (recoverHandle handle).Ops fun o =>
    (handle.status = .pending ∨ handle.status = .sent) ∧
      ∃ rlp opts, o = Op.submit rlp opts (.recover handle) := by
  unfold recoverHandle
  split
  · rename_i hpending
    split
    · trivial
    · exact .bind ⟨⟨.inl hpending, _, _, rfl⟩, fun _ => trivial⟩ fun _ => trivial
  · rename_i hsent
    split
    · trivial
    · exact .bind ⟨⟨.inr hsent, _, _, rfl⟩, fun _ => trivial⟩ fun _ => trivial
  · trivial

omit [Alloy] in
theorem recover_ops : e.recover.run.Ops RecoverOp := by
  refine .tryBind (Prog.ops_orThrow ⟨trivial, fun _ => trivial⟩) fun handles =>
    .bind (.forM _ fun handle _ => (recoverHandle_ops handle).mono ?_) fun _ => trivial
  rintro _ ⟨-, rlp, opts, rfl⟩
  trivial

/-- The calls that read a cycle and accept its head. -/
def CycleOp : Op → Prop
  | .blockNumber | .txCount _ | .lastLatestLoad _ | .finalizedBlock | .lastLatestStore _ _ => True
  | _ => False

omit [Alloy] in
theorem readCycle_ops : e.readCycle.run.Ops CycleOp := by
  refine .tryBind (Prog.ops_orThrow ⟨trivial, fun _ => trivial⟩) fun latest =>
    .tryBind (Prog.ops_orThrow ⟨trivial, fun _ => trivial⟩) fun minedNonce =>
    .tryBind (.bind ⟨trivial, fun _ => trivial⟩ fun _ => trivial) fun lastLatest => ?_
  split
  · trivial
  refine .tryBind (Prog.ops_orThrow ⟨trivial, fun _ => trivial⟩) fun tag => ?_
  by_cases hfinal : latest < tag.getD 0
  · simp only [if_pos hfinal]
    trivial
  · simp only [if_neg hfinal]
    exact .tryBind (.bind ⟨trivial, fun _ => trivial⟩ fun _ => trivial) fun _ => trivial

theorem scan_ops (handle : TxHandle) (mined : Nat) (hashes : List TxHash) :
    (scan handle mined hashes).Ops ScanOp := by
  induction hashes with
  | nil => trivial
  | cons hash older ih =>
    refine .bind ⟨trivial, fun _ => trivial⟩ fun receipt => ?_
    split
    · exact ih
    · unfold anchor
      split
      · refine .bind ⟨trivial, fun _ => trivial⟩ fun canonical => ?_
        split
        · split <;> trivial
        · trivial
      · trivial
    · trivial

/-- What `confirm` does itself for one handle; a refill is a send of its own. -/
def HandleOp : Op → Prop
  | .receipt _ | .blockHash _ | .poll _ | .approvalsRemove _ _ | .putHandle _ (.advance _)
  | .putHandle _ (.poll _) => True
  | _ => False

/-- What `confirm` does itself. -/
def ConfirmOp (o : Op) : Prop :=
  CycleOp o ∨ LocalNonceManager.ResetOp o ∨ (∃ a, o = .pendingHandles a) ∨ HandleOp o

variable {P : (α : Type) → Io α → Prop}

/-- What holds of everything `confirm` does itself for a handle, and of every send, holds of the
whole. -/
theorem advanceHandle_of_parts (hP : Prog.Compositional P)
    (hops : ∀ {α : Type} {x : Io α}, x.Ops HandleOp → P α x)
    (hsend : ∀ m ∈ e.refill, ∀ intent opts context origin,
      P _ (TransactionManager.sendWithMeta m intent opts context origin).run)
    (cycle : Cycle) (handle : TxHandle) : P _ (e.advanceHandle cycle handle) := by
  have settled : ∀ handle, P _ (e.onSettled handle) := fun handle => by
    refine hP.bind (hops ⟨trivial, fun _ => trivial⟩) fun _ => ?_
    split
    · rename_i manager hrefill
      split
      · exact hP.bind (hsend manager hrefill _ _ _ _) fun _ => hP.ret _
      · exact hP.ret _
    · exact hP.ret _
  unfold advanceHandle
  split
  · unfold pollTask
    split
    · refine hP.bind (hops ⟨trivial, fun _ => trivial⟩) fun status => ?_
      split
      · exact hops (.bind ⟨trivial, fun _ => trivial⟩ fun _ => trivial)
      · refine hP.bind (hops ⟨trivial, fun _ => trivial⟩) fun stored => ?_
        split
        · exact settled _
        · exact hP.ret _
      · exact hP.ret _
      · exact hP.ret _
    · exact hP.ret _
  · refine hP.bind (hops ((scan_ops ..).mono fun o ho => ?_)) fun event => ?_
    · cases o with
      | receipt | blockHash => trivial
      | _ => cases ho
    split
    · exact hP.ret _
    · refine hP.bind (hops ⟨trivial, fun _ => trivial⟩) fun stored => ?_
      split
      · split
        · exact settled _
        · exact hP.ret _
      · exact hP.ret _

/-- What holds of everything `confirm` does itself, of its reset, and of every send, holds of the
whole. -/
theorem confirm_of_reset (hP : Prog.Compositional P)
    (hops : ∀ {α : Type} {x : Io α},
      (x.Ops fun o => CycleOp o ∨ o = Op.pendingHandles e.account ∨ HandleOp o) → P α x)
    (hreset : ∀ c, P _ (e.nonceManager.reset e.account c).run)
    (hsend : ∀ m ∈ e.refill, ∀ intent opts context origin,
      P _ (TransactionManager.sendWithMeta m intent opts context origin).run) :
    P _ e.confirm.run := by
  refine hP.tryBind (hops (readCycle_ops.mono fun _ => .inl)) fun cycle => ?_
  split
  · exact hP.ret _
  refine hP.tryBind (hP.bind (hreset _) fun _ => hP.ret _) fun _ => hP.tryBind (hops
    (Prog.ops_orThrow ⟨.inr (.inl rfl), fun _ => trivial⟩)) fun handles => ?_
  refine hP.bind (hP.forM handles fun handle => ?_) fun _ => hP.ret _
  exact advanceHandle_of_parts hP (fun hx => hops (hx.mono fun _ ho => .inr (.inr ho)))
    hsend _ handle

theorem confirm_of_parts (hP : Prog.Compositional P)
    (hops : ∀ {α : Type} {x : Io α}, x.Ops ConfirmOp → P α x)
    (hsend : ∀ m ∈ e.refill, ∀ intent opts context origin,
      P _ (TransactionManager.sendWithMeta m intent opts context origin).run) :
    P _ e.confirm.run :=
  confirm_of_reset hP
    (fun hx => hops (hx.mono fun _ ho =>
      ho.imp_right fun ho => .inr (ho.imp_left fun ha => ⟨e.account, ha⟩)))
    (fun c => hops ((e.nonceManager.reset_ops _ c).mono fun _ ho => .inr (.inl ho))) hsend

/-- What `confirm` does for one handle: it reads the chain or polls a task, writes the handle, and
may send a refill. It puts nothing back on the wire. -/
def AdvanceOp : Op → Prop
  | .receipt _ | .blockHash _ | .poll _ | .approvalsRemove _ _ | .putHandle _ (.advance _)
  | .putHandle _ (.poll _) => True
  | .submit _ _ (.recover _) | .submit _ _ (.bump _) => False
  | o => TransactionManager.SendOp o

theorem sendWithMeta_advanceOp (m : TransactionManager) (intent : TxIntent) (opts : SubmissionOpts)
    (context : Option MetaContext) (origin : Origin) :
    (m.sendWithMeta intent opts context origin).run.Ops AdvanceOp := by
  have hhistory : (m.sendWithMeta intent opts context origin).run.wp
      (.history (Owes (.manager m))) (fun _ => Done) [] :=
    TransactionManager.sendWithMeta_history rfl (done_of_idle rfl)
  have hmanager := Prog.ops_of_history hhistory fun _ _ => ManagerOp.of_owes
  refine ((TransactionManager.sendWithMeta_ops ..).and hmanager).mono ?_
  rintro o ⟨ho, hm⟩
  cases o with
  | submit rlp opts site =>
    cases site with
    | recover | bump => cases hm
    | _ => trivial
  | putHandle g site =>
    cases site with
    | advance | poll => trivial
    | _ => exact ho
  | receipt | blockHash | poll | approvalsRemove => cases ho
  | _ => exact ho

omit [Alloy] in
theorem HandleOp.advanceOp {o : Op} (ho : HandleOp o) : AdvanceOp o := by
  cases o with
  | receipt | blockHash | poll | approvalsRemove => trivial
  | putHandle g site =>
    cases site with
    | advance | poll => trivial
    | _ => cases ho
  | _ => cases ho

theorem advanceHandle_ops (cycle : Cycle) (handle : TxHandle) :
    (e.advanceHandle cycle handle).Ops AdvanceOp :=
  advanceHandle_of_parts (Prog.ops_compositional AdvanceOp) (fun hx => hx.mono fun _ =>
    HandleOp.advanceOp) (fun m _ => sendWithMeta_advanceOp m) cycle handle

/-- The calls of a bump of this handle. Only a handle whose fees decode is replaced. -/
def BumpOp (h : TxHandle) : Op → Prop
  | .txCount _ | .gasBump _ | .approvalsGet _ _ | .evaluate _ _ | .signTransaction _ _ _ _ _
  | .approvalsInsert _ _ _ => True
  | .submit _ _ (.bump g) => g = h
  | .putHandle _ (.bump g) => g = h ∧ (decodeFees h.signed).isSome
  | _ => False

theorem bump_ops (handle : TxHandle) (now : Nat) :
    (e.bump handle now).run.Ops (BumpOp handle) := by
  refine .tryBind (Prog.ops_orThrow ⟨trivial, fun _ => trivial⟩) fun mined => ?_
  split
  · trivial
  split
  · trivial
  rename_i current hcurrent
  have record : ∀ routed signed approval,
      (e.recordBump routed handle signed approval now).run.Ops (BumpOp handle) :=
    fun routed signed approval =>
      .tryBind (Prog.ops_orThrow ⟨⟨rfl, by rw [hcurrent]; rfl⟩, fun _ => trivial⟩) fun _ =>
        .bind ⟨trivial, fun _ => trivial⟩ fun _ => trivial
  refine .tryBind (.bind ⟨trivial, fun _ => trivial⟩ fun _ => trivial) fun bumped => ?_
  split
  · trivial
  · trivial
  split
  · trivial
  refine .tryBind (.tryBind (.bind ⟨trivial, fun _ => trivial⟩ fun _ => trivial) fun cached => ?_)
    fun approval => ?_
  · split
    · trivial
    · refine .tryBind (Prog.ops_orThrow ⟨trivial, fun _ => trivial⟩) fun decision => ?_
      split <;> trivial
  split
  · trivial
  refine .tryBind (Prog.ops_orThrow (.tryBind (Prog.ops_orThrow ⟨trivial, fun _ => trivial⟩)
    fun _ => trivial)) fun signed =>
    .tryBind (.bind ⟨rfl, fun _ => trivial⟩ fun _ => trivial) fun submitted => ?_
  split
  · split
    · exact record _ _ _
    · trivial
  · exact record _ _ _

/-- A loop that bumps is made of the bumps of what it goes over, where that is sent. -/
theorem escalateLoop_ops {S : Op → Prop} (now : Nat) (handles : List TxHandle)
    (h : ∀ handle ∈ handles, handle.status = .sent → ∀ o, BumpOp handle o → S o) :
    (handles.forM (e.escalateHandle now)).Ops S := by
  refine .forM _ fun handle hmem => ?_
  unfold escalateHandle
  split
  · rename_i hstuck
    exact .bind ((bump_ops handle now).mono (h handle hmem hstuck.1)) fun _ => trivial
  · trivial

end Parts

end AccountExecutor

end WalletKit
