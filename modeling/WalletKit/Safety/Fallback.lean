import WalletKit.Runtime.Bumps
import WalletKit.Safety.Cancelled
import WalletKit.Safety.Routes

/-!
# Falling through to the public mempool

A private route may go public after a number of cycles. `bump` compares that number with the
length of the list of broadcasts, in which the send itself is the first entry. The send counts as
a cycle: the bump whose number is that of the option is the first public one, and a reading by
which it is the last private one differs from the code there and nowhere else.

The new route is written to the record only after the broadcast. Where that write does not follow,
the record still has the private route, and the transaction goes back to it.
-/
namespace WalletKit

open Machine Signing

section Counting

/-- `Bumped log wal b h`: in the log, `h` is a version of the record `wal` of a send, after `b`
recorded bumps. -/
inductive Bumped (log : List PortEvent) (wal : TxHandle) : Nat → TxHandle → Prop where
  | sent {origin : Origin} : ev (.putHandle wal (.wal origin)) (.ok ()) ∈ log → Bumped log wal 0 wal
  | version {b : Nat} {h h' : TxHandle} {site : PutSite} :
      ev (.putHandle h' site) (.ok ()) ∈ log → site.basis = some h → (∀ g, site ≠ .bump g) →
      Bumped log wal b h → Bumped log wal b h'
  | bump {b : Nat} {h h' : TxHandle} : ev (.putHandle h' (.bump h)) (.ok ()) ∈ log →
      Bumped log wal b h → Bumped log wal (b + 1) h'

/-- The route after so many bumps: the first to find enough broadcasts leaves the private one. -/
def routeAfter (relay : PrivateRoute) (n b : Nat) : SubmissionRoute :=
  if 0 < b ∧ n ≤ b then .public else .private relay

/-- The route of the `k`-th bump if the send did not count: `n` private bumps come first. -/
def promisedRoute (relay : PrivateRoute) (n k : Nat) : SubmissionRoute :=
  if k ≤ n then .private relay else .public

variable {relay : PrivateRoute} {n b : Nat} {g : TxHandle}

theorem bumpRoute_eq (hroute : g.submission.route = routeAfter relay n b)
    (hlen : g.broadcasts.length = b + 1) (hn : relay.escalation = .publicAfter n) :
    AccountExecutor.bumpRoute g = routeAfter relay n (b + 1) := by
  unfold AccountExecutor.bumpRoute
  rw [hroute]
  unfold routeAfter
  by_cases hpublic : 0 < b ∧ n ≤ b
  · simp [hpublic, show n ≤ b + 1 by omega]
  · simp [hpublic, hn, hlen]

theorem routeAfter_succ :
    routeAfter relay n (b + 1) = if b + 1 < n then .private relay else .public := by
  unfold routeAfter
  by_cases hlt : b + 1 < n
  · rw [if_neg (by omega), if_pos hlt]
  · rw [if_pos (by omega), if_neg hlt]

/-- The two countings differ at the bump that has the number of the option. -/
theorem routeAfter_eq_promisedRoute :
    routeAfter relay n (b + 1) = promisedRoute relay n (b + 1) ↔ b + 1 ≠ n := by
  unfold routeAfter promisedRoute
  by_cases hle : n ≤ b + 1
  · rw [if_pos ⟨Nat.succ_pos b, hle⟩]
    by_cases heq : b + 1 ≤ n
    · simp [show b + 1 = n by omega]
    · simp [heq, show b + 1 ≠ n by omega]
  · simp [hle, show b + 1 ≤ n by omega, show b + 1 ≠ n by omega]

variable [Alloy] {W C α : Type} {cl : Client C α} {S : System ports W C α} {view : W → World}
  {p₀ p : Pool ports W C α} {wal : TxHandle}

/-- The broadcasts on the record are the send and the recorded bumps. -/
theorem Client.Runs.bumped_length (hS : cl.Runs S view) (h₀ : Backed.Fresh view p₀)
    (h : S.Reaches p₀ p) (hb : Bumped (view p.world).log wal b g) :
    g.broadcasts.length = b + 1 := by
  induction hb with
  | sent he =>
    obtain ⟨role, past, m, -, ⟨_, _, _, _, _, _, _, _, _, -, -, -, -, rfl⟩, -⟩ :=
      hS.put_owed h₀ h he
    rfl
  | @version b g g' site he hbasis hbump _ ih =>
    obtain ⟨role, past, howes⟩ := hS.put_owed h₀ h he
    cases id (howes.version hbasis) with
    | bumped => exact absurd rfl (hbump g)
    | included =>
      -- only a task without a transaction is polled
      obtain ⟨e, -, -, hrelay, -⟩ := howes
      have hnil : g.broadcasts = [] := by simpa using (Bool.and_eq_true_iff.mp hrelay).1
      simp [hnil] at ih
    | _ => exact ih
  | bump he _ ih =>
    obtain ⟨role, past, e, approval, now, rlp, -, rfl, -⟩ := hS.put_owed h₀ h he
    simpa using ih

/-- The route on the record is the one after the recorded bumps. -/
theorem Client.Runs.bumped_route (hS : cl.Runs S view) (h₀ : Backed.Fresh view p₀)
    (h : S.Reaches p₀ p) (hroute : wal.submission.route = .private relay)
    (hn : relay.escalation = .publicAfter n) (hb : Bumped (view p.world).log wal b g) :
    g.submission.route = routeAfter relay n b := by
  induction hb with
  | sent => exact hroute
  | version he hbasis hbump _ ih =>
    obtain ⟨role, past, howes⟩ := hS.put_owed h₀ h he
    rwa [howes.submission hbasis hbump]
  | @bump b g g' he hb ih =>
    have hlen := hS.bumped_length h₀ h hb
    obtain ⟨role, past, e, approval, now, rlp, -, rfl, -⟩ := hS.put_owed h₀ h he
    exact bumpRoute_eq ih hlen hn

/-- **The threshold of an escalation**, in any interleaving and with any failures: with `b` bumps
recorded, the next one is private if its number is below that of the option, and public if not.
This is the route it would have if the send did not count, unless the two numbers are the same. -/
theorem bump_route_promised_iff {p : CallPool} (h : interleavedCalls.Reaches Client.start p)
    {wal g : TxHandle} {b n : Nat} {relay : PrivateRoute} {opts : SubmissionOpts}
    (hroute : wal.submission.route = .private relay) (hn : relay.escalation = .publicAfter n)
    (hb : Bumped p.world.log wal b g) (hs : Submits p opts (.bump g)) :
    opts.route = (if b + 1 < n then .private relay else .public) ∧
      (opts.route = promisedRoute relay n (b + 1) ↔ b + 1 ≠ n) := by
  have hruns : Call.client.Runs interleavedCalls id := Client.system_runs _ _
  obtain ⟨i, rlp, hnext⟩ := hs
  obtain ⟨th, hth, k, hprog⟩ := Pool.exists_thread_of_next? hnext
  obtain ⟨role, -, e, approval, now, -, rfl, -⟩ := hruns.owes Client.fresh_start h hth hprog
  have hg := hruns.bumped_route Client.fresh_start h hroute hn hb
  have hlen := hruns.bumped_length Client.fresh_start h hb
  have hbump : AccountExecutor.bumpRoute g = routeAfter relay n (b + 1) := bumpRoute_eq hg hlen hn
  change AccountExecutor.bumpRoute g = _ ∧ (AccountExecutor.bumpRoute g = _ ↔ _)
  rw [hbump]
  exact ⟨routeAfter_succ, routeAfter_eq_promisedRoute⟩

end Counting

section CountingRuns

attribute [local instance] Toy.alloy

/-- A private route that falls through after so many bumps. -/
def Toy.relay (n : Nat) : PrivateRoute :=
  .flashbots ⟨.publicAfter n, none, false, ⟨false, false, false, false⟩⟩

/-- A send on that route, and a tick about to broadcast its first bump. -/
def firstBump (n : Nat) : CallPool :=
  System.played (S := interleavedCalls) Client.start
    [.spawn (.send Toy.manager Toy.intent ⟨.private (Toy.relay n)⟩ none),
      .moves 0 40 () (World.serve Toy.calm), .spawn (.tick Toy.executor),
      .moves 1 40 () (Toy.heldAt isBumpSite)]

/-- The record of that send. -/
def Toy.sentOn (n : Nat) : TxHandle :=
  walHandle Toy.intent 4 ⟨Toy.intent.hash, .default, 1000⟩ 100
    (.of (buildTx Toy.intent 4 25200 ⟨10, 1⟩) [1]) ⟨.private (Toy.relay n)⟩ none

/-- This event writes the record from this place. -/
def writesAt (g : TxHandle) (site : PutSite) (e : PortEvent) : Bool :=
  e.op = .putHandle g site && (wrote e).isSome

theorem mem_of_writesAt {log : List PortEvent} {g : TxHandle} {site : PutSite}
    (h : log.any (writesAt g site)) : ev (.putHandle g site) (.ok ()) ∈ log := by
  obtain ⟨e, he, hw⟩ := List.any_eq_true.mp h
  simp only [writesAt, Bool.and_eq_true, decide_eq_true_eq, Option.isSome_iff_exists] at hw
  obtain ⟨hop, g', hg'⟩ := hw
  obtain ⟨site', rfl⟩ := wrote_eq_some hg'
  cases hop
  exact he

/-- What call 1 is about to broadcast as a bump of this handle. -/
def bumpOn? (p : CallPool) (g : TxHandle) : Option SubmissionOpts :=
  match p.next? 1 with
  | some (.submit _ opts (.bump h)) => if h = g then some opts else none
  | _ => none

theorem submits_of_bumpOn? {p : CallPool} {g : TxHandle} {opts : SubmissionOpts}
    (h : bumpOn? p g = some opts) : Submits p opts (.bump g) := by
  unfold bumpOn? at h
  split at h
  · rename_i rlp opts' h' hnext
    split at h
    · cases h
      exact ⟨1, rlp, by simpa [‹h' = g›] using hnext⟩
    · cases h
  · cases h

theorem firstBump_sent {n : Nat} (hlog : (firstBump n).world.log.any
      (writesAt (Toy.sentOn n) (.wal .direct)) && (firstBump n).world.log.any
      (writesAt { Toy.sentOn n with status := .sent } (.sent (Toy.sentOn n)))) :
    Bumped (firstBump n).world.log (Toy.sentOn n) 0 { Toy.sentOn n with status := .sent } := by
  rw [Bool.and_eq_true] at hlog
  exact .version (mem_of_writesAt hlog.2) rfl (by simp) (.sent (mem_of_writesAt hlog.1))

theorem bump_route_promised_iff_first : ∃ g opts,
    Bumped (firstBump 2).world.log (Toy.sentOn 2) 0 g ∧
    Submits (firstBump 2) opts (.bump g) ∧ opts.route = .private (Toy.relay 2) ∧
    opts.route = promisedRoute (Toy.relay 2) 2 1 := by
  have hreach : interleavedCalls.Reaches Client.start (firstBump 2) := System.reaches_played _ _
  have hb := firstBump_sent (n := 2) (by decide +kernel)
  have hnext : (bumpOn? (firstBump 2) { Toy.sentOn 2 with status := .sent }).isSome := by
    decide +kernel
  obtain ⟨opts, hopts⟩ := Option.isSome_iff_exists.mp hnext
  have hs := submits_of_bumpOn? hopts
  obtain ⟨hprivate, hpromised⟩ := bump_route_promised_iff hreach rfl rfl hb hs
  exact ⟨_, opts, hb, hs, hprivate, hpromised.mpr (by decide)⟩

/-- With one cycle before the fall through, the first bump is public. -/
theorem first_bump_goes_public : ∃ p wal g relay opts, interleavedCalls.Reaches Client.start p ∧
    wal.submission.route = .private relay ∧ relay.escalation = .publicAfter 1 ∧
    Bumped p.world.log wal 0 g ∧ Submits p opts (.bump g) ∧ opts.route = .public := by
  have hreach : interleavedCalls.Reaches Client.start (firstBump 1) := System.reaches_played _ _
  have hb := firstBump_sent (n := 1) (by decide +kernel)
  have hnext : (bumpOn? (firstBump 1) { Toy.sentOn 1 with status := .sent }).any
      (·.route = .public) := by decide +kernel
  obtain ⟨opts, hopts, hpublic⟩ := (Option.any_eq_true _ _).mp hnext
  exact ⟨_, _, _, Toy.relay 1, opts, hreach, rfl, rfl, hb, submits_of_bumpOn? hopts,
    of_decide_eq_true hpublic⟩

end CountingRuns

section Currency

/-- A bump is broadcast from the record that the loop has come to. -/
def BumpOwes (past : List PortEvent) : Op → Prop
  | .submit _ _ (.bump h) => ∃ a, Pending past a h
  | _ => True

variable [Alloy] {e : AccountExecutor} {past : List PortEvent} {a : Address} {now : Nat}
  {hs done rest : List TxHandle} {handle : TxHandle}

omit [Alloy] in
theorem Reading.loop (hr : Reading past a hs done) {x : PortEvent}
    (hx : AccountExecutor.LoopOp done x.op) : Reading (past ++ [x]) a hs done :=
  hr.append (by simpa using hx.spares)

omit [Alloy] in
theorem Reading.finish (hr : Reading past a hs done) (handle : TxHandle) :
    Reading past a hs (done ++ [handle]) := hr.mono fun _ hd => List.mem_append_left _ hd

namespace AccountExecutor

omit [Alloy] in
theorem recordBump_pending {routed : TxHandle} {signed : SignedTx} {approval : PolicyApproval}
    (hid : routed.id = handle.id) (hr : Reading past a hs done) :
    (e.recordBump routed handle signed approval now).run.wp (.history BumpOwes)
      (fun _ past => Reading past a hs (done ++ [handle])) past := by
  unfold recordBump
  simp only [Prog.wp_run_bind, Prog.wp_run_lift, Prog.wp_run_orThrow, StateStore.wp_putHandle,
    ExecutorMemory.wp_insertApproval, asks_history, Prog.forall_except, Except.mapError]
  have hput : ∀ g r, g.id = handle.id → Reading (past ++ [ev (.putHandle g (.bump handle)) r]) a hs
      (done ++ [handle]) := fun g r hg => (hr.finish handle).loop ⟨handle, by simp, hg.symm⟩
  have hinsert : ∀ g r r', g.id = handle.id →
      Reading (past ++ [ev (.putHandle g (.bump handle)) r] ++
        [ev (.approvalsInsert e.id handle.id approval) r']) a hs (done ++ [handle]) :=
    fun g r r' hg => (hput g r hg).loop trivial
  exact ⟨trivial, fun _ => hput _ _ hid, fun _ => ⟨trivial, fun _ => hinsert _ _ _ hid⟩⟩

omit [Alloy] in
theorem bumpApproval_pending {fees : Eip1559Estimation} (hr : Reading past a hs done) :
    (e.bumpApproval handle fees now).run.wp (.history BumpOwes)
      (fun _ past => Reading past a hs done) past := by
  unfold bumpApproval
  simp only [Prog.wp_run_bind, Prog.wp_run_lift, ExecutorMemory.wp_approval, asks_history]
  refine ⟨trivial, fun cached => ?_⟩
  have hr₁ : Reading (past ++ [ev (.approvalsGet e.id handle.id) cached]) a hs done :=
    hr.loop trivial
  split
  · exact hr₁
  · simp only [Prog.wp_run_bind, Prog.wp_run_orThrow, PolicyEngine.wp_evaluate, asks_history,
      Prog.forall_except, Except.mapError]
    have hr₂ : ∀ r, Reading (past ++ [ev (.approvalsGet e.id handle.id) cached] ++
        [ev (.evaluate e.policy (bumpRequest handle.intent)) r]) a hs done := fun r =>
      hr₁.loop trivial
    refine ⟨trivial, fun _ => hr₂ _, fun decision => ?_⟩
    cases decision <;> exact hr₂ _

theorem submitBump_pending {gasLimit : Nat} {fees : Eip1559Estimation} {approval : PolicyApproval}
    (hlist : hs = done ++ handle :: rest) (hr : Reading past a hs done) :
    (e.submitBump handle gasLimit fees approval now).run.wp (.history BumpOwes)
      (fun _ past => Reading past a hs (done ++ [handle])) past := by
  unfold submitBump signEncode
  simp only [Prog.wp_run_bind, Prog.wp_run_lift, Prog.wp_run_orThrow, Prog.wp_run_pure,
    Signer.wp_signTransaction, Submission.wp_submit, asks_history, Prog.forall_except,
    Except.mapError]
  have hsigned : ∀ r, Reading (past ++ [ev (.signTransaction e.signer
      (buildTx handle.intent handle.nonce gasLimit fees) handle.intentHash approval now) r])
      a hs done := fun r => hr.loop trivial
  refine ⟨trivial, fun _ => (hsigned _).finish handle, fun sig => ?_⟩
  have hout : ∀ rlp opts r, Reading (past ++ [ev (.signTransaction e.signer
      (buildTx handle.intent handle.nonce gasLimit fees) handle.intentHash approval now)
      (.ok sig)] ++ [ev (.submit rlp opts (.bump handle)) r]) a hs done :=
    fun _ _ _ => (hsigned _).loop trivial
  refine ⟨⟨a, hs, done, rest, hlist, hsigned _⟩, fun err => ?_, fun _ =>
    recordBump_pending rfl (hout _ _ _)⟩
  split
  · exact recordBump_pending rfl (hout _ _ _)
  · exact (hout _ _ _).finish handle

theorem bump_pending (hlist : hs = done ++ handle :: rest) (hr : Reading past a hs done) :
    (e.bump handle now).run.wp (.history BumpOwes)
      (fun _ past => Reading past a hs (done ++ [handle])) past := by
  unfold bump
  simp only [Prog.wp_run_bind, Prog.wp_run_orThrow, Rpc.wp_txCount, asks_history,
    Prog.forall_except, Except.mapError]
  have hr₁ : ∀ r, Reading (past ++ [ev (.txCount e.account) r]) a hs done := fun r =>
    hr.loop trivial
  refine ⟨trivial, fun _ => (hr₁ _).finish handle, fun mined => ?_⟩
  split
  · exact (hr₁ _).finish handle
  split
  · exact (hr₁ _).finish handle
  rename_i current _
  simp only [Prog.wp_run_bind, Prog.wp_run_lift, GasOracle.wp_bump, asks_history,
    Prog.forall_except]
  have hr₂ : ∀ r, Reading (past ++ [ev (.txCount e.account) (.ok mined)] ++
      [ev (.gasBump current.fees) r]) a hs done := fun r => (hr₁ _).loop trivial
  refine ⟨trivial, fun err => ?_, fun fees => ?_⟩
  · cases err <;> exact (hr₂ _).finish handle
  split
  · exact (hr₂ _).finish handle
  refine Prog.wp_run_bind.mpr (Prog.wp_mono (bumpApproval_pending (hr₂ _)) ?_)
  rintro (err | _ | approval) past hr₃
  · exact hr₃.finish handle
  · exact hr₃.finish handle
  · exact submitBump_pending hlist hr₃

theorem escalate_pending :
    e.escalate.run.wp (.history BumpOwes) (fun _ _ => True) past := by
  unfold escalate
  simp only [Prog.wp_run_bind, Prog.wp_run_lift, Prog.wp_run_orThrow, Clock.wp_nowUnix,
    StateStore.wp_pendingHandles, asks_history, Prog.forall_except, Except.mapError]
  refine ⟨trivial, fun now => ⟨trivial, fun _ => trivial, fun hs => ?_⟩⟩
  refine Prog.wp_forM (fun rest past => ∃ done, hs = done ++ rest ∧ Reading past e.account hs done)
    ⟨[], rfl, _, [], rfl, by simp⟩ (fun _ _ => trivial) ?_
  rintro handle rest past - ⟨done, hlist, hr⟩
  suffices hstep : (e.escalateHandle now handle).wp (.history BumpOwes)
      (fun _ past => Reading past e.account hs (done ++ [handle])) past from
    Prog.wp_mono hstep fun _ _ hv => ⟨done ++ [handle], by simp [hlist], hv⟩
  unfold escalateHandle
  split
  · exact Prog.wp_bind.mpr (Prog.wp_mono (bump_pending hlist hr) fun _ _ hv => hv)
  · exact hr.finish handle

end AccountExecutor

theorem Call.body_bumps (c : Call) : (client.body c).Meets (.history BumpOwes) := by
  refine body_meets (fun past o ho => ?_) (fun _ _ => AccountExecutor.escalate_pending) c
  cases o with
  | submit rlp opts site =>
    cases site with
    | bump => cases ho
    | _ => trivial
  | _ => trivial

variable {W : Type} {S : System ports W Call CallResult} {view : W → World}
  {p₀ p : Pool ports W Call CallResult} {th : CallThread}

/-- In calls one at a time, what is bumped is stored as it was read. -/
theorem Call.bump_stored {K : Kind} (hS : client.Orderly S view p₀ errand K) (h : S.Reaches p₀ p)
    (hlast : p.threads.getLast? = some th) {rlp : Bytes} {opts : SubmissionOpts} {g : TxHandle}
    {k : Except SubmissionError TxHash → Io CallResult}
    (hprog : th.prog = .call (.submit rlp opts (.bump g)) k) :
    (view p.world).store.handle g.id = some g := by
  have hist := h.history (fun c => hS.runs.body ▸ c.body_bumps []) hS.fresh.1 th
    (List.mem_of_getLast? hlast)
  rw [hprog] at hist
  obtain ⟨a, hs, done, rest, hlist, hr⟩ := (Prog.wp_history_call.mp hist).1
  have hcur := (hS.invariant h).2
  rw [Pool.current_of_last hlast] at hcur
  exact (hcur.pending hlist hr).1

end Currency

section OneWay

/-- A broadcast for this handle that leaves its private route. -/
def leavesPrivate (id : HandleId) : PortEvent → Bool
  | ⟨.submit _ _ (.bump h), _⟩ => h.id = id && escalates h
  | _ => false

/-- No rebroadcast and no bump of this handle but on the public route. -/
def staysPublic (id : HandleId) : PortEvent → Bool
  | ⟨.submit _ opts (.recover g), _⟩ | ⟨.submit _ opts (.bump g), _⟩ =>
    g.id ≠ id || opts.route = .public
  | _ => true

/-- When a bump has just left the private route, what follows is the write of its record. -/
def recordedNext (w : World) (e : PortEvent) : Bool :=
  match w.log.getLast? with
  | some ⟨.submit _ _ (.bump h), _⟩ => !escalates h || match e with
    | ⟨.putHandle _ (.bump g), r⟩ => g = h && (r : Except StateStoreError Unit).isOk
    | _ => false
  | _ => true

/-- The record has the public route, and is one that no send replaces. -/
structure Fallen (g : TxHandle) : Prop where
  route : g.submission.route = .public
  tracked : g.Is .tracked
  bumped : 2 ≤ g.broadcasts.length

variable [Alloy]

/-- Calls one at a time, in which the records of rejections are written, ids do not collide, no
cancel is of a handle that is marked already or is a cancel itself, and a bump that leaves the
private route is recorded at once. -/
abbrev recordedFallbacks : System ports World Call CallResult :=
  Call.client.system fun p i e => i + 1 = p.threads.length ∧ rejectWritten e ∧
    distinctIds p.world e ∧ freshCancel e ∧ recordedNext p.world e

theorem recordedFallbacks_orderly :
    Call.client.Orderly recordedFallbacks id Client.start Call.errand .tracked :=
  Call.orderly (Client.system_runs _ _) Client.fresh_start (fun _ _ _ _ _ ha => ha.2.1)
    (fun ha => ha.2.2.1) fun ha => ha.2.2.2.1

variable {p : CallPool} {th : CallThread} {i : Nat} {h' g : TxHandle} {site : PutSite}
  {k : Except StateStoreError Unit → Io CallResult}

omit [Alloy] in
theorem bumpRoute_of_escalates (h : escalates g) : AccountExecutor.bumpRoute g = .public := by
  unfold escalates AccountExecutor.bumpRoute at *
  cases hroute : g.submission.route with
  | «public» => rfl
  | «private» relay =>
    cases hrelay : relay.escalation with
    | stayPrivate => simp [hroute, hrelay] at h
    | publicAfter cycles =>
      by_cases hcycles : cycles ≤ g.broadcasts.length
      · simp [hrelay, hcycles]
      · simp [hroute, hrelay, hcycles] at h

/-- A bump that leaves the private route and is recorded. -/
theorem fallen_of_bump (h : recordedFallbacks.Reaches Client.start p) (hth : th ∈ p.threads)
    (hprog : th.prog = .call (.putHandle h' (.bump g)) k) (hleaves : escalates g) :
    h'.id = g.id ∧ Fallen h' := by
  have hS := recordedFallbacks_orderly
  obtain ⟨role, -, e, approval, now, rlp, -, rfl, ⟨hseen, hsent, -⟩, -⟩ :=
    hS.runs.owes hS.fresh h hth hprog
  have hne := (Call.broadcasts_ne_nil hS.runs hS.fresh h).2 th hth g hseen.known
  refine ⟨rfl, bumpRoute_of_escalates hleaves, .inl ?_, ?_⟩
  · change g.status.isTerminal = false
    rw [hsent]
    rfl
  · have := List.length_pos_iff.mpr hne
    simp only [List.length_append, List.length_singleton]
    omega

/-- Whatever is written over a record that has left the private route keeps the public one. -/
theorem Fallen.put (h : recordedFallbacks.Reaches Client.start p)
    (hlast : p.threads.getLast? = some th) (hprog : th.prog = .call (.putHandle h' site) k)
    (ha : recordedFallbacks.allow p i () (.putHandle h' site) (.ok ()))
    (hg : p.world.store.handle h'.id = some g) (hf : Fallen g) : Fallen h' := by
  have hS := recordedFallbacks_orderly
  have hth : th ∈ p.threads := List.mem_of_getLast? hlast
  obtain ⟨role, hrole, howes⟩ := hS.runs.owes hS.fresh h hth hprog
  -- the record of a send that is in progress has one broadcast
  have hnew : ¬∃ origin, Stored th.past g (.wal origin) := by
    rintro ⟨origin, hs⟩
    have hlen := hS.runs.bumped_length hS.fresh h (.sent (hS.runs.mem_log hS.fresh h hth hs))
    have := hf.bumped
    omega
  have hrelay : isAwaitingRelay g = false := by
    have hne : g.broadcasts ≠ [] := List.ne_nil_of_length_pos (by have := hf.bumped; omega)
    simp [isAwaitingRelay, hne]
  cases hb : site.basis with
  | none =>
    exact absurd hf.tracked (hS.put_new (fun ha => ha.2.2.2.2.1) h hlast hprog ha hb
      (Call.ne_task hrole howes) hg)
  | some g' =>
    obtain rfl : g' = g :=
      Option.some.inj (((hS.put_current h hlast hprog ha).1 g' hb).symm.trans hg)
    cases id (howes.version hb) with
    | sent =>
      obtain ⟨-, hs, -⟩ := howes
      exact absurd hs hnew
    | rejected =>
      obtain ⟨e, -, -, -, hs, -⟩ := howes
      exact absurd hs hnew
    | marked | unmarked => exact ⟨hf.route, hf.tracked, hf.bumped⟩
    | advanced =>
      obtain ⟨e, -, hev⟩ := howes
      exact ⟨hf.route, hev.tracked, hf.bumped⟩
    | included | relayFailed =>
      obtain ⟨e, -, -, hawait, -⟩ := howes
      simp [hrelay] at hawait
    | bumped rlp now =>
      obtain ⟨e, approval, _, _, -, -, ⟨-, hsent, -⟩, -⟩ := howes
      refine ⟨by simp [AccountExecutor.bumpRoute, hf.route], .inl ?_, ?_⟩
      · change g'.status.isTerminal = false
        rw [hsent]
        rfl
      · have := hf.bumped
        simp only [List.length_append, List.length_singleton]
        omega

omit [Alloy] in
/-- What follows a bump that has left the private route. -/
theorem recordedNext_leaves {w : World} {e : PortEvent} {id : HandleId} (h : recordedNext w e)
    (hl : w.log.getLast?.any (leavesPrivate id)) : ∃ g h', g.id = id ∧ escalates g ∧
      e = ev (.putHandle h' (.bump g)) (.ok ()) := by
  obtain ⟨x, hx, hleaves⟩ := (Option.any_eq_true _ _).mp hl
  unfold leavesPrivate at hleaves
  split at hleaves
  · rename_i rlp opts g r
    simp only [Bool.and_eq_true, decide_eq_true_eq] at hleaves
    simp only [recordedNext, hx, hleaves.2, Bool.not_true, Bool.false_or] at h
    split at h
    · rename_i h' g' r'
      simp only [Bool.and_eq_true, decide_eq_true_eq] at h
      obtain ⟨rfl, hok⟩ := h
      match r', hok with
      | .ok (), _ => exact ⟨g', h', hleaves.1, hleaves.2, rfl⟩
    · cases h
  · cases hleaves

/-- When a bump has left the private route, the stored record is on the public one, or is about to
be. -/
theorem fallen_or_next (h : recordedFallbacks.Reaches Client.start p) {id : HandleId}
    (hl : p.world.log.any (leavesPrivate id)) :
    (∃ g, p.world.store.handle id = some g ∧ Fallen g) ∨
      p.world.log.getLast?.any (leavesPrivate id) := by
  have hS := recordedFallbacks_orderly
  induction h with
  | refl => cases hl
  | @tail p p' hreach hs ih =>
    cases hs with
    | spawn c _ => exact ih hl
    | @move i th o k x r hi hprog ha =>
      change (∃ g, (p.world.apply ⟨o, r⟩).store.handle id = some g ∧ Fallen g) ∨
        (p.world.log ++ [ev o r]).getLast?.any (leavesPrivate id)
      have hlog : (p.world.log ++ [ev o r]).any (leavesPrivate id) := hl
      rw [List.any_append, Bool.or_eq_true] at hlog
      rw [List.getLast?_concat]
      rcases hlog with hlog | hnow
      · refine .inl ?_
        have hlast := hS.sequential.last hi ha
        rcases ih hlog with ⟨g, hg, hf⟩ | hnext
        · rw [World.handle_apply]
          cases hw : wrote ⟨o, r⟩ with
          | none => exact ⟨g, hg, hf⟩
          | some h' =>
            obtain ⟨site, he⟩ := wrote_eq_some hw
            cases he
            by_cases hid : id = h'.id
            · subst hid
              exact ⟨h', if_pos rfl, hf.put hreach hlast hprog ha hg⟩
            · exact ⟨g, (if_neg hid).trans hg, hf⟩
        · obtain ⟨g, h', rfl, hleaves, he⟩ := recordedNext_leaves ha.2.2.2.2.2 hnext
          cases he
          obtain ⟨hid, hf⟩ := fallen_of_bump hreach (List.mem_of_getElem? hi) hprog hleaves
          refine ⟨h', ?_, hf⟩
          rw [World.handle_apply]
          exact if_pos hid.symm
      · exact .inr (by simpa using hnow)

/-- **Escalation is one-way**, as long as it is recorded at once: after a broadcast that left the
private route of a handle, every rebroadcast and every bump of that handle goes out on the public
one. -/
theorem escalation_is_one_way (h : recordedFallbacks.Reaches Client.start p)
    {before after : List PortEvent} {e : PortEvent} (hlog : p.world.log = before ++ e :: after)
    {id : HandleId} (hl : before.any (leavesPrivate id)) : staysPublic id e := by
  have hS := recordedFallbacks_orderly
  have hK := hS.runs.log_moved (K := fun w e => w.log.any (leavesPrivate id) → staysPublic id e)
    hS.fresh (fun {p i th x o k r} hreach hi hprog ha hleft => ?_) h before e after hlog
  · rw [World.replay_log] at hK
    exact hK hl
  have hlast := hS.sequential.last hi ha
  rcases fallen_or_next hreach hleft with ⟨g, hg, hf⟩ | hnext
  · cases o with
    | submit rlp opts site =>
      obtain ⟨role, -, howes⟩ := hS.runs.owes hS.fresh hreach (List.mem_of_getLast? hlast) hprog
      cases site with
      | recover g' =>
        by_cases hid : g'.id = id
        · have hstored := (hS.runs.recover_stored hS.sequential hS.fresh hreach hlast hprog).1
          rw [hid] at hstored
          obtain rfl := Option.some.inj (hg.symm.trans hstored)
          obtain ⟨e, -, -, rfl, -⟩ := howes
          simp [staysPublic, hf.route]
        · simp [staysPublic, hid]
      | bump g' =>
        by_cases hid : g'.id = id
        · have hstored := Call.bump_stored hS hreach hlast hprog
          rw [hid] at hstored
          obtain rfl := Option.some.inj (hg.symm.trans hstored)
          obtain ⟨e, approval, now, -, rfl, -⟩ := howes
          simp [staysPublic, AccountExecutor.bumpRoute, hf.route]
        · simp [staysPublic, hid]
      | _ => rfl
    | _ => rfl
  · obtain ⟨g, h', -, -, he⟩ := recordedNext_leaves ha.2.2.2.2.2 hnext
    cases he
    rfl

end OneWay

section OneWayRuns

attribute [local instance] Toy.alloy

/-- A send on a route that falls through with the first bump, a tick that bumps it and has the
record of that answered so, and another tick. -/
def bumpedTwice {S : System ports World Call CallResult} (x : S.Choice)
    (r : Except StateStoreError Unit) : List (System.Action S) :=
  [.spawn (.send Toy.manager Toy.intent ⟨.private (Toy.relay 1)⟩ none),
    .moves 0 40 x (World.serve Toy.calm), .spawn (.tick Toy.executor),
    .moves 1 40 x fun w => fun
      | .putHandle _ (.bump _) => some r
      | o => World.serve Toy.calm w o,
    .spawn (.tick Toy.executor), .moves 2 40 x (World.serve Toy.calm)]

/-- The bump is recorded. -/
def fallenPublic : CallPool :=
  System.played (S := recordedFallbacks) Client.start (bumpedTwice () (.ok ()))

/-- The handle is broadcast again. -/
def rebroadcastOf (id : HandleId) : PortEvent → Bool
  | ⟨.submit _ _ (.recover g), _⟩ => g.id = id
  | _ => false

/-- An event of the second kind comes after one of the first. -/
def follows (first second : PortEvent → Bool) (log : List PortEvent) : Bool :=
  (List.range log.length).any fun n => (log.take n).any first && log[n]?.any second

theorem exists_of_follows {first second : PortEvent → Bool} {log : List PortEvent}
    (h : follows first second log) :
    ∃ before e after, log = before ++ e :: after ∧ before.any first ∧ second e := by
  obtain ⟨n, -, hn⟩ := List.any_eq_true.mp h
  rw [Bool.and_eq_true] at hn
  obtain ⟨e, he, hsecond⟩ := (Option.any_eq_true _ _).mp hn.2
  obtain ⟨hlt, rfl⟩ := List.getElem?_eq_some_iff.mp he
  refine ⟨log.take n, log[n], log.drop (n + 1), ?_, hn.1, hsecond⟩
  rw [← List.drop_eq_getElem_cons hlt, List.take_append_drop]

theorem escalation_is_one_way_recorded : ∃ before e after,
    fallenPublic.world.log = before ++ e :: after ∧ before.any (leavesPrivate Toy.sentId) ∧
      rebroadcastOf Toy.sentId e ∧ staysPublic Toy.sentId e := by
  have hreach : recordedFallbacks.Reaches Client.start fallenPublic := System.reaches_played _ _
  have hfollows : follows (leavesPrivate Toy.sentId) (rebroadcastOf Toy.sentId)
      fallenPublic.world.log := by decide +kernel
  obtain ⟨before, e, after, hlog, hleft, he⟩ := exists_of_follows hfollows
  exact ⟨before, e, after, hlog, hleft, he, escalation_is_one_way hreach hlog hleft⟩

/-- The node takes the bump, but its record is not written. -/
def hiddenAgain : CallPool :=
  System.played (S := singleCancels) Client.start (bumpedTwice () (.error (.backend "down")))

/-- A transaction that was public goes back to the private route. -/
theorem public_bump_hidden_again : ∃ p before e after id, singleCancels.Reaches Client.start p ∧
    p.world.log = before ++ e :: after ∧ before.any (leavesPrivate id) ∧
      rebroadcastOf id e ∧ staysPublic id e = false := by
  have hreach : singleCancels.Reaches Client.start hiddenAgain := System.reaches_played _ _
  have hfollows : follows (leavesPrivate Toy.sentId)
      (fun e => rebroadcastOf Toy.sentId e && !staysPublic Toy.sentId e)
      hiddenAgain.world.log := by decide +kernel
  obtain ⟨before, e, after, hlog, hleft, he⟩ := exists_of_follows hfollows
  rw [Bool.and_eq_true, Bool.not_eq_true'] at he
  exact ⟨_, before, e, after, _, hreach, hlog, hleft, he⟩

end OneWayRuns

end WalletKit
