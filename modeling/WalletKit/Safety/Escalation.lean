import WalletKit.Nonces.Reservations
import WalletKit.Runtime.Alone
import WalletKit.Runtime.ToyChain

/-!
# Stuck transactions

`escalate` bumps the fees of what has been out for too long. Whether a transaction is out is read
off the status of its record, and that status is written after the broadcast: where the write does
not happen the record stays pending. A tick broadcasts a pending record again, like a sent one, but
nothing makes it a sent one, so its fees are never raised.

Where the outcome of every broadcast is recorded, a live record that is neither mined nor being
displaced is a sent one, in any interleaving, and every `escalate` attempts a bump for it in time.
-/
namespace WalletKit

open Machine

section Rounds

variable [Alloy]

/-- What a finished `escalate` did about each handle of its listing. -/
structure Escalated (e : AccountExecutor) (now : Nat) (rounds : List (TxHandle × List PortEvent))
    (es : List PortEvent) : Prop where
  events : es = ev .nowUnix now :: ev (.pendingHandles e.account) (.ok (rounds.map (·.1))) ::
    rounds.flatMap (·.2)
  each : ∀ x ∈ rounds, (e.escalateHandle now x.1).Trace x.2 ()

/-- The round of this handle is a run of `bump`. -/
def Attempted (e : AccountExecutor) (now : Nat) (rounds : List (TxHandle × List PortEvent))
    (g : TxHandle) : Prop := ∃ events r, (g, events) ∈ rounds ∧ (e.bump g now).run.Trace events r

variable {e : AccountExecutor} {now : Nat} {rounds : List (TxHandle × List PortEvent)}
  {es : List PortEvent} {g : TxHandle} {w : World}

/-- `escalate` reads the clock, lists the pending handles and takes them one by one. -/
theorem exists_escalated (h : e.escalate.run.Trace es (.ok ())) :
    ∃ now rounds, Escalated e now rounds es := by
  obtain ⟨now, es₁, rfl, hlist⟩ := Prog.trace_call_iff.mp h
  obtain ⟨r, es₂, rfl, hloop⟩ := Prog.trace_call_iff.mp hlist
  match r with
  | .error err =>
    obtain ⟨-, herr⟩ := Prog.trace_ret_iff.mp hloop
    cases herr
  | .ok hs =>
    have hrun : ((hs.forM (e.escalateHandle now)) >>= fun _ =>
        (Prog.ret (.ok ()) : Io (Except ExecutorError Unit))).Trace es₂ (.ok ()) := hloop
    obtain ⟨es₃, es₄, ⟨⟩, rfl, hrounds, hend⟩ := Prog.trace_bind_iff.mp hrun
    obtain ⟨rfl, -⟩ := Prog.trace_ret_iff.mp hend
    obtain ⟨rounds, rfl, rfl, heach⟩ := Prog.trace_forM_iff.mp hrounds
    exact ⟨now, rounds, by rw [List.append_nil]; rfl, heach⟩

/-- A bump starts with a count of the account's transactions. -/
theorem bump_trace_ne_nil {r : Except ExecutorError Unit} (h : (e.bump g now).run.Trace es r) :
    es ≠ [] := by
  obtain ⟨_, _, rfl, -⟩ := Prog.trace_call_iff.mp h
  simp

/-- The listing has every live record of the account. -/
theorem Escalated.mem (h : Escalated e now rounds es) (hcan : w.Admits es)
    (hg : w.store.handle g.id = some g) (haccount : g.account = e.account)
    (hlive : g.status.isTerminal = false) : ∃ events, (g, events) ∈ rounds := by
  have hlisted := hcan [ev .nowUnix now] _ _ h.events
  have hperm : (rounds.map (·.1)).Perm (w.store.pendingHandles e.account) :=
    of_decide_eq_true hlisted
  have hmem : g ∈ rounds.map (·.1) :=
    hperm.mem_iff.mpr (Store.mem_pendingHandles.mpr ⟨hg, haccount, hlive⟩)
  obtain ⟨⟨_, events⟩, hround, rfl⟩ := List.mem_map.mp hmem
  exact ⟨events, hround⟩

/-- A handle that is old enough gets a bump exactly when its record says that it was sent. -/
theorem Escalated.attempted_iff (h : Escalated e now rounds es) (hcan : w.Admits es)
    (hg : w.store.handle g.id = some g) (haccount : g.account = e.account)
    (hold : e.bumpTimeout ≤ now - g.lastBroadcastAt) :
    Attempted e now rounds g ↔ g.status = .sent := by
  constructor
  · rintro ⟨events, r, hround, hbump⟩
    by_contra hsent
    have hskip := h.each _ hround
    rw [AccountExecutor.escalateHandle, if_neg fun hs => hsent hs.1] at hskip
    exact bump_trace_ne_nil hbump (Prog.trace_ret_iff.mp hskip).1
  · intro hsent
    obtain ⟨events, hround⟩ := h.mem hcan hg haccount (by rw [hsent]; rfl)
    have hbump := h.each _ hround
    rw [AccountExecutor.escalateHandle, if_pos ⟨hsent, hold⟩] at hbump
    obtain ⟨es₁, es₂, r, hevents, hbump, hend⟩ := Prog.trace_bind_iff.mp hbump
    obtain ⟨rfl, -⟩ := Prog.trace_ret_iff.mp hend
    obtain rfl : events = es₁ := by simpa using hevents
    exact ⟨events, r, hround, hbump⟩

end Rounds

section Outcomes

/-- The call has logged a record of this handle and has not yet recorded what became of it. -/
def openSend (id : HandleId) (past : List PortEvent) : Bool := (phase past).wal.any (·.id = id)

/-- A record of this handle as sent is written, and a cancel writes over the record that is
stored. -/
def sentRecorded (id : HandleId) (w : World) : PortEvent → Bool
  | ⟨.putHandle h (.sent _), r⟩ => h.id ≠ id || (r : Except StateStoreError Unit).isOk
  | ⟨.putHandle h (.cancelMark g), _⟩ | ⟨.putHandle h (.cancelUndo g), _⟩ =>
    h.id ≠ id || w.store.handle id = some g
  | _ => true

theorem openSend_iff {id : HandleId} {past : List PortEvent} :
    openSend id past ↔ ∃ wal, (phase past).wal = some wal ∧ wal.id = id := by
  simp [openSend, Option.any_eq_true]

theorem not_resting_of_openSend {id : HandleId} {past : List PortEvent} (h : openSend id past) :
    (phase past).resting = false := by
  obtain ⟨wal, hwal, -⟩ := openSend_iff.mp h
  cases hp : phase past <;> simp [hp, Phase.wal, Phase.resting] at hwal ⊢

variable [Alloy] {role : Role} {past : List PortEvent} {id : HandleId} {w : World}

/-- A record is written as pending by its send, or by a cancel that found it so. -/
theorem PutOwes.pending_cases {h' : TxHandle} {site : PutSite} (h : PutOwes role past h' site)
    (hs : h'.status = .pending) : (∃ origin, site = .wal origin) ∨
      ∃ g, (site = .cancelMark g ∨ site = .cancelUndo g) ∧ g.status = .pending := by
  cases site with
  | wal origin => exact .inl ⟨origin, rfl⟩
  | sent =>
    obtain ⟨rfl, -⟩ := h
    cases hs
  | rejected =>
    obtain ⟨e, rfl, -⟩ := h
    cases hs
  | cancelMark g =>
    obtain ⟨_, rfl, -⟩ := h
    exact .inr ⟨g, .inl rfl, hs⟩
  | cancelUndo g =>
    obtain ⟨_, _, -, rfl, -⟩ := h
    exact .inr ⟨g, .inr rfl, hs⟩
  | cancelNew =>
    obtain ⟨_, _, _, _, -, rfl, -⟩ := h
    cases hs
  | task =>
    obtain ⟨-, _, _, _, _, rfl⟩ := h
    cases hs
  | advance g =>
    -- no event of the chain makes a record pending
    obtain ⟨e, -, _, _, cycle, event, next, -, -, -, -, -, hnext, rfl⟩ := h
    have hne : AccountExecutor.settleStatus g next ≠ .pending := by
      unfold AccountExecutor.settleStatus
      obtain ⟨-, -, ⟨-, rfl, -⟩ | ⟨b, bh, o, -, ⟨-, rfl⟩ | ⟨-, rfl⟩⟩ |
        ⟨-, ⟨l, -, -, rfl⟩ | ⟨-, rfl⟩⟩⟩ := transition_cases hnext
      · simp
      · cases o <;> simp [Outcome.settled]
      · simp
      · split <;> simp
      · simp
    exact absurd hs hne
  | poll =>
    obtain ⟨e, -, -, -, ⟨hash, rfl⟩ | ⟨reason, rfl⟩⟩ := h <;> cases hs
  | bump g =>
    obtain ⟨e, _, _, _, -, rfl, ⟨-, hsent, -⟩, -⟩ := h
    cases hsent.symm.trans hs

/-- A send stays open until the write of its outcome. -/
theorem openSend_snoc {o : Op} {r : o.Reply} (hopen : openSend id past) (howes : Owes role past o)
    (hlost : ¬RejectLost past) (hsent : sentRecorded id w ⟨o, r⟩) (hreject : rejectWritten ⟨o, r⟩) :
    openSend id (past ++ [⟨o, r⟩]) ∨ ∃ h', wrote ⟨o, r⟩ = some h' ∧ h'.id = id ∧
      h'.status ≠ .pending := by
  have hphase : phase (past ++ [⟨o, r⟩]) = phaseStep (phase past) ⟨o, r⟩ := phase_snoc rfl rfl
  have stays : phaseStep (phase past) ⟨o, r⟩ = phase past → openSend id (past ++ [⟨o, r⟩]) :=
    fun hs => by rwa [openSend, hphase, hs]
  have rested : ¬Rested past := by
    rintro (hrest | hl)
    · simp [not_resting_of_openSend hopen] at hrest
    · exact hlost hl
  obtain ⟨wal, hwal, hid⟩ := openSend_iff.mp hopen
  cases o with
  | casNonceState scope n v f note =>
    obtain ⟨-, hnote⟩ := howes
    cases note with
    | allocate => exact absurd hnote.2 rested
    | release => exact absurd hnote.2 rested
    | reset => exact .inl (stays rfl)
  | putHandle h' site =>
    cases site with
    | wal origin =>
      obtain ⟨m, -, -, hp⟩ := howes
      rw [hp] at hwal
      cases hwal
    | sent wal' =>
      obtain ⟨rfl, -, hp⟩ := howes
      rw [hp] at hwal
      cases hwal
      cases r with
      | error => simp [sentRecorded, hid, Except.isOk, Except.toBool] at hsent
      | ok => exact .inr ⟨_, rfl, hid, by simp⟩
    | rejected wal' =>
      obtain ⟨e, rfl, -, -, -, hp⟩ := howes
      rw [hp] at hwal
      cases hwal
      cases r with
      | error => simp [rejectWritten, Except.isOk, Except.toBool] at hreject
      | ok => exact .inr ⟨_, rfl, hid, by simp⟩
    | _ => exact .inl (stays rfl)
  | submit rlp opts site =>
    cases site with
    | send origin wal' =>
      -- the broadcast of the very record that is open
      obtain ⟨m, -, -, -, -, hlast⟩ := howes
      obtain ⟨before, rfl⟩ := List.getLast?_eq_some_iff.mp hlast
      have hlogged : phase (before ++ [ev (.putHandle wal' (.wal origin)) (.ok ())]) =
          .logged wal' := phase_snoc rfl rfl
      rw [hlogged] at hwal hphase
      cases hwal
      left
      rw [openSend, hphase]
      simp only [phaseStep]
      split <;> simpa [Phase.wal] using hid
    | _ => exact .inl (stays rfl)
  | _ => exact .inl (stays rfl)

end Outcomes

section Law

variable [Alloy] {W C α : Type} {cl : Client C α} {S : System ports W C α} {view : W → World}
  {p₀ p : Pool ports W C α} {id : HandleId}

/-- An open send is still open after a move that leaves the record of its handle pending. -/
theorem Client.Runs.open_move (hS : cl.Runs S view) (h₀ : Backed.Fresh view p₀)
    (hsent : ∀ {p i x o r}, S.allow p i x o r → sentRecorded id (view p.world) ⟨o, r⟩)
    (hreject : ∀ {p i x o r}, S.allow p i x o r → rejectWritten ⟨o, r⟩) (h : S.Reaches p₀ p)
    {i : Nat} {mover : Thread ports C α} {o : Op} {k : o.Reply → Io α} {x : S.Choice} {r : o.Reply}
    (hi : p.threads[i]? = some mover) (hprog : mover.prog = .call o k) (ha : S.allow p i x o r)
    (hkept : ∀ h', wrote ⟨o, r⟩ = some h' → h'.id = id → h'.status = .pending)
    (hopen : ∃ th ∈ p.threads, openSend id th.past) :
    ∃ th ∈ (p.answer i mover o r (k r) (S.next p.world x o r)).threads, openSend id th.past := by
  have hget := Pool.get_answer hi (o := o) (r := r) (k := k r) (w := S.next p.world x o r)
  obtain ⟨th, hth, hopen⟩ := hopen
  obtain ⟨j, hj⟩ := List.mem_iff_getElem?.mp hth
  by_cases hji : j = i
  · obtain rfl : th = mover := Option.some.inj (hj.symm.trans (hji ▸ hi))
    obtain ⟨role, -, howes⟩ := hS.owes h₀ h hth hprog
    have hlost : ¬RejectLost th.past := by
      rintro ⟨h', wal, e, he⟩
      have hok := h.answered (K := fun _ e => rejectWritten e) (fun _ ha => hreject ha) h₀.1 th hth
        _ he
      simp [ev, rejectWritten, Except.isOk, Except.toBool] at hok
    rcases openSend_snoc hopen howes hlost (hsent ha) (hreject ha) with hopen | ⟨h', hw, hid, hne⟩
    · exact ⟨_, List.mem_of_getElem? ((hget i).trans (if_pos rfl)), hopen⟩
    · exact absurd (hkept h' hw hid) hne
  · exact ⟨th, List.mem_of_getElem? ((hget j).trans ((if_neg hji).trans hj)), hopen⟩

/-- Where the outcomes of broadcasts are recorded, a pending record has a send that has not yet
come to it. -/
theorem Client.Runs.open_of_pending (hS : cl.Runs S view) (h₀ : Backed.Fresh view p₀)
    (hsent : ∀ {p i x o r}, S.allow p i x o r → sentRecorded id (view p.world) ⟨o, r⟩)
    (hreject : ∀ {p i x o r}, S.allow p i x o r → rejectWritten ⟨o, r⟩) (h : S.Reaches p₀ p)
    {g : TxHandle} (hg : (view p.world).store.handle id = some g) (hs : g.status = .pending) :
    ∃ th ∈ p.threads, openSend id th.past := by
  induction h generalizing g with
  | refl =>
    rw [h₀.2] at hg
    cases hg
  | @tail p p' hreach hstep ih =>
    cases hstep with
    | spawn c _ =>
      obtain ⟨th, hth, hopen⟩ := ih hg hs
      exact ⟨th, Pool.mem_spawn.mpr (.inl hth), hopen⟩
    | @move i mover o k x r hi hprog ha =>
      have still := hS.open_move h₀ hsent hreject hreach hi hprog ha
      rw [Pool.world_answer, hS.next ha, World.handle_apply] at hg
      cases hw : wrote ⟨o, r⟩ with
      | none =>
        rw [hw] at hg
        exact still (by simp [hw]) (ih hg hs)
      | some h' =>
        obtain ⟨site, he⟩ := wrote_eq_some hw
        cases he
        rw [hw] at hg
        have hkept : ∀ h'', wrote (ev (.putHandle h' site) (.ok ())) = some h'' → h'' = h' :=
          fun _ hw' => Option.some.inj (hw'.symm.trans hw)
        by_cases hid : id = h'.id
        · obtain rfl : h' = g := by simpa [hid] using hg
          obtain ⟨role, -, howes⟩ := hS.owes h₀ hreach (List.mem_of_getElem? hi) hprog
          rcases howes.pending_cases hs with ⟨origin, rfl⟩ | ⟨g', hsite, hs'⟩
          · -- the send has just logged it
            have hlogged : phase (mover.past ++ [ev (.putHandle h' (.wal origin)) (.ok ())]) =
                .logged h' := phase_snoc rfl rfl
            refine ⟨_, List.mem_of_getElem? ((Pool.get_answer hi i).trans (if_pos rfl)), ?_⟩
            exact openSend_iff.mpr ⟨h', congrArg Phase.wal hlogged, hid.symm⟩
          · have hcurrent : (view p.world).store.handle id = some g' := by
              have hmark := hsent ha
              rcases hsite with rfl | rfl <;> simpa [sentRecorded, ← hid] using hmark
            exact still (fun h'' hw' _ => hkept h'' hw' ▸ hs) (ih hcurrent hs')
        · have hbefore : (view p.world).store.handle id = some g := by simpa [hid] using hg
          exact still (fun h'' hw' hid' => absurd (hkept h'' hw' ▸ hid'.symm) hid) (ih hbefore hs)

/-- Calls in any interleaving, where the record of this handle as sent is written, and so is that
of every refused broadcast, and a cancel of it writes over the record that is stored. -/
abbrev recordingCalls (id : HandleId) : System ports World Call CallResult :=
  Call.client.system fun p _ e => rejectWritten e ∧ sentRecorded id p.world e

/-- **Every broadcast, unmined handle can be bumped**, once the outcome of its broadcast is
recorded: in every interleaving of calls with any other failures, a stored handle of the account
that is live, not mined and not being displaced, and has no send that is under way or was cut off
between its record and the record of its outcome, is stored as sent; and a finished `escalate`
has made an attempt for it if it is old enough. -/
theorem live_handle_bumped {p : CallPool} {g : TxHandle}
    (h : (recordingCalls g.id).Reaches Client.start p)
    (hclosed : ∀ th ∈ p.threads, openSend g.id th.past = false)
    (hg : p.world.store.handle g.id = some g) (hlive : g.status.isTerminal = false)
    (hmined : ∀ b bh, g.status ≠ .mined b bh) (hdisplaced : ∀ b, g.status ≠ .replacing b)
    {e : AccountExecutor} (haccount : g.account = e.account) {es : List PortEvent}
    (hrun : e.escalate.run.Trace es (.ok ())) (hcan : p.world.Admits es) :
    g.status = .sent ∧ ∃ now rounds, Escalated e now rounds es ∧
      (e.bumpTimeout ≤ now - g.lastBroadcastAt → Attempted e now rounds g) := by
  have hne : g.status ≠ .pending := fun hs => by
    have hruns : Call.client.Runs (recordingCalls g.id) id := Client.system_runs _ _
    obtain ⟨th, hth, hopen⟩ := hruns.open_of_pending Client.fresh_start (fun ha => ha.2.2)
      (fun ha => ha.2.1) h hg hs
    simp [hclosed th hth] at hopen
  have hsent : g.status = .sent := by
    cases hs : g.status with
    | sent => rfl
    | pending => exact absurd hs hne
    | mined b bh => exact absurd hs (hmined b bh)
    | replacing b => exact absurd hs (hdisplaced b)
    | confirmed | failed | replaced | dropped => simp [hs, TxStatus.isTerminal] at hlive
  obtain ⟨now, rounds, hescalated⟩ := exists_escalated hrun
  exact ⟨hsent, now, rounds, hescalated,
    fun hold => (hescalated.attempted_iff hcan hg haccount hold).mpr hsent⟩

end Law

section EscalationRuns

attribute [local instance] Toy.alloy

/-- The bytes of the handle are given to the submission strategy by a send or by `recover`. -/
def handsOut (id : HandleId) : PortEvent → Bool
  | ⟨.submit _ _ (.send _ h), _⟩ | ⟨.submit _ _ (.recover h), _⟩ => h.id = id
  | _ => false

/-- `escalate`, run to its end on the store of this world. -/
def escalatedOn (w : World) : Option (Except ExecutorError Unit × World) :=
  World.finish (World.serve Toy.before.asked) Toy.executor.escalate.run w

theorem exists_trace_of_escalatedOn {w : World} (h : (escalatedOn w).any (·.1.isOk)) :
    ∃ es, Toy.executor.escalate.run.Trace es (.ok ()) ∧ w.Admits es := by
  obtain ⟨⟨r, w'⟩, hrun, hok⟩ := (Option.any_eq_true _ _).mp h
  match r, hok with
  | .ok (), _ => exact World.exists_trace_of_finish hrun

/-- A send, and a tick that broadcasts it again before its outcome is recorded. -/
def sentAmidTick : CallPool :=
  System.played (S := recordingCalls Toy.sentId) Client.start
    [.spawn (.send Toy.manager Toy.intent .default none),
      .moves 0 10 () (World.serve Toy.calm),
      .spawn (.tick { Toy.executor with bumpTimeout := 1000 }),
      .moves 1 40 () (World.serve Toy.calm),
      .moves 0 40 () (World.serve Toy.calm)]

theorem live_handle_bumped_sent : ∃ es now rounds g,
    sentAmidTick.world.store.handle g.id = some g ∧
      2 ≤ sentAmidTick.world.log.countP (handsOut g.id) ∧ g.status = .sent ∧
      Escalated Toy.executor now rounds es ∧ Attempted Toy.executor now rounds g := by
  have hreach : (recordingCalls Toy.sentId).Reaches Client.start sentAmidTick :=
    System.reaches_played _ _
  have hhas : sentAmidTick.world.store.has fun g => g.id = Toy.sentId && g.status = .sent &&
      g.account = Toy.account && decide (2 ≤ sentAmidTick.world.log.countP (handsOut g.id)) := by
    decide +kernel
  have hclosed : ∀ th ∈ sentAmidTick.threads, openSend Toy.sentId th.past = false := by
    decide +kernel
  obtain ⟨g, hg, hkind⟩ := Store.exists_of_has hhas
  simp only [Bool.and_eq_true, decide_eq_true_eq] at hkind
  obtain ⟨⟨⟨hid, hsent⟩, haccount⟩, hout⟩ := hkind
  have hescalated : (escalatedOn sentAmidTick.world).any (·.1.isOk) := by decide +kernel
  obtain ⟨es, hrun, hcan⟩ := exists_trace_of_escalatedOn hescalated
  obtain ⟨-, now, rounds, hrounds, hattempted⟩ := live_handle_bumped (hid ▸ hreach) (hid ▸ hclosed)
    hg (by rw [hsent]; rfl) (by simp [hsent]) (by simp [hsent]) haccount hrun hcan
  exact ⟨es, now, rounds, g, hg, hout, hsent, hrounds, hattempted (Nat.zero_le _)⟩

/-- Calls one at a time, each of which may be cut off, on a chain that tells the truth. -/
abbrev crashingOnChain : System ports Scene Call CallResult :=
  Call.client.onChain fun p i _ _ => i + 1 = p.threads.length

/-- A send, with this answer when its broadcast is recorded, and a tick. -/
def sentThenTicked (r : Except StateStoreError Unit) : Pool ports Scene Call CallResult :=
  System.played (S := crashingOnChain) (Client.startOn Toy.before)
    [.spawn (.send Toy.manager Toy.intent .default none),
      .moves 0 40 Toy.before fun w => fun
        | .putHandle _ (.sent _) => some r
        | o => World.serve Toy.before.asked w.world o,
      .spawn (.tick { Toy.executor with bumpTimeout := 1000 }),
      .moves 1 40 Toy.before fun w => World.serve Toy.before.asked w.world]

/-- A send whose broadcast was not recorded, which a tick has broadcast again since, and which no
`escalate` bumps. -/
theorem stranded_send_never_bumped : ∃ p g, crashingOnChain.Reaches (Client.startOn Toy.before) p ∧
    p.world.world.store.handle g.id = some g ∧ g.account = Toy.executor.account ∧
    p.world.chain.holder g.account g.nonce = none ∧
    2 ≤ p.world.world.log.countP (handsOut g.id) ∧
    (∃ es, Toy.executor.escalate.run.Trace es (.ok ()) ∧ p.world.world.Admits es) ∧
    ∀ es now rounds, Escalated Toy.executor now rounds es → p.world.world.Admits es →
      Toy.executor.bumpTimeout ≤ now - g.lastBroadcastAt ∧
        ¬Attempted Toy.executor now rounds g := by
  have hreach : crashingOnChain.Reaches (Client.startOn Toy.before)
      (sentThenTicked (.error (.backend "down"))) := System.reaches_played _ _
  have hhas : (sentThenTicked (.error (.backend "down"))).world.world.store.has fun g =>
      g.status = .pending && g.account = Toy.account &&
        ((sentThenTicked (.error (.backend "down"))).world.chain.holder g.account g.nonce).isNone &&
        decide (2 ≤ (sentThenTicked (.error (.backend "down"))).world.world.log.countP
          (handsOut g.id)) := by decide +kernel
  obtain ⟨g, hg, hkind⟩ := Store.exists_of_has hhas
  simp only [Bool.and_eq_true, decide_eq_true_eq, Option.isNone_iff_eq_none] at hkind
  obtain ⟨⟨⟨hpending, haccount⟩, hopen⟩, hout⟩ := hkind
  have hescalated : (escalatedOn (sentThenTicked
      (.error (.backend "down"))).world.world).any (·.1.isOk) := by decide +kernel
  refine ⟨_, g, hreach, hg, haccount, hopen, hout, exists_trace_of_escalatedOn hescalated,
    fun es now rounds h hcan => ⟨Nat.zero_le _, fun hattempt => ?_⟩⟩
  have hsent := (h.attempted_iff hcan hg haccount (Nat.zero_le _)).mp hattempt
  cases hpending.symm.trans hsent

end EscalationRuns

end WalletKit
