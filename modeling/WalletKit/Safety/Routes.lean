import WalletKit.Adapters.Submission
import WalletKit.Runtime.Toy
import WalletKit.Runtime.Wallet

/-!
# Broadcast routes

Every version of a record can be traced in the log to the record that was first written for
it, and a cancel to its target. Along such a line the route changes at most once, when a bump
leaves a private route that promised to; every broadcast of the line goes out on the route the
line is on. A refill starts a new line, on the default route and without a context.
-/
namespace WalletKit

open Machine

/-- The first record of a transaction or a task. -/
def PutSite.isFirst : PutSite → Bool
  | .wal _ | .task => true
  | _ => false

/-- A bump of this handle leaves its route. -/
def escalates (h : TxHandle) : Bool := AccountExecutor.bumpRoute h ≠ h.submission.route

/-- `Line log route escalated h`: in the log, `h` is a version of a record first written with
this route, or of a cancel of such a record; `escalated` when a bump left the route. -/
inductive Line (log : List PortEvent) : SubmissionRoute → Bool → TxHandle → Prop where
  | first {h : TxHandle} {site : PutSite} : ev (.putHandle h site) (.ok ()) ∈ log →
      site.isFirst → Line log h.submission.route false h
  | version {h h' : TxHandle} {site : PutSite} {route : SubmissionRoute} {escalated : Bool} :
      ev (.putHandle h' site) (.ok ()) ∈ log → site.basis = some h → (∀ g, site ≠ .bump g) →
      Line log route escalated h → Line log route escalated h'
  | bump {h h' : TxHandle} {route : SubmissionRoute} {escalated : Bool} :
      ev (.putHandle h' (.bump h)) (.ok ()) ∈ log → Line log route escalated h →
      Line log route (escalated || escalates h) h'
  | cancel {c marked : TxHandle} {route : SubmissionRoute} {escalated : Bool} :
      ev (.putHandle c (.cancelNew marked)) (.ok ()) ∈ log → Line log route escalated marked →
      Line log route escalated c

/-- The route a line is on: the one it began with, or the public one after a bump left a
private route that falls through to it. -/
def OnRoute (first : SubmissionRoute) (escalated : Bool) (route : SubmissionRoute) : Prop :=
  if escalated then route = .public ∧
    ∃ relay cycles, first = .private relay ∧ relay.escalation = .publicAfter cycles
  else route = first

theorem Line.mono {log log' : List PortEvent} {route : SubmissionRoute} {escalated : Bool}
    {h : TxHandle} (hl : Line log route escalated h) (hsub : ∀ e ∈ log, e ∈ log') :
    Line log' route escalated h := by
  induction hl with
  | first he hf => exact .first (hsub _ he) hf
  | version he hb hn _ ih => exact .version (hsub _ he) hb hn ih
  | bump he _ ih => exact .bump (hsub _ he) ih
  | cancel he _ ih => exact .cancel (hsub _ he) ih

/-- A bump stays on the route, or leaves a private one for the public one. -/
theorem OnRoute.bump {first : SubmissionRoute} {escalated : Bool} {h : TxHandle}
    (hr : OnRoute first escalated h.submission.route) :
    OnRoute first (escalated || escalates h) (AccountExecutor.bumpRoute h) := by
  cases escalated with
  | true =>
    obtain ⟨hpublic, hfirst⟩ := hr
    exact ⟨by simp [AccountExecutor.bumpRoute, hpublic], hfirst⟩
  | false =>
    obtain rfl : h.submission.route = first := hr
    by_cases hescalates : escalates h
    · rw [hescalates]
      unfold escalates AccountExecutor.bumpRoute at hescalates
      unfold AccountExecutor.bumpRoute
      cases hroute : h.submission.route with
      | «public» => simp [hroute] at hescalates
      | «private» relay =>
        cases hrelay : relay.escalation with
        | stayPrivate => simp [hroute, hrelay] at hescalates
        | publicAfter cycles =>
          by_cases hcycles : cycles ≤ h.broadcasts.length
          · exact ⟨by simp [hrelay, hcycles], relay, cycles, rfl, hrelay⟩
          · simp [hroute, hrelay, hcycles] at hescalates
    · have hsame : AccountExecutor.bumpRoute h = h.submission.route := by
        simpa [escalates] using hescalates
      simpa [OnRoute, hescalates] using hsame

section Lines

variable [Alloy] {W C α : Type} {cl : Client C α} {S : System ports W C α} {view : W → World}
  {p₀ p : Pool ports W C α}

/-- All but a bump keep the route of the record they start from. -/
theorem PutOwes.submission {role : Role} {past : List PortEvent} {h h' : TxHandle}
    {site : PutSite} (hput : PutOwes role past h' site) (hb : site.basis = some h)
    (hbump : ∀ g, site ≠ .bump g) : h'.submission = h.submission := by
  cases hput.version hb with
  | bumped => exact absurd rfl (hbump h)
  | _ => rfl

/-- A record of a line has the route the line is on. -/
theorem Client.Runs.line_route (hS : cl.Runs S view) (h₀ : Backed.Fresh view p₀)
    (h : S.Reaches p₀ p) {route : SubmissionRoute} {escalated : Bool} {g : TxHandle}
    (hl : Line (view p.world).log route escalated g) :
    OnRoute route escalated g.submission.route := by
  induction hl with
  | first => rfl
  | version he hb hn _ ih =>
    obtain ⟨role, past, howes⟩ := hS.put_owed h₀ h he
    rwa [howes.submission hb hn]
  | bump he _ ih =>
    obtain ⟨role, past, e, approval, now, rlp, -, rfl, -⟩ := hS.put_owed h₀ h he
    exact ih.bump
  | cancel he _ ih =>
    obtain ⟨role, past, m, approval, now, signed, -, rfl, -⟩ := hS.put_owed h₀ h he
    exact ih

/-- Every record that a call knows has its line. -/
theorem Client.Runs.line_exists (hS : cl.Runs S view) (h₀ : Backed.Fresh view p₀)
    (h : S.Reaches p₀ p) {th : Thread ports C α} (hth : th ∈ p.threads) {g : TxHandle}
    (hg : Known th.past g) : ∃ route escalated, Line (view p.world).log route escalated g := by
  refine (hS.handles (P := fun l g => ∃ route escalated, Line l route escalated g) h₀
    (fun l e g ⟨route, escalated, hl⟩ => ⟨route, escalated, hl.mono fun x hx =>
      List.mem_append_left _ hx⟩)
    (fun {p th h' site k role} hreach hth hprog hrole howes hknown => ?_) h).2 th hth g hg
  have hmem : ev (.putHandle h' site) (.ok ()) ∈
      (view p.world).log ++ [ev (.putHandle h' site) (.ok ())] := by simp
  have grown : ∀ {g route escalated}, Line (view p.world).log route escalated g →
      Line ((view p.world).log ++ [ev (.putHandle h' site) (.ok ())]) route escalated g :=
    fun hl => hl.mono fun x hx => List.mem_append_left _ hx
  cases hb : site.basis with
  | some g =>
    obtain ⟨route, escalated, hl⟩ := hknown g (howes.known hb)
    by_cases hbump : ∃ g', site = .bump g'
    · obtain ⟨g', rfl⟩ := hbump
      obtain rfl : g' = g := Option.some.inj hb
      exact ⟨_, _, .bump hmem (grown hl)⟩
    · exact ⟨_, _, .version hmem hb (fun g' he => hbump ⟨g', he⟩) (grown hl)⟩
  | none =>
    cases site with
    | wal | task => exact ⟨_, _, .first hmem rfl⟩
    | cancelNew marked =>
      obtain ⟨m, approval, now, signed, -, -, -, ⟨target, -, -, -, -, hstored⟩, -⟩ := howes
      obtain ⟨route, escalated, hl⟩ := hknown marked hstored.known
      exact ⟨_, _, .cancel hmem (grown hl)⟩
    | _ => cases hb

end Lines

section Privacy

/-- A broadcast that leaves the route of its handle. -/
def SubmitSite.escalates : SubmitSite → Bool
  | .bump h => WalletKit.escalates h
  | _ => false

/-- Some call is about to broadcast with these options from this place. -/
def Submits {C α : Type} (p : Pool ports World C α) (opts : SubmissionOpts) (site : SubmitSite) :
    Prop := ∃ i rlp, p.next? i = some (.submit rlp opts site)

/-- The router has no use for the public mempool. -/
def StaysPrivate (opts : SubmissionOpts) : Prop :=
  opts.route ≠ .public ∧ ∀ hasPrivate d answer,
    Router.submit hasPrivate opts { d with mempool := answer } = Router.submit hasPrivate opts d

theorem staysPrivate {opts : SubmissionOpts} {relay : PrivateRoute}
    (h : opts.route = .private relay) : StaysPrivate opts := by
  refine ⟨by simp [h], fun hasPrivate d answer => ?_⟩
  unfold Router.submit
  rw [h]
  cases relay <;> rfl

variable [Alloy]

/-- **Route privacy over a handle's life**: in any interleaving of sends, cancels and ticks,
with restarts among them, a broadcast of a handle or of its cancel goes out on the route the
handle was sent with, unless that route is private with a fall-through and a bump escalated
it. A handle that is to stay private is never given to the public mempool. -/
theorem route_privacy {p : CallPool} (h : interleavedCalls.Reaches Client.start p)
    {opts : SubmissionOpts} {site : SubmitSite} (hs : Submits p opts site) :
    (∃ route escalated, Line p.world.log route escalated site.handle) ∧
    ∀ route escalated, Line p.world.log route escalated site.handle →
      OnRoute route (escalated || site.escalates) opts.route ∧
      ∀ relay, route = .private relay → relay.escalation = .stayPrivate → StaysPrivate opts := by
  have hruns : Call.client.Runs interleavedCalls id := Client.system_runs _ _
  obtain ⟨i, rlp, hnext⟩ := hs
  obtain ⟨th, hth, k, hprog⟩ := Pool.exists_thread_of_next? hnext
  obtain ⟨role, -, howes⟩ := hruns.owes Client.fresh_start h hth hprog
  -- each place broadcasts on the route of its handle, but for a bump
  have hplace : Known th.past site.handle ∧ ∀ route escalated,
      OnRoute route escalated site.handle.submission.route →
        OnRoute route (escalated || site.escalates) opts.route := by
    cases site with
    | send origin wal =>
      obtain ⟨m, -, -, -, rfl, hlast⟩ := howes
      exact ⟨⟨_, List.mem_of_getLast? hlast, .inr rfl⟩, fun route escalated hr => by
        simpa [SubmitSite.escalates, SubmitSite.handle] using hr⟩
    | recover g =>
      obtain ⟨e, -, -, rfl, -, -, before, hs, after, hpast, hmem, -⟩ := howes
      refine ⟨⟨ev (.pendingHandles e.account) (.ok hs), by simp [hpast], .inl ⟨hs, rfl, hmem⟩⟩,
        fun route escalated hr => by simpa [SubmitSite.escalates, SubmitSite.handle] using hr⟩
    | cancel marked =>
      obtain ⟨m, approval, now, -, rfl, ⟨target, -, -, -, -, hstored⟩, -⟩ := howes
      exact ⟨hstored.known, fun route escalated hr => by
        simpa [SubmitSite.escalates, SubmitSite.handle] using hr⟩
    | bump g =>
      obtain ⟨e, approval, now, -, rfl, hsigned⟩ := howes
      exact ⟨hsigned.1.known, fun route escalated hr => hr.bump⟩
  refine ⟨hruns.line_exists Client.fresh_start h hth hplace.1, fun route escalated hl => ?_⟩
  have hon := hplace.2 route escalated (hruns.line_route Client.fresh_start h hl)
  refine ⟨hon, ?_⟩
  rintro relay rfl hstay
  unfold OnRoute at hon
  split at hon
  · obtain ⟨-, relay', cycles, hrelay, hafter⟩ := hon
    cases hrelay
    simp [hstay] at hafter
  · exact staysPrivate hon

end Privacy

section PrivacyRuns

attribute [local instance] Toy.alloy

/-- A route that is to stay private. -/
def Toy.shielded : SubmissionOpts :=
  ⟨.private (.flashbots ⟨.stayPrivate, none, false, ⟨false, false, false, false⟩⟩)⟩

/-- A private send, and a restarted executor about to broadcast it again. -/
def shieldedRecover : CallPool :=
  System.played (S := interleavedCalls) Client.start
    [.spawn (.send Toy.manager Toy.intent Toy.shielded none), .moves 0 40 () (World.serve Toy.calm),
      .spawn (.tick { Toy.executor with id := 1 }), .moves 1 40 () (Toy.heldAt fun _ => true)]

/-- The broadcast that call `i` is about to make. -/
def broadcastOf? (p : CallPool) (i : Nat) : Option (SubmissionOpts × SubmitSite) :=
  match p.next? i with
  | some (.submit _ opts site) => some (opts, site)
  | _ => none

theorem submits_of_broadcastOf? {p : CallPool} {i : Nat} {opts : SubmissionOpts} {site : SubmitSite}
    (h : broadcastOf? p i = some (opts, site)) : Submits p opts site := by
  unfold broadcastOf? at h
  split at h
  · cases h
    exact ⟨i, _, ‹_›⟩
  · cases h

theorem route_privacy_recover : ∃ opts site, Submits shieldedRecover opts site ∧
    opts = Toy.shielded ∧ ∃ route escalated,
      Line shieldedRecover.world.log route escalated site.handle ∧
      OnRoute route (escalated || site.escalates) opts.route := by
  have hreach : interleavedCalls.Reaches Client.start shieldedRecover := System.reaches_played _ _
  have hnext : (broadcastOf? shieldedRecover 1).any fun b => b.1 = Toy.shielded := by
    decide +kernel
  obtain ⟨⟨opts, site⟩, hb, hopts⟩ := (Option.any_eq_true _ _).mp hnext
  have hs := submits_of_broadcastOf? hb
  obtain ⟨⟨route, escalated, hl⟩, hall⟩ := route_privacy hreach hs
  exact ⟨opts, site, hs, of_decide_eq_true hopts, route, escalated, hl, (hall _ _ hl).1⟩

end PrivacyRuns

section Refills

variable [Alloy]

/-- Some call is about to broadcast the refill `child` of the displaced handle. -/
def SubmitsRefill (p : WalletPool) (displaced child : TxHandle) (opts : SubmissionOpts) : Prop :=
  Submits p opts (.send (.refill displaced) child)

/-- The refill that is about to go out was logged for a handle just stored as replaced. -/
theorem Client.Runs.refill_settled {C α : Type} {cl : Client C α} {S : System ports World C α}
    (hS : cl.Runs S id) {errand : C → Errand} (hset : cl.Settles errand)
    {p₀ p : Pool ports World C α} (h₀ : Backed.Fresh id p₀) (h : S.Reaches p₀ p)
    {displaced child : TxHandle} {opts : SubmissionOpts}
    (hs : Submits p opts (.send (.refill displaced) child)) :
    opts = child.submission ∧ ∃ th ∈ p.threads, ∃ before,
      th.past = before ++ [ev (.putHandle child (.wal (.refill displaced))) (.ok ())] ∧
      Refills before displaced child := by
  obtain ⟨i, rlp, hnext⟩ := hs
  obtain ⟨th, hth, k, hprog⟩ := Pool.exists_thread_of_next? hnext
  obtain ⟨role, -, m, -, -, -, hopts, hlast⟩ := hS.owes h₀ h hth hprog
  obtain ⟨before, hpast⟩ := List.getLast?_eq_some_iff.mp hlast
  exact ⟨hopts, th, hth, before, hpast, hS.settled hset h₀ h hth hpast⟩

/-- **Refill keeps route and context** only where there is nothing to keep: the child of a
displaced handle goes out on that handle's route and carries its context if and only if the
handle was on the default route and had no context. -/
theorem refill_keeps_route_and_context_iff (w : Wallet) {p : WalletPool}
    (h : w.calls.Reaches Client.start p) {displaced child : TxHandle} {opts : SubmissionOpts}
    (hs : SubmitsRefill p displaced child opts) :
    opts = displaced.submission ∧ child.meta = displaced.meta ↔
      displaced.submission = .default ∧ displaced.meta = none := by
  have hruns : w.client.Runs w.calls id := Client.system_runs _ _
  obtain ⟨rfl, th, -, before, -, hrefills⟩ :=
    hruns.refill_settled w.client_settles Client.fresh_start h hs
  rw [hrefills.submission, hrefills.context]
  exact and_congr eq_comm eq_comm

end Refills

section RefillRuns

attribute [local instance] Toy.alloy

/-- The child that the second call is about to broadcast, with its displaced handle. -/
def refill? (p : WalletPool) (i : Nat) : Option (TxHandle × TxHandle × SubmissionOpts) :=
  match p.next? i with
  | some (.submit _ opts (.send (.refill displaced) child)) => some (displaced, child, opts)
  | _ => none

theorem submitsRefill_of_refill? {p : WalletPool} {i : Nat} {displaced child : TxHandle}
    {opts : SubmissionOpts} (h : refill? p i = some (displaced, child, opts)) :
    SubmitsRefill p displaced child opts := by
  unfold refill? at h
  split at h
  · cases h
    exact ⟨i, _, ‹_›⟩
  · cases h

/-- All broadcasts but those of refills are answered. -/
def untilRefill (others : (o : Op) → Option o.Reply) (w : World) : (o : Op) → Option o.Reply
  | .submit _ _ (.send (.refill _) _) => none
  | o => World.serve others w o

/-- A send that is displaced, and a tick about to broadcast its refill. -/
def refillOf (opts : SubmissionOpts) : WalletPool :=
  System.played (S := Toy.wallet.calls) Client.start
    [.spawn (.sendWith Toy.intent opts), .moves 0 40 () (World.serve Toy.calm),
      .spawn .tick, .moves 1 40 () (World.serve (Toy.chain 10 5 none)),
      .spawn .tick, .moves 2 60 () (untilRefill (Toy.chain 20 5 none))]

theorem refill_keeps_route_and_context_public : ∃ displaced child opts,
    SubmitsRefill (refillOf .default) displaced child opts ∧
      displaced.submission = .default ∧ displaced.meta = none ∧
      (opts = displaced.submission ∧ child.meta = displaced.meta ↔
        displaced.submission = .default ∧ displaced.meta = none) := by
  have hreach : Toy.wallet.calls.Reaches Client.start (refillOf .default) :=
    System.reaches_played _ _
  have hnext : (refill? (refillOf .default) 2).any fun r =>
      r.1.submission = .default && r.1.meta = none := by decide +kernel
  obtain ⟨⟨displaced, child, opts⟩, hr, hkept⟩ := (Option.any_eq_true _ _).mp hnext
  have hs := submitsRefill_of_refill? hr
  simp only [Bool.and_eq_true, decide_eq_true_eq] at hkept
  exact ⟨displaced, child, opts, hs, hkept.1, hkept.2,
    refill_keeps_route_and_context_iff Toy.wallet hreach hs⟩

theorem refill_of_private_goes_public : ∃ p displaced child opts,
    Toy.wallet.calls.Reaches Client.start p ∧ SubmitsRefill p displaced child opts ∧
      displaced.submission = Toy.shielded ∧ opts.route = .public := by
  have hreach : Toy.wallet.calls.Reaches Client.start (refillOf Toy.shielded) :=
    System.reaches_played _ _
  have hnext : (refill? (refillOf Toy.shielded) 2).any fun r =>
      r.1.submission = Toy.shielded && r.2.2.route = .public := by decide +kernel
  obtain ⟨⟨displaced, child, opts⟩, hr, hleak⟩ := (Option.any_eq_true _ _).mp hnext
  simp only [Bool.and_eq_true, decide_eq_true_eq] at hleak
  exact ⟨_, displaced, child, opts, hreach, submitsRefill_of_refill? hr, hleak⟩

end RefillRuns

end WalletKit
