import WalletKit.Provenance.Settlement
import WalletKit.Runtime.Runs

/-!
# Calls into the wallet core

A `Client` is a family of calls whose programs owe their history in the roles they play.
What its calls owe is known of every call of every run, whatever else a system says about
who may move and what is answered. The entry points of managers and executors are such a
client: any number of them, over one store and one process memory.
-/
namespace WalletKit

open Machine

variable [Alloy]

/-- Calls that owe their history in the roles they play. -/
structure Client (C α : Type) where
  body : C → Io α
  Plays : C → Role → Prop
  Ends : C → α → List PortEvent → Prop
  history : ∀ c, (body c).wp
    (.history fun past o => ∃ role, Plays c role ∧ Owes role past o) (Ends c) []

namespace Client

variable {W C α : Type} {cl : Client C α} {S : System ports W C α} {view : W → World}
  {p₀ p : Pool ports W C α}

/-- The runs of `S` are runs of the client's calls over a store. -/
structure Runs (cl : Client C α) (S : System ports W C α) (view : W → World) : Prop
    extends Backed S view where
  body : S.body = cl.body

/-- What a call that is about to do `o` owes to its past. -/
theorem Runs.owes (hS : cl.Runs S view) (h₀ : Backed.Fresh view p₀) (h : S.Reaches p₀ p)
    {th : Thread ports C α} (hth : th ∈ p.threads) {o : Op} {k : o.Reply → Io α}
    (hprog : th.prog = .call o k) : ∃ role, cl.Plays th.call role ∧ Owes role th.past o := by
  have hist := h.history (fun c => hS.body ▸ cl.history c) h₀.1 th hth
  rw [hprog] at hist
  exact (Prog.wp_history_call.mp hist).1

/-- What a call owed to its past when it did what it has done. -/
theorem Runs.owed (hS : cl.Runs S view) (h₀ : Backed.Fresh view p₀) (h : S.Reaches p₀ p)
    {th : Thread ports C α} (hth : th ∈ p.threads) {before after : List PortEvent} {e : PortEvent}
    (hpast : th.past = before ++ e :: after) :
    ∃ role, cl.Plays th.call role ∧ Owes role before e.op :=
  System.Reaches.owed h (fun c => hS.body ▸ cl.history c) h₀.1 th hth before e after hpast

/-- The calls owe the history of their errands too. -/
def Settles (cl : Client C α) (errand : C → Errand) : Prop :=
  ∀ c, (cl.body c).wp (.history (SettleOwes (errand c))) (fun _ _ => True) []

theorem Runs.settled (hS : cl.Runs S view) {errand : C → Errand} (hset : cl.Settles errand)
    (h₀ : Backed.Fresh view p₀) (h : S.Reaches p₀ p) {th : Thread ports C α} (hth : th ∈ p.threads)
    {before after : List PortEvent} {e : PortEvent} (hpast : th.past = before ++ e :: after) :
    SettleOwes (errand th.call) before e.op :=
  System.Reaches.owed h (fun c => hS.body ▸ hset c) h₀.1 th hth before e after hpast

theorem Runs.settles (hS : cl.Runs S view) {errand : C → Errand} (hset : cl.Settles errand)
    (h₀ : Backed.Fresh view p₀) (h : S.Reaches p₀ p) {th : Thread ports C α} (hth : th ∈ p.threads)
    {o : Op} {k : o.Reply → Io α} (hprog : th.prog = .call o k) :
    SettleOwes (errand th.call) th.past o := by
  have hist := h.history (fun c => hS.body ▸ hset c) h₀.1 th hth
  rw [hprog] at hist
  exact (Prog.wp_history_call.mp hist).1

/-- What is known of a call that has returned. -/
theorem Runs.ended (hS : cl.Runs S view) (h₀ : Backed.Fresh view p₀) (h : S.Reaches p₀ p)
    {th : Thread ports C α} (hth : th ∈ p.threads) {a : α} (hprog : th.prog = .ret a) :
    cl.Ends th.call a th.past := by
  have hist := h.history (fun c => hS.body ▸ cl.history c) h₀.1 th hth
  rwa [hprog] at hist

/-- The calls of a client over a store, where `env` says which answers are given to whom. -/
def system (cl : Client C α) (env : Pool ports World C α → Nat → PortEvent → Prop) :
    System ports World C α where
  Choice := Unit
  body := cl.body
  admits _ _ := True
  allow p i _ o r := p.world.can ⟨o, r⟩ ∧ env p i ⟨o, r⟩
  next w _ o r := w.apply ⟨o, r⟩

theorem system_runs (cl : Client C α) (env : Pool ports World C α → Nat → PortEvent → Prop) :
    cl.Runs (cl.system env) id where
  can ha := ha.1
  next _ := rfl
  body := rfl

instance (cl : Client C α) (env : Pool ports World C α → Nat → PortEvent → Prop)
    [∀ p i e, Decidable (env p i e)] (p : Pool ports World C α) (i : Nat)
    (x : (cl.system env).Choice) (o : ports.Op) (r : ports.Reply o) :
    Decidable ((cl.system env).allow p i x o r) :=
  inferInstanceAs (Decidable (_ ∧ _))

instance (cl : Client C α) (env : Pool ports World C α → Nat → PortEvent → Prop)
    (p : Pool ports World C α) (c : C) : Decidable ((cl.system env).admits p c) :=
  inferInstanceAs (Decidable True)

/-- Calls one at a time, each of which may be cut off anywhere: once the next one is made,
the ones before it do not move again. -/
def sequential (cl : Client C α) (env : World → PortEvent → Prop) : System ports World C α :=
  cl.system fun p i e => i + 1 = p.threads.length ∧ env p.world e

theorem sequential_runs (cl : Client C α) (env : World → PortEvent → Prop) :
    cl.Runs (cl.sequential env) id := cl.system_runs _

theorem sequential_sequential (cl : Client C α) (env : World → PortEvent → Prop) :
    (cl.sequential env).Sequential := fun _ _ _ _ _ ha => ha.2.1

/-- Nothing has been called yet. -/
def start : Pool ports World C α := ⟨.initial, []⟩

omit [Alloy] in
theorem fresh_start : Backed.Fresh id (start : Pool ports World C α) := ⟨rfl, rfl⟩

end Client

inductive Call where
  | send (m : TransactionManager) (intent : TxIntent) (opts : SubmissionOpts)
      (context : Option MetaContext)
  | cancel (m : TransactionManager) (id : HandleId)
  | recover (e : AccountExecutor)
  | confirm (e : AccountExecutor)
  | escalate (e : AccountExecutor)
  | tick (e : AccountExecutor)

inductive CallResult where
  | handle (r : Except TransactionManagerError TxHandle)
  | done (r : Except ExecutorError Unit)

namespace Call

def body : Call → Io CallResult
  | .send m intent opts context => .handle <$> (m.sendWithMeta intent opts context .direct).run
  | .cancel m id => .handle <$> (m.cancel id).run
  | .recover e => .done <$> e.recover.run
  | .confirm e => .done <$> e.confirm.run
  | .escalate e => .done <$> e.escalate.run
  | .tick e => .done <$> e.tick.run

def role : Call → Role
  | .send m _ _ _ | .cancel m _ => .manager m
  | .recover e | .confirm e | .escalate e | .tick e => .executor e

omit [Alloy] in
theorem role_ne_relayed (c : Call) : c.role ≠ .relayed := by cases c <;> simp [role]

/-- What is known of the history of a call that has returned. -/
def Ends (c : Call) (r : CallResult) (past : List PortEvent) : Prop :=
  Done past ∧ ∀ m id h, c = .cancel m id → r = .handle (.ok h) →
    TransactionManager.CancelEnds id (.ok h) past

/-- Every call owes its history to what it writes, swaps and broadcasts. -/
theorem body_history (c : Call) : c.body.wp (.history (Owes c.role)) c.Ends [] := by
  have start : Done [] := done_of_idle rfl
  have executor : ∀ (e : AccountExecutor) (x : TickM Unit) (c : Call),
      (∀ m id, c ≠ .cancel m id) → x.run.wp (.history (Owes (.executor e))) (fun _ => Done) [] →
      (CallResult.done <$> x.run).wp (.history (Owes (.executor e))) c.Ends [] :=
    fun e x c hc hx => Prog.wp_map.mpr (Prog.wp_mono hx fun _ _ hd =>
      ⟨hd, fun m id _ he => absurd he (hc m id)⟩)
  cases c with
  | send m intent opts context =>
    exact Prog.wp_map.mpr (Prog.wp_mono (TransactionManager.sendWithMeta_history rfl start)
      fun r past hd => ⟨hd, by rintro _ _ _ ⟨⟩⟩)
  | cancel m id =>
    refine Prog.wp_map.mpr (Prog.wp_mono (TransactionManager.cancel_history rfl (by
      simp [TransactionManager.NoUndo])) fun r past hr => ⟨done_of_idle hr.1, ?_⟩)
    rintro _ _ h ⟨rfl⟩ ⟨rfl⟩
    exact hr
  | recover e => exact executor e _ _ (by simp) (AccountExecutor.recover_history start)
  | confirm e => exact executor e _ _ (by simp) (AccountExecutor.confirm_history start)
  | escalate e => exact executor e _ _ (by simp) (AccountExecutor.escalate_history start)
  | tick e => exact executor e _ _ (by simp) (AccountExecutor.tick_history start)

theorem manager_ops {c : Call} {m : TransactionManager} (hc : c.role = .manager m) :
    c.body.Ops ManagerOp := by
  have hhistory := c.body_history
  rw [hc] at hhistory
  exact Prog.ops_of_history hhistory fun _ _ => ManagerOp.of_owes

/-- Sends, cancels and ticks, with the phases of a tick also by themselves. -/
def client : Client Call CallResult where
  body := body
  Plays c role := role = c.role
  Ends := Ends
  history c := Prog.wp_history_imp (body_history c) fun _ _ h => ⟨c.role, rfl, h⟩

def errand : Call → Errand
  | .send _ _ _ context => ⟨none, (· = context)⟩
  | .cancel _ id => ⟨some id, fun _ => False⟩
  | _ => ⟨none, fun _ => False⟩

theorem client_settles : client.Settles errand := by
  intro c
  cases c with
  | send m intent opts context => exact Prog.wp_map.mpr (TransactionManager.sendDirect_settles rfl)
  | cancel m id => exact Prog.wp_map.mpr (TransactionManager.cancel_settles rfl)
  | recover e => exact Prog.wp_map.mpr (plain_history AccountExecutor.recover_plain)
  | confirm e => exact Prog.wp_map.mpr AccountExecutor.confirm_settles
  | escalate e => exact Prog.wp_map.mpr (unowed_history AccountExecutor.escalate_unowed)
  | tick e => exact Prog.wp_map.mpr AccountExecutor.tick_settles

end Call

abbrev CallThread := Thread ports Call CallResult
abbrev CallPool := Pool ports World Call CallResult

/-- Calls in any interleaving, over ports that may answer anything the store can answer. -/
abbrev interleavedCalls : System ports World Call CallResult := Call.client.system fun _ _ _ => True

/-- Calls one at a time over ports that may answer anything the store can answer. -/
def crashingCalls : System ports World Call CallResult := Call.client.sequential fun _ _ => True

instance (p : CallPool) (i : Nat) (x : crashingCalls.Choice) (o : ports.Op) (r : ports.Reply o) :
    Decidable (crashingCalls.allow p i x o r) := inferInstanceAs (Decidable (_ ∧ _ ∧ True))

instance (p : CallPool) (c : Call) : Decidable (crashingCalls.admits p c) :=
  inferInstanceAs (Decidable True)

/-- The newest call is about to broadcast these bytes from this place. -/
def Broadcasts (p : CallPool) (rlp : Bytes) (site : SubmitSite) : Prop :=
  ∃ opts, p.next? (p.threads.length - 1) = some (.submit rlp opts site)

/-- The bytes the newest call is about to broadcast from a place of this kind. -/
def broadcast? (p : CallPool) (kind : SubmitSite → Bool) : Option Bytes :=
  match p.next? (p.threads.length - 1) with
  | some (.submit rlp _ site) => if kind site then some rlp else none
  | _ => none

omit [Alloy] in
theorem broadcasts_of_broadcast? {p : CallPool} {kind : SubmitSite → Bool} {rlp : Bytes}
    (h : broadcast? p kind = some rlp) : ∃ site, kind site ∧ Broadcasts p rlp site := by
  unfold broadcast? at h
  split at h
  · rename_i opts site hnext
    split at h
    · cases h
      exact ⟨site, ‹_›, opts, hnext⟩
    · cases h
  · cases h

end WalletKit
