import WalletKit.Machine.Projection
import WalletKit.Runtime.Toy
import WalletKit.Runtime.Wallet
import WalletKit.Safety.Backends

/-!
# A wallet on a real backend

The runs of a wallet are studied over a store that answers what it holds or fails without a
trace. Here the same wallet runs over a backend, with the backend's own tables, documents and
integers. Whatever it does there it also does over the plain store: a backend answers as the
journal does, or it fails and changes nothing. Only redb needs a condition, that an id is never
written under two accounts, since its index would forget that a record has moved.
-/
namespace WalletKit

open Machine

section Calls

instance Escalation.decidableTyped (e : Escalation) : Decidable e.Typed :=
  inferInstanceAs (Decidable (∀ n ∈ e.numbers, n < 2 ^ 8))

instance SubmissionRoute.decidableTyped (r : SubmissionRoute) : Decidable r.Typed := by
  unfold SubmissionRoute.Typed
  split <;> infer_instance

instance TxHandle.decidableTyped (h : TxHandle) : Decidable h.Typed :=
  decidable_of_iff (h.intent.chainId < 2 ^ 64 ∧ h.intent.value < 2 ^ 256 ∧ h.nonce < 2 ^ 64 ∧
      (∀ n ∈ h.status.numbers, n < 2 ^ 64) ∧ h.envelope.maxFeeCap < 2 ^ 128 ∧
      h.envelope.maxPriorityCap < 2 ^ 128 ∧ h.lastBroadcastAt < 2 ^ 64 ∧
      h.submission.route.Typed ∧ ∀ m ∈ h.meta, m.nonce < 2 ^ 256) <| by
    constructor
    · rintro ⟨h₁, h₂, h₃, h₄, h₅, h₆, h₇, h₈, h₉⟩
      exact ⟨h₁, h₂, h₃, h₄, h₅, h₆, h₇, h₈, h₉⟩
    · rintro ⟨h₁, h₂, h₃, h₄, h₅, h₆, h₇, h₈, h₉⟩
      exact ⟨h₁, h₂, h₃, h₄, h₅, h₆, h₇, h₈, h₉⟩

instance NonceState.decidableTyped (s : NonceState) : Decidable s.Typed :=
  decidable_of_iff (s.next < 2 ^ 64 ∧ ∀ n ∈ s.free, n < 2 ^ 64)
    ⟨fun h => ⟨h.1, h.2⟩, fun h => ⟨h.next, h.free⟩⟩

/-- The call of a store that an operation is. Its arguments are within the types of the source. -/
def Op.storeCall : Op → Option StoreCall
  | .loadNonceState scope => some (.loadNonceState scope)
  | .casNonceState scope n v f _ =>
    if h : n < 2 ^ 64 ∧ v.Typed ∧ f < 2 ^ 64 then
      some (.casNonceState scope ⟨n, h.1⟩ ⟨v, h.2.1⟩ ⟨f, h.2.2⟩)
    else none
  | .putHandle h _ => if ht : h.Typed then some (.putHandle ⟨h, ht⟩) else none
  | .pendingHandles account => some (.pendingHandles account)
  | .handle id => some (.handle id)
  | _ => none

/-- What the caller of an operation gets from a reply; from a panic, nothing. -/
def StoreReply.to (reply : StoreReply) (o : Op) : Option o.Reply :=
  match o, reply with
  | .loadNonceState _, .loaded r => some r
  | .casNonceState _ _ _ _ _, .swapped r => some r
  | .putHandle _ _, .written r => some r
  | .pendingHandles _, .listed r => some r
  | .handle _, .found r => some r
  | _, _ => none

/-- The call has failed: an error, or a panic. -/
def StoreReply.failed : StoreReply → Bool
  | .loaded r => !r.isOk
  | .swapped r => !r.isOk
  | .written r => !r.isOk
  | .listed r => !r.isOk
  | .found r => !r.isOk
  | .panicked => true

/-- An operation that is no call of the store. -/
def Op.storeless : Op → Bool
  | .loadNonceState _ | .casNonceState _ _ _ _ _ | .putHandle _ _ | .pendingHandles _
  | .handle _ => false
  | _ => true

variable {reply : StoreReply} {o : Op} {r : o.Reply}

theorem Op.storeCall_of_storeless (h : o.storeless) : o.storeCall = none := by
  cases o with
  | loadNonceState | casNonceState | putHandle | pendingHandles | handle => cases h
  | _ => rfl

theorem StoreReply.not_working (hto : reply.to o = some r) (hf : reply.failed) :
    World.working ⟨o, r⟩ = false := by
  cases o <;> cases reply <;> cases hto <;> simpa [failed, World.working] using hf

end Calls

section Backends

/-- A backend that answers as the journal does, or fails and stays where it is, on calls that
meet `ok`. -/
structure Faithful (M : Mealy StoreCall StoreReply) (ok : Journal → StoreCall → Prop) where
  rel : M.State → Journal → Prop
  start : rel M.start .empty
  step {s : M.State} {l : Journal} (call : StoreCall) : rel s l → ok l call →
    ((M.step s call).1.Same (l.answer call).1 ∧ rel (M.step s call).2 (l.answer call).2) ∨
      ((M.step s call).1.failed ∧ rel (M.step s call).2 l)

/-- A simulation that breaks off only where the machine fails and stays where it is. -/
def Faithful.ofSimulation {M : Mealy StoreCall StoreReply} {ok fits : Journal → StoreCall → Prop}
    (S : Mealy.Simulation M journal StoreReply.Same fits)
    (hfails : ∀ {s : M.State} {l : Journal} (call : StoreCall), S.rel s l → ok l call →
      ¬fits l call → (M.step s call).1.failed ∧ (M.step s call).2 = s) : Faithful M ok where
  rel := S.rel
  start := S.start
  step {s l} call hrel hok := by
    by_cases hfits : fits l call
    · exact .inl ⟨(S.same_iff call hrel).mpr hfits, S.step call hrel hfits⟩
    · obtain ⟨hfailed, hsame⟩ := hfails call hrel hok hfits
      exact .inr ⟨hfailed, hsame.symm ▸ hrel⟩

variable {l : Journal}

/-- Where the version counter would end, the in-memory store panics. -/
theorem MemoryFollows.fails {s : Store} (h : MemoryFollows s l) (call : StoreCall)
    (hnot : ¬WithinU64 l call) : (s.answer call).1.failed ∧ (s.answer call).2 = s := by
  cases call with
  | casNonceState scope n v f =>
    rw [withinU64_cas] at hnot
    push Not at hnot
    obtain ⟨hf, hn, hlast⟩ := hnot
    have hanswer : s.answer (.casNonceState scope n v f) = (.panicked, s) := by
      simp [Store.answer, h.casNonceState, not_lt.mpr hf, hn, hlast]
    rw [hanswer]
    exact ⟨rfl, rfl⟩
  | _ => exact absurd trivial hnot

/-- In redb the panic is one of a blocking task, which its caller sees as an error. -/
theorem RedbFollows.fails {s : RedbStateStore} (h : RedbFollows s l) (call : StoreCall)
    (hnot : ¬WithinU64 l call) : (s.answer call).1.failed ∧ (s.answer call).2 = s := by
  cases call with
  | casNonceState scope n v f =>
    rw [withinU64_cas] at hnot
    push Not at hnot
    obtain ⟨hf, hn, hlast⟩ := hnot
    have hanswer : s.answer (.casNonceState scope n v f) =
        (.swapped (.error (.task "panicked")), s) := by
      simp [RedbStateStore.answer, h.casNonceState, not_lt.mpr hf, hn, hlast]
    rw [hanswer]
    exact ⟨rfl, rfl⟩
  | _ => exact absurd trivial hnot

/-- Postgres refuses what its columns cannot hold: larger fences look old, larger gas caps and
some texts are not written. -/
theorem PostgresFollows.fails {s : PostgresStateStore} (h : PostgresFollows s l) (call : StoreCall)
    (hnot : ¬Encodable l call) : (s.answer call).1.failed ∧ (s.answer call).2 = s := by
  cases call with
  | casNonceState scope n v f =>
    rw [h.encodable_cas] at hnot
    by_cases hsmall : f.val < 2 ^ 63
    · simp only [hsmall, true_and] at hnot
      push Not at hnot
      obtain ⟨hf, hn, hlast⟩ := hnot
      rw [PostgresStateStore.answer, h.casNonceState scope n v.2 hsmall, if_neg (not_lt.mpr hf),
        if_neg (not_not.mpr hn), if_pos hlast]
      exact ⟨rfl, rfl⟩
    · rw [PostgresStateStore.answer, h.fenced scope n (not_lt.mp hsmall)]
      exact ⟨rfl, rfl⟩
  | putHandle g =>
    obtain ⟨e, he⟩ := putHandle_eq s g
    rw [if_neg] at he
    · rw [PostgresStateStore.answer, he]
      exact ⟨rfl, rfl⟩
    · rintro ⟨hfits, hstorable⟩
      exact hnot ⟨g.2.fits_iff.mp hfits, TxHandle.storable_iff.mp hstorable⟩
  | _ => exact absurd trivial hnot

def memoryFaithful : Faithful inMemory fun _ _ => True :=
  .ofSimulation memorySimulation fun call h _ hnot => MemoryFollows.fails h call hnot

def redbFaithful : Faithful redb Unmoved :=
  .ofSimulation redbSimulation fun call h hunmoved hnot =>
    RedbFollows.fails h call fun hwithin => hnot ⟨hwithin, hunmoved⟩

def postgresFaithful : Faithful postgres fun _ _ => True :=
  .ofSimulation postgresSimulation fun call h _ hnot => PostgresFollows.fails h call hnot

end Backends

section Worlds

variable {M : Mealy StoreCall StoreReply}

/-- A process over a backend. -/
structure Mounted (M : Mealy StoreCall StoreReply) where
  state : M.State
  lastLatest : ExecutorId → Nat
  approvals : ExecutorId → HandleId → Option PolicyApproval
  log : List PortEvent

namespace Mounted

def initial : Mounted M := ⟨M.start, fun _ => 0, fun _ _ => none, []⟩

/-- What the backend answers to an operation. -/
def answers (v : Mounted M) (o : Op) : Option o.Reply :=
  o.storeCall.bind fun call => (M.step v.state call).1.to o

/-- What the memory answers; the other ports may answer anything. -/
def remembers (v : Mounted M) : PortEvent → Bool
  | ⟨.lastLatestLoad x, r⟩ => (r : Nat) = v.lastLatest x
  | ⟨.approvalsGet x i, r⟩ => (r : Option PolicyApproval) = v.approvals x i
  | _ => true

/-- A call of the store gets to the backend, or it does not and has failed. -/
def can (v : Mounted M) (arrives : Bool) (o : Op) (r : o.Reply) : Prop :=
  if o.storeless then v.remembers ⟨o, r⟩ = true
  else if arrives then v.answers o = some r
  else World.working ⟨o, r⟩ = false

def after (v : Mounted M) (arrives : Bool) (e : PortEvent) : Mounted M where
  state :=
    match arrives, e.op.storeCall with
    | true, some call => (M.step v.state call).2
    | _, _ => v.state
  lastLatest := World.lastLatestAfter v.lastLatest e
  approvals := World.approvalsAfter v.approvals e
  log := v.log ++ [e]

end Mounted

/-- The records a log has written. -/
def written (log : List PortEvent) : List TxHandle := log.filterMap wrote

/-- The calls of a client over a backend, where `env` says which answers are given to whom. -/
def Client.over [Alloy] {C α : Type} (cl : Client C α) (M : Mealy StoreCall StoreReply)
    (env : Mounted M → PortEvent → Prop) : System ports (Mounted M) C α where
  Choice := Bool
  body := cl.body
  admits _ _ := True
  allow p _ arrives o r := p.world.can arrives o r ∧ env p.world ⟨o, r⟩
  next v arrives o r := v.after arrives ⟨o, r⟩

/-- Nothing has been called yet. -/
def Client.mounted {C α : Type} : Pool ports (Mounted M) C α := ⟨.initial, []⟩

end Worlds

section Answers

variable {w : World} {s : Store} {l : Journal} {o : Op} {r : o.Reply}

/-- A call that fails is one the plain store may fail too. -/
theorem World.can_of_not_working (h : World.working ⟨o, r⟩ = false) : w.can ⟨o, r⟩ := by
  cases o with
  | loadNonceState | casNonceState | pendingHandles | handle =>
    cases r with
    | error e => rfl
    | ok a => cases h
  | putHandle => rfl
  | _ => cases h

theorem World.storeAfter_of_not_working (h : World.working ⟨o, r⟩ = false) :
    World.storeAfter s ⟨o, r⟩ = s := by
  cases o with
  | casNonceState | putHandle =>
    cases r with
    | error e => rfl
    | ok a => cases h
  | _ => rfl

theorem World.storeAfter_of_storeless (h : o.storeless) : World.storeAfter s ⟨o, r⟩ = s := by
  cases o with
  | casNonceState | putHandle => cases h
  | _ => rfl

theorem Mounted.can_of_remembers {M : Mealy StoreCall StoreReply} {v : Mounted M}
    (h : v.remembers ⟨o, r⟩) (hstoreless : o.storeless)
    (hlast : w.lastLatest = v.lastLatest) (happ : w.approvals = v.approvals) : w.can ⟨o, r⟩ := by
  cases o with
  | loadNonceState | casNonceState | pendingHandles | handle => cases hstoreless
  | lastLatestLoad x => simpa [World.can, hlast, Mounted.remembers] using h
  | approvalsGet x i => simpa [World.can, happ, Mounted.remembers] using h
  | _ => rfl

/-- A swap that is logged is one the plain store makes, whatever its version. -/
theorem MemoryFollows.commit (h : MemoryFollows s l) {scope : NonceScope} {n : Nat}
    {v : NonceState} {f : FenceToken} (hf : l.highest scope ≤ f) (hn : (l.swaps scope).length = n) :
    MemoryFollows { s with nonces := Function.update s.nonces scope (some (⟨v, n + 1⟩, f)) }
      (l.commit scope v f hf) where
  nonces t := by
    rw [Journal.lastSwap_commit, ← Journal.length_swaps, hn]
    by_cases ht : t = scope
    · subst ht
      simp
    · simp [ht, h.nonces]
  handles := h.handles

theorem MemoryFollows.swaps (h : MemoryFollows w.store l) {scope : NonceScope} {n f : U64}
    {v : { s : NonceState // s.Typed }} {note : CasNote} {a : Except StateStoreError Bool}
    (ha : StoreReply.swapped a = (l.answer (.casNonceState scope n v f)).1) :
    w.can (ev (.casNonceState scope n v f note) a) ∧
      MemoryFollows (World.storeAfter w.store (ev (.casNonceState scope n v f note) a))
        (l.answer (.casNonceState scope n v f)).2 := by
  have hcas := h.casNonceState scope n v f
  unfold Journal.answer at ha ⊢
  dsimp only at ha ⊢
  split_ifs at ha ⊢ with hf hn
  · cases ha
    exact ⟨rfl, h⟩
  · cases ha
    rw [if_neg hf, if_pos hn] at hcas
    exact ⟨by simp [ev, World.can, hcas], h⟩
  · cases ha
    rw [if_neg hf, if_neg hn] at hcas
    refine ⟨by simp [ev, World.can, hcas], ?_⟩
    simp only [ev, World.storeAfter, hcas]
    exact h.commit (not_lt.mp hf) (not_not.mp hn)

/-- What the journal answers, the plain store may answer, and it follows the journal then. -/
theorem MemoryFollows.answers (h : MemoryFollows w.store l) {call : StoreCall} {reply : StoreReply}
    (hcall : o.storeCall = some call) (hto : reply.to o = some r)
    (hsame : reply.Same (l.answer call).1) :
    w.can ⟨o, r⟩ ∧ MemoryFollows (World.storeAfter w.store ⟨o, r⟩) (l.answer call).2 := by
  cases o with
  | loadNonceState scope =>
    cases hcall
    cases reply <;> cases hto
    obtain rfl := StoreReply.same_loaded.mp hsame
    exact ⟨by simp [World.can, h.load], h⟩
  | casNonceState scope n v f note =>
    obtain ⟨⟨hn, hv, hf⟩, ⟨⟩⟩ := Option.dite_none_right_eq_some.mp hcall
    cases reply <;> cases hto
    refine h.swaps (n := ⟨n, hn⟩) (f := ⟨f, hf⟩) (v := ⟨v, hv⟩) ?_
    unfold Journal.answer at hsame ⊢
    dsimp only at hsame ⊢
    split_ifs at hsame ⊢ <;> exact congrArg _ (StoreReply.same_swapped.mp hsame)
  | putHandle g site =>
    obtain ⟨ht, ⟨⟩⟩ := Option.dite_none_right_eq_some.mp hcall
    cases reply <;> cases hto
    obtain rfl := StoreReply.same_written.mp hsame
    exact ⟨rfl, h.step (.putHandle ⟨g, ht⟩) trivial⟩
  | pendingHandles account =>
    cases hcall
    cases reply <;> cases hto
    cases r with
    | error e => cases hsame
    | ok hs =>
      have hperm : hs.Perm (l.pending account) := StoreReply.same_listed.mp hsame
      exact ⟨decide_eq_true (hperm.trans (h.pending account).symm), h⟩
  | handle id =>
    cases hcall
    cases reply <;> cases hto
    obtain rfl := StoreReply.same_found.mp hsame
    exact ⟨by simp [World.can, h.handles], h⟩
  | _ => cases hcall

end Answers

section Refinement

variable {M : Mealy StoreCall StoreReply} {ok : Journal → StoreCall → Prop}

/-- The backend and the plain store keep the same journal, of records that were logged. -/
structure Mounted.Shows (F : Faithful M ok) (I : List PortEvent → Prop) (v : Mounted M)
    (w : World) : Prop where
  journal : ∃ l, F.rel v.state l ∧ MemoryFollows w.store l ∧ ∀ h ∈ l.puts, h ∈ written v.log
  kept : I v.log
  lastLatest : w.lastLatest = v.lastLatest
  approvals : w.approvals = v.approvals
  log : w.log = v.log

theorem mem_written_snoc {log : List PortEvent} {e : PortEvent} {h : TxHandle} :
    h ∈ written (log ++ [e]) ↔ h ∈ written log ∨ wrote e = some h := by
  simp [written, List.filterMap_append, eq_comm]

/-- Whatever gets to the log of a backend's journal was logged by its caller. -/
theorem mem_puts_answer {l : Journal} {call : StoreCall} {o : Op} {r : o.Reply} {reply : StoreReply}
    {h : TxHandle} (hcall : o.storeCall = some call) (hto : reply.to o = some r)
    (hsame : reply.Same (l.answer call).1) (hh : h ∈ (l.answer call).2.puts) :
    h ∈ l.puts ∨ wrote ⟨o, r⟩ = some h := by
  cases o with
  | loadNonceState | pendingHandles | handle =>
    cases hcall
    exact .inl hh
  | casNonceState scope n v f note =>
    obtain ⟨⟨hn, hv, hf⟩, ⟨⟩⟩ := Option.dite_none_right_eq_some.mp hcall
    have hputs : (l.answer (.casNonceState scope ⟨n, hn⟩ ⟨v, hv⟩ ⟨f, hf⟩)).2.puts = l.puts := by
      unfold Journal.answer
      dsimp only
      split_ifs <;> rfl
    exact .inl (hputs ▸ hh)
  | putHandle g site =>
    obtain ⟨ht, ⟨⟩⟩ := Option.dite_none_right_eq_some.mp hcall
    cases reply <;> cases hto
    obtain rfl := StoreReply.same_written.mp hsame
    rcases List.mem_cons.mp hh with rfl | hh
    · exact .inr rfl
    · exact .inl hh
  | _ => cases hcall

/-- A call that gets to the backend. -/
theorem Mounted.Shows.arrives {F : Faithful M ok} {I : List PortEvent → Prop} {v : Mounted M}
    {w : World} (hshows : v.Shows F I w)
    (hok : ∀ {l} (call : StoreCall), (∀ h ∈ l.puts, h ∈ written v.log) → ok l call)
    {o : Op} {r : o.Reply} (hanswers : v.answers o = some r) (hkept : I (v.log ++ [⟨o, r⟩])) :
    w.can ⟨o, r⟩ ∧ (v.after true ⟨o, r⟩).Shows F I (w.apply ⟨o, r⟩) := by
  obtain ⟨⟨l, hrel, hmem, hputs⟩, -, hlast, happ, hlog⟩ := hshows
  obtain ⟨call, hcall, hto⟩ := Option.bind_eq_some_iff.mp hanswers
  have hstate : (v.after true ⟨o, r⟩).state = (M.step v.state call).2 := by
    simp [Mounted.after, hcall]
  have logged : ∀ {h}, h ∈ l.puts ∨ wrote ⟨o, r⟩ = some h → h ∈ written (v.log ++ [⟨o, r⟩]) :=
    fun hh => mem_written_snoc.mpr (hh.imp_left (hputs _))
  obtain ⟨hsame, hnext⟩ | ⟨hfailed, hnext⟩ := F.step call hrel (hok call hputs)
  · obtain ⟨hcan, hfollows⟩ := hmem.answers hcall hto hsame
    exact ⟨hcan, ⟨_, hstate ▸ hnext, hfollows, fun h hh =>
        logged (mem_puts_answer hcall hto hsame hh)⟩, hkept, by rw [World.apply, hlast]; rfl,
      by rw [World.apply, happ]; rfl, by rw [World.apply, hlog]; rfl⟩
  · have hnot := StoreReply.not_working hto hfailed
    refine ⟨World.can_of_not_working hnot, ⟨l, hstate ▸ hnext, ?_, fun h hh => logged (.inl hh)⟩,
      hkept, by rw [World.apply, hlast]; rfl, by rw [World.apply, happ]; rfl, by
        rw [World.apply, hlog]; rfl⟩
    rw [World.apply, World.storeAfter_of_not_working hnot]
    exact hmem

/-- A call that leaves the backend alone. -/
theorem Mounted.Shows.aside {F : Faithful M ok} {I : List PortEvent → Prop} {v : Mounted M}
    {w : World} (hshows : v.Shows F I w) {arrives : Bool} {o : Op} {r : o.Reply}
    (hkept : I (v.log ++ [⟨o, r⟩])) (hstate : (v.after arrives ⟨o, r⟩).state = v.state)
    (hstore : World.storeAfter w.store ⟨o, r⟩ = w.store) :
    (v.after arrives ⟨o, r⟩).Shows F I (w.apply ⟨o, r⟩) := by
  obtain ⟨⟨l, hrel, hmem, hputs⟩, -, hlast, happ, hlog⟩ := hshows
  refine ⟨⟨l, hstate ▸ hrel, ?_, fun h hh => mem_written_snoc.mpr (.inl (hputs h hh))⟩, hkept, by
    rw [World.apply, hlast]; rfl, by rw [World.apply, happ]; rfl, by rw [World.apply, hlog]; rfl⟩
  rw [World.apply, hstore]
  exact hmem

/-- What can be answered over the backend can be answered over the plain store. -/
theorem Mounted.Shows.step {F : Faithful M ok} {I : List PortEvent → Prop} {v : Mounted M}
    {w : World} (hshows : v.Shows F I w)
    (hok : ∀ {l} (call : StoreCall), (∀ h ∈ l.puts, h ∈ written v.log) → ok l call)
    {arrives : Bool} {o : Op} {r : o.Reply} (hcan : v.can arrives o r)
    (hkept : I (v.log ++ [⟨o, r⟩])) :
    w.can ⟨o, r⟩ ∧ (v.after arrives ⟨o, r⟩).Shows F I (w.apply ⟨o, r⟩) := by
  unfold Mounted.can at hcan
  split_ifs at hcan with hstoreless harrives
  · have hstate : (v.after arrives ⟨o, r⟩).state = v.state := by
      simp [Mounted.after, Op.storeCall_of_storeless hstoreless]
    exact ⟨can_of_remembers hcan hstoreless hshows.lastLatest hshows.approvals,
      hshows.aside hkept hstate (World.storeAfter_of_storeless hstoreless)⟩
  · obtain rfl := harrives
    exact hshows.arrives hok hcan hkept
  · obtain rfl := Bool.eq_false_of_not_eq_true harrives
    exact ⟨World.can_of_not_working hcan,
      hshows.aside hkept rfl (World.storeAfter_of_not_working hcan)⟩

variable [Alloy] {C α : Type} {cl : Client C α}

/-- What a client does over a backend it does over the plain store. -/
theorem Client.over_projection (F : Faithful M ok) {I : List PortEvent → Prop}
    {env : Mounted M → PortEvent → Prop}
    (hkeep : ∀ {v e}, env v e → I v.log → I (v.log ++ [e]))
    (hok : ∀ {log l} (call : StoreCall), I log → (∀ h ∈ l.puts, h ∈ written log) → ok l call) :
    System.Projection (cl.over M env) (cl.system fun _ _ _ => True) some (Mounted.Shows F I) where
  body := by rintro c _ ⟨⟩; rfl
  spawn _ _ := trivial
  other _ hnone := by cases hnone
  own {p p' i th arrives o r c} _ _ hshows ha := by
    obtain ⟨hcan, henv⟩ := ha
    obtain ⟨hcan', hshows'⟩ := hshows.step (fun call => hok call hshows.kept) hcan
      (hkeep henv hshows.kept)
    exact ⟨(), fun _ => ⟨hcan', trivial⟩, hshows'⟩

theorem Client.over_reaches (F : Faithful M ok) {I : List PortEvent → Prop}
    {env : Mounted M → PortEvent → Prop} (hstart : I [])
    (hkeep : ∀ {v e}, env v e → I v.log → I (v.log ++ [e]))
    (hok : ∀ {log l} (call : StoreCall), I log → (∀ h ∈ l.puts, h ∈ written log) → ok l call)
    {p : Pool ports (Mounted M) C α} (h : (cl.over M env).Reaches Client.mounted p) :
    ∃ p', (cl.system fun _ _ _ => True).Reaches Client.start p' ∧ p'.threads = p.threads ∧
      p.world.Shows F I p'.world := by
  have hshows : Mounted.Shows F I Mounted.initial World.initial :=
    ⟨⟨.empty, F.start, memorySimulation.start, by simp [Journal.empty]⟩, hstart, rfl, rfl, rfl⟩
  have hstart' : (Client.start : Pool ports World C α).threads =
      select some (Client.mounted : Pool ports (Mounted M) C α).threads := rfl
  obtain ⟨p', hreach, hthreads, hworld⟩ :=
    (cl.over_projection F hkeep hok).reaches h hstart' hshows
  exact ⟨p', hreach, by rw [hthreads, select_some], hworld⟩

end Refinement

section Accounts

/-- No id was written under two accounts. -/
def OneAccount (log : List PortEvent) : Prop :=
  ∀ g ∈ written log, ∀ h ∈ written log, g.id = h.id → g.account = h.account

/-- A new record does not take the id of a record of another account. -/
def newUnderAccount (log : List PortEvent) : PortEvent → Bool
  | ⟨.putHandle h site, _⟩ =>
    site.basis.isSome || (written log).all fun g => g.id ≠ h.id || g.account = h.account
  | _ => true

/-- Then redb's index forgets nothing. -/
theorem OneAccount.unmoved {log : List PortEvent} (hone : OneAccount log) {l : Journal}
    (hputs : ∀ h ∈ l.puts, h ∈ written log) (call : StoreCall) : Unmoved l call := by
  cases call with
  | pendingHandles account =>
    intro h hh hunder _
    -- the latest record of the id is under the same account, so it is this one
    obtain ⟨g, hg⟩ := Journal.exists_latest hunder
    have hsame : g.account = h.account :=
      hone g (hputs g (List.mem_of_find?_eq_some hg)) h (hputs h hh) (Journal.id_of_latest hg)
    have hlatest := Journal.latestUnder_of_latest hg
    rw [hsame, (Journal.under_of_latestUnder hunder).1, hunder] at hlatest
    rw [hg, hlatest]
  | _ => trivial

theorem OneAccount.snoc {log : List PortEvent} (hone : OneAccount log) {e : PortEvent}
    (he : ∀ h, wrote e = some h → ∀ g ∈ written log, g.id = h.id → g.account = h.account) :
    OneAccount (log ++ [e]) := by
  intro g hg h hh hid
  rcases mem_written_snoc.mp hg with hg | hg <;> rcases mem_written_snoc.mp hh with hh | hh
  · exact hone g hg h hh hid
  · exact he h hh g hg hid
  · exact (he g hg h hh hid.symm).symm
  · rw [Option.some.inj (hg.symm.trans hh)]

variable [Alloy] {C α : Type} {cl : Client C α}

/-- What a call knows of was written before. -/
theorem Client.Runs.known_written {W : Type} {S : System ports W C α} {view : W → World}
    {p₀ p : Pool ports W C α} (hS : cl.Runs S view) (h₀ : Backed.Fresh view p₀)
    (h : S.Reaches p₀ p) {th : Thread ports C α} (hth : th ∈ p.threads) {g : TxHandle}
    (hg : Known th.past g) : g ∈ written (view p.world).log :=
  (hS.handles (P := fun log g => g ∈ written log) h₀
    (fun _ _ _ hg => mem_written_snoc.mpr (.inl hg))
    (fun _ _ _ _ _ _ => mem_written_snoc.mpr (.inr rfl)) h).2 th hth g hg

/-- A client writes every id under one account if its new records do. -/
theorem Client.over_redb_oneAccount {p : Pool ports (Mounted redb) C α}
    (h : (cl.over redb fun v e => newUnderAccount v.log e).Reaches Client.mounted p) :
    (cl.over redb fun v e => OneAccount (v.log ++ [e])).Reaches Client.mounted p := by
  induction h with
  | refl => exact .refl
  | @tail p q hreach hstep ih =>
    cases hstep with
    | spawn c hc => exact ih.tail (.spawn c hc)
    | @move i th o k arrives r hi hprog ha =>
      refine ih.tail (.move (S := cl.over redb fun v e => OneAccount (v.log ++ [e])) arrives r hi
        hprog ⟨ha.1, ?_⟩)
      obtain ⟨p', hreach', hthreads, hshows⟩ := Client.over_reaches redbFaithful (I := OneAccount)
        (by simp [OneAccount, written]) (fun hone _ => hone) (fun call hone hputs =>
          hone.unmoved hputs call) ih
      refine hshows.kept.snoc fun h hwrote g hg hid => ?_
      obtain ⟨site, ⟨⟩⟩ := wrote_eq_some hwrote
      cases hb : site.basis with
      | none =>
        have hnew := ha.2
        simp only [newUnderAccount, hb, Option.isSome_none, Bool.false_or, List.all_eq_true] at hnew
        simpa [hid] using hnew g hg
      | some basis =>
        -- the record it was computed from was written before, under this id and account
        have hruns := cl.system_runs fun _ _ _ => True
        have hth : th ∈ p'.threads := hthreads ▸ List.mem_of_getElem? hi
        obtain ⟨role, -, howes⟩ := hruns.owes Client.fresh_start hreach' hth hprog
        have hwritten := hruns.known_written Client.fresh_start hreach' hth (howes.known hb)
        have hsame := howes.sameRecord hb
        rw [id, hshows.log] at hwritten
        rw [hsame.account]
        exact hshows.kept g hg basis hwritten (hid.trans hsame.id)

end Accounts

section Wallet

variable [Alloy]

/-- Some run over the plain store has the same calls, with the same answers, in the same order. -/
def Wallet.Simulates (w : Wallet) {M : Mealy StoreCall StoreReply}
    (p : Pool ports (Mounted M) WalletCall WalletResult) : Prop :=
  ∃ p', w.calls.Reaches Client.start p' ∧ p'.threads = p.threads ∧ p'.world.log = p.world.log

/-- **Whatever a wallet does over a backend it does over the plain store**: its calls have had the
same answers in the same order, and are as far. A call of the backend may fail at any time, but one
that fails has changed nothing. Over redb this holds as long as a new record does not take the id of
a record of another account. -/
theorem wallet_on_backends_refines (w : Wallet) :
    (∀ p, (w.client.over inMemory fun _ _ => True).Reaches Client.mounted p → w.Simulates p) ∧
      (∀ p, (w.client.over postgres fun _ _ => True).Reaches Client.mounted p → w.Simulates p) ∧
      ∀ p, (w.client.over redb fun v e => newUnderAccount v.log e).Reaches Client.mounted p →
        w.Simulates p := by
  refine ⟨fun p h => ?_, fun p h => ?_, fun p h => ?_⟩
  · obtain ⟨p', hreach, hthreads, hshows⟩ := Client.over_reaches memoryFaithful
      (I := fun _ => True) trivial (fun _ _ => trivial) (fun _ _ _ => trivial) h
    exact ⟨p', hreach, hthreads, hshows.log⟩
  · obtain ⟨p', hreach, hthreads, hshows⟩ := Client.over_reaches postgresFaithful
      (I := fun _ => True) trivial (fun _ _ => trivial) (fun _ _ _ => trivial) h
    exact ⟨p', hreach, hthreads, hshows.log⟩
  · obtain ⟨p', hreach, hthreads, hshows⟩ := Client.over_reaches redbFaithful (I := OneAccount)
      (by simp [OneAccount, written]) (fun hone _ => hone)
      (fun call hone hputs => hone.unmoved hputs call) (Client.over_redb_oneAccount h)
    exact ⟨p', hreach, hthreads, hshows.log⟩

end Wallet

section RedbRun

attribute [local instance] Toy.alloy

instance Op.decidableReply (o : Op) : DecidableEq o.Reply := by cases o <;> infer_instance

instance Mounted.decidableCan {M : Mealy StoreCall StoreReply} (v : Mounted M) (arrives : Bool)
    (o : Op) (r : o.Reply) : Decidable (v.can arrives o r) := by
  unfold Mounted.can
  infer_instance

instance {C α : Type} (cl : Client C α) (M : Mealy StoreCall StoreReply)
    (env : Mounted M → PortEvent → Prop) [∀ v e, Decidable (env v e)]
    (p : Pool ports (Mounted M) C α) (i : Nat) (arrives : (cl.over M env).Choice) (o : ports.Op)
    (r : ports.Reply o) : Decidable ((cl.over M env).allow p i arrives o r) :=
  have := p.world.decidableCan arrives o r
  inferInstanceAs (Decidable (_ ∧ env p.world ⟨o, r⟩))

instance {C α : Type} (cl : Client C α) (M : Mealy StoreCall StoreReply)
    (env : Mounted M → PortEvent → Prop) (p : Pool ports (Mounted M) C α) (c : C) :
    Decidable ((cl.over M env).admits p c) := inferInstanceAs (Decidable True)

/-- The backend and the memory answer what they hold and the other ports as told. -/
def Mounted.serve {M : Mealy StoreCall StoreReply} (others : (o : Op) → Option o.Reply)
    (v : Mounted M) (o : Op) : Option o.Reply :=
  match o with
  | .lastLatestLoad x => some (v.lastLatest x)
  | .lastLatestStore _ _ => some ()
  | .approvalsGet x i => some (v.approvals x i)
  | .approvalsInsert _ _ _ => some ()
  | .approvalsRemove _ _ => some ()
  | o => v.answers o <|> others o

/-- A send over redb, and a tick that finds its receipt. -/
def redbSend : Pool ports (Mounted redb) WalletCall WalletResult :=
  System.played (S := Toy.wallet.client.over redb fun v e => newUnderAccount v.log e) Client.mounted
    [.spawn (.send Toy.intent), .moves 0 40 true (Mounted.serve Toy.calm),
      .spawn .tick, .moves 1 40 true (Mounted.serve (Toy.chain 14 5 (some Toy.receipt)))]

theorem wallet_on_backends_refines_redbSend :
    ∃ p : WalletPool, Toy.wallet.calls.Reaches Client.start p ∧ p.threads = redbSend.threads ∧
      ∃ g ∈ written p.world.log, g.status = .confirmed 10 := by
  have hreach := System.reaches_played (S := Toy.wallet.client.over redb fun v e =>
    newUnderAccount v.log e) Client.mounted
    [.spawn (.send Toy.intent), .moves 0 40 true (Mounted.serve Toy.calm),
      .spawn .tick, .moves 1 40 true (Mounted.serve (Toy.chain 14 5 (some Toy.receipt)))]
  obtain ⟨p, hp, hthreads, hlog⟩ := (wallet_on_backends_refines Toy.wallet).2.2 redbSend hreach
  have hrun : ∃ g ∈ written redbSend.world.log, g.status = .confirmed 10 := by decide +kernel
  exact ⟨p, hp, hthreads, hlog ▸ hrun⟩

end RedbRun

end WalletKit
