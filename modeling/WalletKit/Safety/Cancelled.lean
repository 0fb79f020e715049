import WalletKit.Runtime.Cancels
import WalletKit.Safety.LostUpdates

/-!
# Cancelled transactions

A cancel marks its target before it broadcasts, and a marked handle whose nonce is consumed is
dropped, not displaced. The mark is one flag: a second cancel of the same handle that fails
takes it away again, though the first one is out. When calls are made one at a time and no
undo of a cancel goes through that has found its target marked, the mark stays, whatever becomes
of later cancels.
-/
namespace WalletKit

open Machine

section Kinds

/-- The text of a rejection is not that of a revert. -/
theorem SubmissionError.toString_ne_reverted (e : SubmissionError) :
    e.toString ≠ "reverted on-chain" := by
  have starts : ∀ (message : String) {first : String},
      ¬first.toList <+: "reverted on-chain".toList → first ++ message ≠ "reverted on-chain" := by
    rintro message first hfirst h
    exact hfirst (h ▸ String.toList_append ▸ List.prefix_append _ _)
  match e with
  | .rpc (.call message _) => exact starts message (by decide)
  | .relayAuth message => exact starts message (by decide)
  | .relayRejected message => exact starts message (by decide)
  | .route .relayNotConfigured => decide

/-- The records that are live, or settled by the chain. -/
def Kind.tracked : Kind where
  of s _ := s.isTerminal = false ∨ s.onChain
  live hs _ := .inl hs
  rejected e _ := by simp [TxStatus.isTerminal, TxStatus.onChain, e.toString_ne_reverted]

theorem failedAttempt_of_not_tracked {g : TxHandle} (h : ¬g.Is .tracked) : g.failedAttempt := by
  obtain ⟨hterminal, hon⟩ := not_or.mp h
  unfold TxHandle.failedAttempt
  cases hs : g.status <;> simp_all [TxStatus.isTerminal, TxStatus.onChain]

end Kinds

section Marks

variable [Alloy]

/-- The handle settled by the outcome of one of its own transactions. -/
def OwnReceipt (log : List PortEvent) (g : TxHandle) : Prop :=
  ∃ x ∈ g.broadcasts, ∃ rc b, ev (.receipt x) (.ok (some rc)) ∈ log ∧ rc.blockNumber = some b ∧
    g.status = (outcomeOf rc g).settled b

/-- A cancelled transaction has its mark, and settles from a receipt of its own or as dropped. -/
structure Cancelled (log : List PortEvent) (g : TxHandle) : Prop where
  marked : g.cancelled
  status : g.status.isTerminal = false ∨ g.status = .dropped ∨ OwnReceipt log g

theorem OwnReceipt.mono {log : List PortEvent} {g : TxHandle} (h : OwnReceipt log g)
    (e : PortEvent) : OwnReceipt (log ++ [e]) g := by
  obtain ⟨x, hx, rc, b, hread, hrest⟩ := h
  exact ⟨x, hx, rc, b, List.mem_append_left _ hread, hrest⟩

theorem Cancelled.mono {log : List PortEvent} {g : TxHandle} (h : Cancelled log g)
    (e : PortEvent) : Cancelled (log ++ [e]) g :=
  ⟨h.marked, h.status.imp_right (·.imp_right (·.mono e))⟩

theorem OwnReceipt.onChain {log : List PortEvent} {g : TxHandle} (h : OwnReceipt log g) :
    g.status.onChain := by
  obtain ⟨x, -, rc, b, -, -, hs⟩ := h
  rw [hs]
  cases outcomeOf rc g <;> rfl

theorem OwnReceipt.not_replaced {log : List PortEvent} {g : TxHandle} (h : OwnReceipt log g) :
    g.status ≠ .replaced := by
  obtain ⟨x, -, rc, b, -, -, hs⟩ := h
  intro hr
  rw [hr] at hs
  cases ho : outcomeOf rc g <;> rw [ho] at hs <;> cases hs

omit [Alloy] in
theorem TxStatus.ne_replaced_of_live {s : TxStatus} (h : s.isTerminal = false) : s ≠ .replaced := by
  rintro rfl
  cases h

theorem Cancelled.tracked {log : List PortEvent} {g : TxHandle} (h : Cancelled log g) :
    g.Is .tracked := by
  rcases h.status with hlive | hdropped | hown
  · exact .inl hlive
  · exact .inr (by rw [hdropped]; rfl)
  · exact .inr hown.onChain

theorem Cancelled.not_replaced {log : List PortEvent} {g : TxHandle} (h : Cancelled log g) :
    g.status ≠ .replaced := by
  rcases h.status with hlive | hdropped | hown
  · exact TxStatus.ne_replaced_of_live hlive
  · simp [hdropped]
  · exact hown.not_replaced

/-- What the chain makes of a handle: it stays live, settles from a receipt of its own, or is
taken for displaced. -/
theorem Evidence.outcome {past log : List PortEvent} {e : AccountExecutor} {g h' : TxHandle}
    (hev : Evidence past e g h') (hlog : ∀ x ∈ past, x ∈ log) :
    (h'.status.isTerminal = false ∧ h'.status ≠ .pending) ∨ OwnReceipt log h' ∨
      h'.status = AccountExecutor.settleStatus g .replaced ∧ ∃ before scan cycle,
        past = before ++ scan ∧ InCycle before e cycle ∧
          Scanned g cycle.minedNonce scan .replaced := by
  obtain ⟨before, scan, cycle, event, next, rfl, hcycle, -, -, hscan, hnext, rfl⟩ := hev
  obtain ⟨-, -, ⟨-, rfl, -⟩ | ⟨b, bh, o, rfl, hmined⟩ | ⟨rfl, ⟨l, -, -, rfl⟩ | ⟨-, rfl⟩⟩⟩ :=
    transition_cases hnext
  · exact .inl ⟨rfl, nofun⟩
  · rcases hmined with ⟨-, rfl⟩ | ⟨-, rfl⟩
    · cases hscan with
      | @anchored older newer x rc _ _ hsplit hb _ =>
        refine .inr (.inl ⟨x, by simp [hsplit], rc, b, hlog _ (by simp), hb, ?_⟩)
        change AccountExecutor.settleStatus g _ = (outcomeOf rc g).settled b
        cases outcomeOf rc g <;> rfl
    · exact .inl ⟨rfl, nofun⟩
  · exact .inr (.inr ⟨rfl, before, scan, cycle, rfl, hcycle, hscan⟩)
  · exact .inl ⟨rfl, nofun⟩

/-- What `confirm` makes of a record is live or settled by the chain. -/
theorem Evidence.tracked {past : List PortEvent} {e : AccountExecutor} {g h' : TxHandle}
    (hev : Evidence past e g h') : h'.Is .tracked := by
  rcases hev.outcome fun _ hx => hx with ⟨hlive, -⟩ | hown | ⟨hs, -⟩
  · exact .inl hlive
  · exact .inr hown.onChain
  · refine .inr ?_
    rw [hs, AccountExecutor.settleStatus]
    split <;> rfl

/-- What the chain makes of a cancelled transaction. -/
theorem Cancelled.advance {past log : List PortEvent} {e : AccountExecutor} {g h' : TxHandle}
    (h : Cancelled log g) (hev : Evidence past e g h') (hlog : ∀ x ∈ past, x ∈ log) :
    Cancelled log h' := by
  have hsame : h'.cancelled = g.cancelled := by
    obtain ⟨before, scan, cycle, event, next, -, -, -, -, -, -, rfl⟩ := hev
    rfl
  refine ⟨hsame ▸ h.marked, ?_⟩
  rcases hev.outcome hlog with ⟨hlive, -⟩ | hown | ⟨hs, -⟩
  · exact .inl hlive
  · exact .inr (.inr hown)
  · exact .inr (.inl (hs.trans (if_pos ⟨rfl, h.marked⟩)))

end Marks

section Law

variable [Alloy] {W : Type} {S : System ports W Call CallResult} {view : W → World}
  {p₀ p : Pool ports W Call CallResult} {th : CallThread}

/-- Every handle of a send or a cancel has the hash of a transaction. -/
theorem Call.broadcasts_ne_nil (hS : client.Runs S view) (h₀ : Backed.Fresh view p₀)
    (h : S.Reaches p₀ p) :
    (∀ g, (view p.world).store.handle g.id = some g → g.broadcasts ≠ []) ∧
      ∀ th ∈ p.threads, ∀ g, Known th.past g → g.broadcasts ≠ [] := by
  refine hS.handles (P := fun _ g => g.broadcasts ≠ []) h₀ (fun _ _ _ hg => hg)
    (fun {p th h' site k role} _ _ _ hrole howes hknown => ?_) h
  cases hb : site.basis with
  | some g =>
    obtain ⟨x, hx⟩ := List.exists_mem_of_ne_nil _ (hknown g (howes.known hb))
    exact List.ne_nil_of_mem (howes.broadcasts hb x hx)
  | none =>
    obtain ⟨origin, rfl⟩ | ⟨marked, rfl⟩ := Call.new_site hrole howes hb
    · obtain ⟨m, -, ⟨_, _, _, _, _, _, signed, _, _, -, -, -, -, rfl⟩, -⟩ := howes
      simp [walHandle]
    · obtain ⟨m, approval, now, signed, -, rfl, -⟩ := howes
      simp [cancelHandle]

/-- Only what the chain says settles a record of these calls for good. -/
theorem Call.settled_by_advance (hS : client.Runs S view) (h₀ : Backed.Fresh view p₀)
    (h : S.Reaches p₀ p) (hth : th ∈ p.threads) {role : Role} (hrole : client.Plays th.call role)
    {h' : TxHandle} {site : PutSite} (howes : PutOwes role th.past h' site)
    (hon : h'.status.onChain) :
    ∃ g, site = .advance g ∧ SameRecord g h' ∧ h'.broadcasts = g.broadcasts := by
  cases hb : site.basis with
  | none =>
    obtain ⟨origin, rfl⟩ | ⟨marked, rfl⟩ := Call.new_site hrole howes hb
    · obtain ⟨m, -, ⟨_, _, _, _, _, _, _, _, _, -, -, -, -, rfl⟩, -⟩ := howes
      cases hon
    · obtain ⟨m, approval, now, signed, -, rfl, -⟩ := howes
      cases hon
  | some g =>
    have hlive := hS.basis_live h₀ h hth howes hb
    have live : g.status.onChain → False := fun hon => by
      simp [TxStatus.onChain_isTerminal hon] at hlive
    cases id (howes.version hb) with
    | sent | included => cases hon
    | rejected e => simp [TxStatus.onChain, e.toString_ne_reverted] at hon
    | marked | unmarked | bumped => exact (live hon).elim
    | advanced => exact ⟨g, rfl, howes.sameRecord hb, rfl⟩
    | relayFailed =>
      have hne := (Call.broadcasts_ne_nil hS h₀ h).2 th hth g (howes.known hb)
      obtain ⟨e, -, -, hrelay, -⟩ := howes
      simp [isAwaitingRelay, hne] at hrelay

/-- The record of a new send is pending and not marked. -/
theorem Call.wal_new (hS : client.Runs S view) (h₀ : Backed.Fresh view p₀)
    (h : S.Reaches p₀ p) (hth : th ∈ p.threads) {wal : TxHandle} {origin : Origin}
    (hs : Stored th.past wal (.wal origin)) : wal.status = .pending ∧ wal.cancelled = false := by
  obtain ⟨before, after, hpast⟩ := List.append_of_mem hs
  obtain ⟨role, -, m, -, ⟨_, _, _, _, _, _, _, _, _, -, -, -, -, rfl⟩, -⟩ := hS.owed h₀ h hth hpast
  exact ⟨rfl, rfl⟩

/-- What can be written over a tracked record that no send of this call has just made. -/
inductive WrittenOver (past : List PortEvent) (g : TxHandle) : TxHandle → PutSite → Prop where
  | marked : WrittenOver past g { g with cancelled := true } (.cancelMark g)
  | unmarked {m : TransactionManager} {approval : PolicyApproval} : Cancelling past m g approval →
      WrittenOver past g { g with cancelled := false } (.cancelUndo g)
  | advanced {e : AccountExecutor} {h' : TxHandle} : Evidence past e g h' →
      WrittenOver past g h' (.advance g)
  | bumped {h' : TxHandle} : h'.status = .sent → h'.cancelled = g.cancelled →
      WrittenOver past g h' (.bump g)

theorem Call.written_over (hS : client.Orderly S view p₀ errand .tracked) (h : S.Reaches p₀ p)
    (hlast : p.threads.getLast? = some th) {i : Nat} {x : S.Choice} {h' g : TxHandle}
    {site : PutSite} {k : Except StateStoreError Unit → Io CallResult}
    (hprog : th.prog = .call (.putHandle h' site) k)
    (ha : S.allow p i x (.putHandle h' site) (.ok ()))
    (hg : (view p.world).store.handle h'.id = some g) (hb : site.basis ≠ none)
    (hnew : ∀ origin, ¬Stored th.past g (.wal origin)) :
    SameRecord g h' ∧ WrittenOver th.past g h' site := by
  obtain ⟨role, hrole, howes⟩ := hS.runs.owes hS.fresh h (List.mem_of_getLast? hlast) hprog
  obtain ⟨g', hb⟩ := Option.ne_none_iff_exists'.mp hb
  obtain rfl : g' = g :=
    Option.some.inj (((hS.put_current h hlast hprog ha).1 g' hb).symm.trans hg)
  refine ⟨howes.sameRecord hb, ?_⟩
  cases id (howes.version hb) with
  | sent =>
    obtain ⟨-, ⟨origin, hs⟩, -⟩ := howes
    exact absurd hs (hnew origin)
  | rejected =>
    obtain ⟨e, -, -, -, ⟨origin, hs⟩, -⟩ := howes
    exact absurd hs (hnew origin)
  | marked => exact .marked
  | unmarked =>
    obtain ⟨m, approval, -, -, hcancel⟩ := howes
    exact .unmarked hcancel
  | advanced next =>
    obtain ⟨e, -, hev⟩ := howes
    exact .advanced hev
  | included | relayFailed =>
    obtain ⟨e, -, -, hrelay, -⟩ := howes
    have hne := (Call.broadcasts_ne_nil hS.runs hS.fresh h).1 g' (Table.key_of_get hg ▸ hg)
    simp [isAwaitingRelay, hne] at hrelay
  | bumped rlp now =>
    obtain ⟨e, approval, now, rlp, -, he, ⟨-, hsent, -⟩, -⟩ := howes
    exact .bumped hsent rfl

/-- A write over a cancelled transaction by a call that has read it marked. -/
theorem Cancelled.put (hS : Call.client.Orderly S view p₀ Call.errand .tracked)
    (hmarks : KeepsMarks S p₀) (h : S.Reaches p₀ p) {i : Nat} (hi : p.threads[i]? = some th)
    {x : S.Choice} {h' g : TxHandle} {site : PutSite}
    {k : Except StateStoreError Unit → Io CallResult}
    (hprog : th.prog = .call (.putHandle h' site) k)
    (ha : S.allow p i x (.putHandle h' site) (.ok ()))
    (hg : (view p.world).store.handle h'.id = some g) (hc : Cancelled (view p.world).log g)
    (hs : g.cancelShaped = false)
    (hread : ∀ e ∈ th.past, ∀ g', Reads g' e → g'.id = g.id → g'.cancelled) :
    Cancelled (view p.world).log h' ∧ h'.cancelShaped = false := by
  have hth : th ∈ p.threads := List.mem_of_getElem? hi
  have hlast := hS.sequential.last hi ha
  obtain ⟨role, hrole, howes⟩ := hS.runs.owes hS.fresh h hth hprog
  have hb : site.basis ≠ none := fun hb => hS.put_new_transaction h hlast hprog ha hb
    (Call.ne_task hrole howes) hg hs hc.tracked
  have hnew : ∀ origin, ¬Stored th.past g (.wal origin) := fun origin hs => by
    have hfalse := (Call.wal_new hS.runs hS.fresh h hth hs).2
    simp [hc.marked] at hfalse
  obtain ⟨hsame, hover⟩ := Call.written_over hS h hlast hprog ha hg hb hnew
  refine ⟨?_, hsame.cancelShaped.trans hs⟩
  cases hover with
  | marked => exact ⟨rfl, hc.status⟩
  | unmarked hcancel =>
    -- this cancel has found its target marked, so its undo does not go through
    obtain ⟨target, rfl, -, ⟨id, hr⟩, -, hstored⟩ := hcancel
    have hremarks : th.past.any remarks := List.any_eq_true.mpr
      ⟨_, hstored, hread _ hr target rfl rfl⟩
    have hkeeps := hmarks h ha
    rw [Pool.pastOf_of_get hi] at hkeeps
    simp [keepsMark, hremarks, Except.isOk, Except.toBool] at hkeeps
  | advanced hev => exact hc.advance hev fun x => hS.runs.mem_log hS.fresh h hth
  | bumped hsent hmark => exact ⟨hmark ▸ hc.marked, .inl (by rw [hsent]; rfl)⟩

/-- A step of a call that has not read a cancelled transaction but with its mark keeps it so. -/
theorem Cancelled.step (hS : Call.client.Orderly S view p₀ Call.errand .tracked)
    (hmarks : KeepsMarks S p₀) (h : S.Reaches p₀ p) {i : Nat} (hi : p.threads[i]? = some th)
    {x : S.Choice} {o : Op} {r : o.Reply} {k : o.Reply → Io CallResult}
    (hprog : th.prog = .call o k) (ha : S.allow p i x o r) {id : HandleId} {g : TxHandle}
    (hg : (view p.world).store.handle id = some g) (hc : Cancelled (view p.world).log g)
    (hs : g.cancelShaped = false)
    (hread : ∀ e ∈ th.past, ∀ g', Reads g' e → g'.id = id → g'.cancelled) :
    ∃ g, ((view p.world).apply ⟨o, r⟩).store.handle id = some g ∧
      Cancelled ((view p.world).apply ⟨o, r⟩).log g ∧ g.cancelShaped = false := by
  rw [World.handle_apply]
  cases hw : wrote ⟨o, r⟩ with
  | none => exact ⟨g, hg, hc.mono _, hs⟩
  | some h' =>
    obtain ⟨site, he⟩ := wrote_eq_some hw
    cases he
    by_cases hid : id = h'.id
    · subst hid
      obtain ⟨hc', hs'⟩ := hc.put hS hmarks h hi hprog ha hg hs
        fun e he g' hr hid => hread e he g' hr (hid.trans (Table.key_of_get hg))
      exact ⟨h', if_pos rfl, hc'.mono _, hs'⟩
    · exact ⟨g, (if_neg hid).trans hg, hc.mono _, hs⟩

/-- A cancel of this handle that has succeeded with this handle of its own. -/
def CancelReturnedAs (id : HandleId) (c : TxHandle) (th : CallThread) : Prop :=
  ∃ m, th.call = .cancel m id ∧ th.prog = .ret (.handle (.ok c))

/-- A cancel of this handle that has succeeded. -/
def CancelReturned (id : HandleId) (th : CallThread) : Prop := ∃ c, CancelReturnedAs id c th

omit [Alloy] in
theorem CancelReturnedAs.returned {id : HandleId} {c : TxHandle} (hr : CancelReturnedAs id c th) :
    CancelReturned id th := ⟨c, hr⟩

/-- A cancel that has succeeded ended with the write of its own record. -/
theorem CancelReturnedAs.recorded (hS : Call.client.Runs S view) (h₀ : Backed.Fresh view p₀)
    (h : S.Reaches p₀ p) (hth : th ∈ p.threads) {id : HandleId} {c : TxHandle}
    (hr : CancelReturnedAs id c th) :
    ∃ marked, th.past.getLast? = some (ev (.putHandle c (.cancelNew marked)) (.ok ())) := by
  have hbody : ∀ c, (S.body c).wp (.history fun _ _ => True) (fun r past => ∀ m id h,
      c = .cancel m id → r = .handle (.ok h) → ∃ marked,
        past.getLast? = some (ev (.putHandle h (.cancelNew marked)) (.ok ()))) [] := by
    intro c
    rw [hS.body]
    cases c with
    | cancel m id =>
      refine Prog.wp_map.mpr (Prog.wp_mono (Prog.wp_history_imp
        (TransactionManager.cancel_writes id) fun _ _ _ => trivial) ?_)
      rintro r past hr _ _ c - ⟨rfl⟩
      exact hr c rfl
    | _ =>
      refine Prog.wp_mono (Prog.wp_history_imp (Call.client.history _) fun _ _ _ => trivial) ?_
      rintro r past - _ _ _ ⟨⟩
  obtain ⟨m, hcall, hprog⟩ := hr
  have hend := h.history hbody h₀.1 th hth
  rw [hprog] at hend
  exact hend m id c hcall rfl

/-- The record of a cancel that has succeeded was made for the handle it was called for. -/
theorem CancelReturnedAs.target (hS : Call.client.Runs S view) (h₀ : Backed.Fresh view p₀)
    (h : S.Reaches p₀ p) (hth : th ∈ p.threads) {id : HandleId} {c : TxHandle}
    (hr : CancelReturnedAs id c th) :
    ∃ marked, marked.id = id ∧ ev (.putHandle c (.cancelNew marked)) (.ok ()) ∈ th.past := by
  obtain ⟨marked, hlast⟩ := hr.recorded hS h₀ h hth
  obtain ⟨before, hpast⟩ := List.getLast?_eq_some_iff.mp hlast
  obtain ⟨target, rfl, id', hid, hread⟩ := hS.settled Call.client_settles h₀ h hth hpast
  obtain ⟨m, hcall, -⟩ := hr
  obtain rfl : id = id' := by simpa [hcall, Call.errand] using hid
  have hid' : target.id = id := hS.read_id h₀ h hth (hpast ▸ List.mem_append_left _ hread)
  exact ⟨{ target with cancelled := true }, hid', List.mem_of_getLast? hlast⟩

/-- What the write of the cancel's record makes so, and every later move keeps, is so after a
cancel has succeeded. -/
theorem CancelReturnedAs.since {J : W → Prop} (hS : Call.client.Runs S view) (hseq : S.Sequential)
    (h₀ : Backed.Fresh view p₀) {id : HandleId} {c : TxHandle} (hr : CancelReturnedAs id c th)
    (hstart : ∀ {p i mover x marked k m}, S.Reaches p₀ p → p.threads.getLast? = some mover →
      mover.call = .cancel m id → mover.prog = .call (.putHandle c (.cancelNew marked)) k →
      S.allow p i x (.putHandle c (.cancelNew marked)) (.ok ()) →
      J (S.next p.world x (.putHandle c (.cancelNew marked)) (.ok ())))
    (hstep : ∀ {p i mover x o k r}, S.Reaches p₀ p → th ∈ p.threads →
      p.threads.getLast? = some mover → mover.prog = .call o k → S.allow p i x o r →
      J p.world → J (S.next p.world x o r)) (h : S.Reaches p₀ p) (hth : th ∈ p.threads) :
    J p.world := by
  induction h with
  | refl => simp [h₀.1] at hth
  | @tail p p' hreach hs ih =>
    cases hs with
    | spawn c' _ =>
      rcases Pool.mem_spawn.mp hth with hth | rfl
      · exact ih hth
      · obtain ⟨marked, hnil⟩ := hr.recorded hS h₀ (hreach.tail (.spawn c' ‹_›)) hth
        simp at hnil
    | @move i mover o k x r hi hprog ha =>
      have hlast := hseq.last hi ha
      rcases Pool.mem_answer hth with hth | rfl
      · exact hstep hreach hth hlast hprog ha (ih hth)
      · obtain ⟨marked, he⟩ := hr.recorded hS h₀ (hreach.tail (.move x r hi hprog ha)) hth
        rw [List.getLast?_concat] at he
        cases he
        obtain ⟨m, hcall, -⟩ := hr
        exact hstart hreach hlast hcall hprog ha

omit [Alloy] in
/-- What a cancel has marked is no cancel. -/
theorem Call.marked_transaction (hmarks : KeepsMarks S p₀) (h₀ : p₀.threads = [])
    (h : S.Reaches p₀ p) (hth : th ∈ p.threads) {marked target : TxHandle}
    {r : Except StateStoreError Unit}
    (hstored : ev (.putHandle marked (.cancelMark target)) r ∈ th.past) :
    target.cancelShaped = false := by
  obtain ⟨i, hi⟩ := List.mem_iff_getElem?.mp hth
  have hfirst : p₀.pastOf i = [] := by simp [Pool.pastOf, h₀]
  obtain ⟨new, hpast, hnew⟩ := h.since (K := fun past e => keepsMark past e)
    (fun hq ha => hmarks hq ha) i
  rw [hfirst, List.nil_append, Pool.pastOf_of_get hi] at hpast
  obtain ⟨before, after, hsplit⟩ := List.append_of_mem (hpast ▸ hstored)
  simpa [ev, keepsMark] using hnew before _ after hsplit

/-- When a cancel writes its record, its target is stored with its mark, and stays. -/
theorem Call.target_marked (hS : client.Orderly S view p₀ errand .tracked)
    (hmarks : KeepsMarks S p₀) (h : S.Reaches p₀ p) (hlast : p.threads.getLast? = some th) {i : Nat}
    {x : S.Choice} {c marked : TxHandle} {k : Except StateStoreError Unit → Io CallResult}
    {id : HandleId} (hprog : th.prog = .call (.putHandle c (.cancelNew marked)) k)
    {m : TransactionManager} (hcall : th.call = .cancel m id)
    (ha : S.allow p i x (.putHandle c (.cancelNew marked)) (.ok ())) :
    marked.cancelled ∧ marked.status.isTerminal = false ∧ marked.cancelShaped = false ∧
      (view (S.next p.world x (.putHandle c (.cancelNew marked)) (.ok ()))).store.handle id =
        some marked := by
  have hth : th ∈ p.threads := List.mem_of_getLast? hlast
  obtain ⟨-, hcur⟩ := hS.invariant h
  rw [Pool.current_of_last hlast] at hcur
  have hstored := hcur.marked (hS.sole_owes h hth hprog).1
  obtain ⟨role, -, m', approval, now, signed, -, -, -, ⟨target, rfl, hlive, -, -, hmark⟩, -⟩ :=
    hS.runs.owes hS.fresh h hth hprog
  have hshaped : target.cancelShaped = false := marked_transaction hmarks hS.fresh.1 h hth hmark
  obtain ⟨target', he, id', hid, hread⟩ := hS.runs.settles hS.settles hS.fresh h hth hprog
  obtain rfl : id = id' := by simpa [hcall, Call.errand] using hid
  have htid : target.id = id := by
    have hids : target.id = target'.id := by simpa using congrArg TxHandle.id he
    rw [hids, hS.runs.read_id hS.fresh h hth hread]
  refine ⟨rfl, hlive, hshaped, ?_⟩
  rw [hS.runs.next ha, World.handle_apply]
  change (if id = c.id then some c else (view p.world).store.handle id) = _
  have hne : id ≠ c.id := by
    rintro hc
    refine hS.put_new_transaction h hlast hprog ha rfl (by simp)
      (g := { target with cancelled := true }) ?_ hshaped (.inl hlive)
    rw [← hc, ← htid]
    exact hstored
  rw [if_neg hne, ← htid]
  exact hstored

/-- Once a cancel of a handle has succeeded, the handle stays cancelled, and is no cancel. -/
theorem Call.stays_cancelled (hS : client.Orderly S view p₀ errand .tracked)
    (hmarks : KeepsMarks S p₀) (h : S.Reaches p₀ p) {id : HandleId} (hth : th ∈ p.threads)
    (hr : CancelReturned id th) : ∃ g, (view p.world).store.handle id = some g ∧
      Cancelled (view p.world).log g ∧ g.cancelShaped = false := by
  -- a later call has not read the handle but with its mark
  suffices hkept : (∃ g, (view p.world).store.handle id = some g ∧
      Cancelled (view p.world).log g ∧ g.cancelShaped = false) ∧
      ∀ th', p.threads.getLast? = some th' → th' = th ∨
        ∀ e ∈ th'.past, ∀ g', Reads g' e → g'.id = id → g'.cancelled from hkept.1
  obtain ⟨c, hr⟩ := hr
  induction h generalizing th with
  | refl => simp [hS.fresh.1] at hth
  | @tail p p' hreach hs ih =>
    cases hs with
    | spawn c' _ =>
      rcases Pool.mem_spawn.mp hth with hth | rfl
      · refine ⟨(ih hth hr).1, fun th' hlast => .inr ?_⟩
        obtain rfl : (⟨c', [], S.body c'⟩ : CallThread) = th' := by simpa [Pool.spawn] using hlast
        simp
      · obtain ⟨marked, hnil⟩ := hr.recorded hS.runs hS.fresh (hreach.tail (.spawn c' ‹_›)) hth
        simp at hnil
    | @move i mover o k x r hi hprog ha =>
      have hlast : p.threads.getLast? = some mover := hS.sequential.last hi ha
      have hlast' : (p.answer i mover o r (k r) (S.next p.world x o r)).threads.getLast? =
          some ⟨mover.call, mover.past ++ [⟨o, r⟩], k r⟩ := hS.sequential.last_answer hi ha
      have hreach' := hreach.tail (.move x r hi hprog ha)
      rw [Pool.world_answer, hS.runs.next ha]
      rcases Pool.mem_answer hth with hth | rfl
      · obtain ⟨⟨g, hg, hc, hshaped⟩, hreads⟩ := ih hth hr
        have hread : ∀ e ∈ mover.past, ∀ g', Reads g' e → g'.id = id → g'.cancelled := by
          refine (hreads mover hlast).resolve_left ?_
          rintro rfl
          obtain ⟨m, -, hret⟩ := hr
          cases hret.symm.trans hprog
        refine ⟨hc.step hS hmarks hreach hi hprog ha hg hshaped hread, fun th' hth' => .inr ?_⟩
        obtain rfl := Option.some.inj (hlast'.symm.trans hth')
        intro e he g' hr' hid
        rcases List.mem_append.mp he with he | he
        · exact hread e he g' hr' hid
        · rw [List.mem_singleton.mp he] at hr'
          have hstored := stored_of_reads hr' (hS.runs.can ha)
          rw [hid, hg] at hstored
          cases hstored
          exact hc.marked
      · -- the cancel has just returned, so this was the write of its record
        refine ⟨?_, fun th' hth' => .inl (Option.some.inj (hth'.symm.trans hlast'))⟩
        obtain ⟨marked, he⟩ := hr.recorded hS.runs hS.fresh hreach' hth
        rw [List.getLast?_concat] at he
        cases he
        obtain ⟨m, hcall, -⟩ := hr
        obtain ⟨hmarked, hlive, hshaped, hstored⟩ :=
          target_marked hS hmarks hreach hlast hprog hcall ha
        rw [hS.runs.next ha] at hstored
        exact ⟨marked, hstored, ⟨hmarked, .inl hlive⟩, hshaped⟩

/-- No write of these calls loses an update, or takes the place of a tracked record. -/
theorem Call.writes_up_to_date (hS : client.Orderly S view p₀ errand .tracked)
    (hfresh : ∀ {p i x o r}, S.allow p i x o r → freshCancel ⟨o, r⟩) :
    WritesUpToDate S view p₀ TxHandle.failedAttempt := by
  intro p i th x o k r hreach hi hprog ha
  cases o with
  | putHandle h' site =>
    have hlast := hS.sequential.last hi ha
    match r with
    | .error _ => rfl
    | .ok () =>
      cases hb : site.basis with
      | some g =>
        simpa [upToDate, hb] using (hS.put_current hreach hlast hprog ha).1 g hb
      | none =>
        obtain ⟨role, hrole, howes⟩ :=
          hS.runs.owes hS.fresh hreach (List.mem_of_getElem? hi) hprog
        cases hg : (view p.world).store.handle h'.id with
        | none => simp [upToDate, hb, hg]
        | some g =>
          have hfailed := failedAttempt_of_not_tracked
            (hS.put_new hfresh hreach hlast hprog ha hb (Call.ne_task hrole howes) hg)
          simpa [upToDate, hb, hg] using hfailed
  | _ => rfl

/-- Nothing was re-sent for a handle that was never stored as replaced. -/
theorem Client.Runs.no_refills {C α : Type} {cl : Client C α} {S : System ports W C α}
    {p₀ p : Pool ports W C α} {errand : C → Errand} (hS : cl.Runs S view)
    (hset : cl.Settles errand) (h₀ : Backed.Fresh view p₀) (h : S.Reaches p₀ p) {id : HandleId}
    (hsettled : (view p.world).log.countP (settlesReplaced id) = 0) :
    (view p.world).log.countP (settlesReplaced id) = 0 ∧
      (view p.world).log.countP (refillLogged id) = 0 ∧
      (view p.world).log.countP (refillSubmitted id) = 0 := by
  obtain ⟨hlogged, hsubmitted⟩ := hS.refills_le hset h₀ h id
  exact ⟨hsettled, Nat.le_zero.mp (hsettled ▸ hlogged), Nat.le_zero.mp (hsettled ▸ hsubmitted)⟩

/-- A handle that is not stored as replaced never was, and nothing was re-sent for it. -/
theorem Call.not_reexecuted (hS : client.Orderly S view p₀ errand .tracked)
    (hfresh : ∀ {p i x o r}, S.allow p i x o r → freshCancel ⟨o, r⟩) (h : S.Reaches p₀ p)
    {id : HandleId} {g : TxHandle} (hg : (view p.world).store.handle id = some g)
    (hs : g.status ≠ .replaced) :
    (view p.world).log.countP (settlesReplaced id) = 0 ∧
      (view p.world).log.countP (refillLogged id) = 0 ∧
      (view p.world).log.countP (refillSubmitted id) = 0 := by
  refine hS.runs.no_refills hS.settles hS.fresh h ?_
  refine (hS.runs.settlesReplaced_once hS.fresh (writes_up_to_date hS hfresh) h id).resolve_right ?_
  rintro ⟨-, g', hg', hs'⟩
  cases hg'.symm.trans hg
  exact hs hs'

/-- A new record has the shape of the one it replaces. -/
theorem Call.new_shaped (hS : client.Orderly S view p₀ errand .tracked) (h : S.Reaches p₀ p)
    (hth : th ∈ p.threads) {i : Nat} {x : S.Choice} {h' g : TxHandle} {site : PutSite}
    {k : Except StateStoreError Unit → Io CallResult}
    (hprog : th.prog = .call (.putHandle h' site) k)
    (ha : S.allow p i x (.putHandle h' site) (.ok ())) (hb : site.basis = none)
    (hg : (view p.world).store.handle h'.id = some g) : h'.cancelShaped = g.cancelShaped := by
  obtain ⟨role, hrole, howes⟩ := hS.runs.owes hS.fresh h hth hprog
  obtain ⟨hintent, -⟩ := same_of_distinctIds (hS.distinct ha) hb hg
  have hcoherent := (hS.runs.coherent hS.fresh h).1 g ((Table.key_of_get hg).symm ▸ hg)
  have hnew : h'.account = h'.intent.account := by
    obtain ⟨origin, rfl⟩ | ⟨marked, rfl⟩ := Call.new_site hrole howes hb
    · obtain ⟨m, -, ⟨_, _, _, _, _, _, _, _, _, -, -, -, -, rfl⟩, -⟩ := howes
      rfl
    · obtain ⟨m, approval, now, signed, -, rfl, -⟩ := howes
      rfl
  rw [TxHandle.cancelShaped, TxHandle.cancelShaped, hnew, hcoherent.account, hintent]

omit [Alloy] in
/-- A handle settles as replaced by a write of its record. -/
theorem wrote_of_settlesReplaced {id : HandleId} {e : PortEvent} (h : settlesReplaced id e) :
    ∃ d, wrote e = some d ∧ d.id = id ∧ d.status = .replaced := by
  obtain ⟨d, g, rfl, hid, hd⟩ := settlesReplaced_iff.mp h
  exact ⟨d, rfl, hid, hd⟩

/-- What was stored as replaced and is no cancel is stored so for good. -/
theorem Call.replaced_stays (hS : client.Orderly S view p₀ errand .tracked) (h : S.Reaches p₀ p)
    {id : HandleId} (hsettled : 0 < (view p.world).log.countP (settlesReplaced id)) :
    ∃ g, (view p.world).store.handle id = some g ∧ (g.status = .replaced ∨ g.cancelShaped) := by
  refine h.sequentially (I := fun w _ => 0 < (view w).log.countP (settlesReplaced id) →
    ∃ g, (view w).store.handle id = some g ∧ (g.status = .replaced ∨ g.cancelShaped))
    hS.sequential hS.fresh.1 (by simp [hS.fresh.2, World.initial]) (fun _ _ hI => hI)
    (fun {p i th x o r k} hreach hlast hprog ha hI => ?_) hsettled
  rw [hS.runs.next ha, World.apply_log, List.countP_append, List.countP_singleton,
    World.handle_apply]
  intro hcount
  cases hnow : settlesReplaced id ⟨o, r⟩ with
  | true =>
    obtain ⟨d, hw, rfl, hd⟩ := wrote_of_settlesReplaced hnow
    exact ⟨d, by rw [hw]; exact if_pos rfl, .inl hd⟩
  | false =>
    obtain ⟨g, hg, hkind⟩ := hI (by simpa [hnow] using hcount)
    cases hw : wrote ⟨o, r⟩ with
    | none => exact ⟨g, hg, hkind⟩
    | some h' =>
      obtain ⟨site, he⟩ := wrote_eq_some hw
      cases he
      have hth := List.mem_of_getLast? hlast
      by_cases hid : id = h'.id
      swap
      · exact ⟨g, (if_neg hid).trans hg, hkind⟩
      refine ⟨h', if_pos hid, ?_⟩
      subst hid
      obtain ⟨role, hrole, howes⟩ := hS.runs.owes hS.fresh hreach hth hprog
      cases hb : site.basis with
      | some g' =>
        obtain rfl : g' = g :=
          Option.some.inj (((hS.put_current hreach hlast hprog ha).1 g' hb).symm.trans hg)
        rcases hkind with hreplaced | hshaped
        · have hlive := hS.runs.basis_live hS.fresh hreach hth howes hb
          simp [hreplaced, TxStatus.isTerminal] at hlive
        · exact .inr ((howes.sameRecord hb).cancelShaped.trans hshaped)
      | none =>
        right
        rw [Call.new_shaped hS hreach hth hprog ha hb hg]
        by_contra hshaped
        have hreplaced := hkind.resolve_right hshaped
        refine hS.put_new_transaction hreach hlast hprog ha hb (Call.ne_task hrole howes) hg
          (by simpa using hshaped) (.inr ?_)
        rw [hreplaced]
        rfl

/-- Calls one at a time, in which the records of rejections are written and ids do not collide,
are orderly in what they track. -/
theorem Call.orderly (hruns : client.Runs S view) (h₀ : Backed.Fresh view p₀)
    (hseq : S.Sequential) (hwritten : ∀ {p i x o r}, S.allow p i x o r → rejectWritten ⟨o, r⟩)
    (hdistinct : ∀ {p i x o r}, S.allow p i x o r → distinctIds (view p.world) ⟨o, r⟩) :
    client.Orderly S view p₀ errand .tracked where
  runs := hruns
  sequential := hseq
  fresh := h₀
  settles := client_settles
  sole := client_sole
  written := hwritten
  distinct := hdistinct
  relayed c hc := absurd (Eq.symm hc) c.role_ne_relayed
  cancels {p th h' marked k} hreach hth hprog := by
    obtain ⟨role, -, m, approval, now, signed, -, -, -, ⟨target, rfl, hlive, -⟩, -⟩ :=
      hruns.owes h₀ hreach hth hprog
    exact .inl hlive
  others _ g _ hother := by
    by_contra hlive
    exact hother (.inl (by simpa using hlive))

/-- Calls one at a time, in which the records of rejections are written, ids do not collide, and
no cancel is of a handle that is marked already or is a cancel itself. -/
abbrev singleCancels : System ports World Call CallResult :=
  Call.client.system fun p i e => i + 1 = p.threads.length ∧ rejectWritten e ∧
    distinctIds p.world e ∧ freshCancel e

/-- Calls one at a time, in which the records of rejections are written, ids do not collide, a
cancel is of no cancel, and no failed cancel takes a mark away that it has found. -/
abbrev markedCalls : System ports World Call CallResult :=
  Call.client.system fun p i e => i + 1 = p.threads.length ∧ rejectWritten e ∧
    distinctIds p.world e ∧ keepsMark (p.pastOf i) e

/-- **A cancelled transaction is never re-executed**, as long as no later cancel undoes the mark
that it has found: when a cancel of a handle has succeeded, and whether later cancels of it
succeed, fail or are cut off, the handle stays marked and settles from a receipt of its own or as
dropped; it was never stored as replaced, and no refill of it was logged or broadcast. -/
theorem cancelled_never_reexecuted {p : CallPool} (h : markedCalls.Reaches Client.start p)
    {th : CallThread} (hth : th ∈ p.threads) {id : HandleId} (hr : CancelReturned id th) :
    (∃ g, p.world.store.handle id = some g ∧ Cancelled p.world.log g) ∧
      p.world.log.countP (settlesReplaced id) = 0 ∧ p.world.log.countP (refillLogged id) = 0 ∧
      p.world.log.countP (refillSubmitted id) = 0 := by
  have hS : Call.client.Orderly markedCalls (fun w => w) Client.start Call.errand .tracked :=
    Call.orderly (Client.system_runs _ _) Client.fresh_start (fun _ _ _ _ _ ha => ha.2.1)
      (fun ha => ha.2.2.1) fun ha => ha.2.2.2.1
  obtain ⟨g, hg, hc, hshaped⟩ := Call.stays_cancelled hS (fun _ ha => ha.2.2.2.2) h hth hr
  refine ⟨⟨g, hg, hc⟩, hS.runs.no_refills hS.settles hS.fresh h ?_⟩
  refine Nat.eq_zero_of_not_pos fun hpos => ?_
  obtain ⟨g', hg', hkind⟩ := Call.replaced_stays hS h hpos
  cases hg'.symm.trans hg
  rcases hkind with hreplaced | hshaped'
  · exact hc.not_replaced hreplaced
  · simp [hshaped] at hshaped'

end Law

section CancelledRuns

attribute [local instance] Toy.alloy

/-- What call `i` has returned, if it is a cancel of this handle that has succeeded. -/
def cancelReturned? {W : Type} (p : Pool ports W Call CallResult) (i : Nat) (id : HandleId) :
    Option TxHandle :=
  p.threads[i]?.bind fun th =>
    match th.call, th.prog with
    | .cancel _ j, .ret (.handle (.ok c)) => if j = id then some c else none
    | _, _ => none

theorem exists_cancelReturned {W : Type} {p : Pool ports W Call CallResult} {i : Nat}
    {id : HandleId} {c : TxHandle} (h : cancelReturned? p i id = some c) :
    ∃ th ∈ p.threads, CancelReturnedAs id c th := by
  obtain ⟨th, hth, hret⟩ := Option.bind_eq_some_iff.mp h
  refine ⟨th, List.mem_of_getElem? hth, ?_⟩
  split at hret
  · rename_i m j c' hcall hprog
    split at hret
    · rename_i hj
      cases hret
      exact ⟨m, hj ▸ hcall, hprog⟩
    · cases hret
  · cases hret

/-- The broadcast of a cancel is declined. -/
def cancelDeclined (w : World) : (o : Op) → Option o.Reply
  | .submit _ _ (.cancel _) => some (.error (.relayRejected "declined"))
  | o => World.serve Toy.calm w o

/-- The broadcast of a cancel is declined, and its undo fails. -/
def cancelStopped (w : World) : (o : Op) → Option o.Reply
  | .putHandle _ (.cancelUndo _) => some (.error (.backend "down"))
  | o => cancelDeclined w o

/-- The undo of a cancel was tried and failed. -/
def undoFailed : PortEvent → Bool
  | ⟨.putHandle _ (.cancelUndo _), .error _⟩ => true
  | _ => false

/-- A send is cancelled twice, a third cancel fails and so does its undo, and the nonce is
consumed. -/
def cancelledAndDropped : CallPool :=
  System.played (S := markedCalls) Client.start
    [.spawn (.send Toy.manager Toy.intent .default none), .moves 0 40 () (World.serve Toy.calm),
      .spawn (.cancel Toy.manager Toy.sentId), .moves 1 40 () (World.serve Toy.calm),
      .spawn (.cancel Toy.manager Toy.sentId), .moves 2 40 () (World.serve Toy.calm),
      .spawn (.cancel Toy.manager Toy.sentId), .moves 3 40 () cancelStopped,
      .spawn (.tick Toy.refiller), .moves 4 80 () (World.serve (Toy.chain 10 5 none)),
      .spawn (.tick Toy.refiller), .moves 5 80 () (World.serve (Toy.chain 20 5 none))]

theorem cancelled_never_reexecuted_dropped :
    ((cancelReturned? cancelledAndDropped 2 Toy.sentId).isSome ∧
      cancelledAndDropped.world.log.any undoFailed) ∧
    (∃ g, cancelledAndDropped.world.store.handle Toy.sentId = some g ∧ g.status = .dropped) ∧
    (∃ g, cancelledAndDropped.world.store.handle Toy.sentId = some g ∧
      Cancelled cancelledAndDropped.world.log g) ∧
    cancelledAndDropped.world.log.countP (settlesReplaced Toy.sentId) = 0 ∧
    cancelledAndDropped.world.log.countP (refillLogged Toy.sentId) = 0 ∧
    cancelledAndDropped.world.log.countP (refillSubmitted Toy.sentId) = 0 := by
  have hreach : markedCalls.Reaches Client.start cancelledAndDropped := System.reaches_played _ _
  have hlater : (cancelReturned? cancelledAndDropped 2 Toy.sentId).isSome ∧
      cancelledAndDropped.world.log.any undoFailed := by
    decide +kernel
  have hrun : (cancelReturned? cancelledAndDropped 1 Toy.sentId).isSome ∧
      (cancelledAndDropped.world.store.handle Toy.sentId).any (·.status = .dropped) := by
    decide +kernel
  obtain ⟨hcancelled, hdropped⟩ := hrun
  obtain ⟨c, hc⟩ := Option.isSome_iff_exists.mp hcancelled
  obtain ⟨th, hth, hr⟩ := exists_cancelReturned hc
  obtain ⟨g, hg, hs⟩ := (Option.any_eq_true _ _).mp hdropped
  exact ⟨hlater, ⟨g, hg, of_decide_eq_true hs⟩, cancelled_never_reexecuted hreach hth hr.returned⟩

/-- Calls one at a time over a store that writes the records of rejections, with ids that do
not collide. -/
abbrev soundCancels : System ports World Call CallResult :=
  Call.client.system fun p i e => i + 1 = p.threads.length ∧ rejectWritten e ∧ distinctIds p.world e

/-- The second cancel of a send fails after its mark, and takes the mark of the first away. -/
def unmarkedByCancel : CallPool :=
  System.played (S := soundCancels) Client.start
    [.spawn (.send Toy.manager Toy.intent .default none), .moves 0 40 () (World.serve Toy.calm),
      .spawn (.cancel Toy.manager Toy.sentId), .moves 1 40 () (World.serve Toy.calm),
      .spawn (.cancel Toy.manager Toy.sentId), .moves 2 40 () cancelDeclined,
      .spawn (.tick Toy.refiller), .moves 3 80 () (World.serve (Toy.chain 10 5 none)),
      .spawn (.tick Toy.refiller), .moves 4 120 () (World.serve (Toy.chain 20 5 none))]

theorem failed_cancel_reexecutes_cancelled : ∃ p id th, soundCancels.Reaches Client.start p ∧
    th ∈ p.threads ∧ CancelReturned id th ∧
    (∃ g, p.world.store.handle id = some g ∧ g.status = .replaced) ∧
    0 < p.world.log.countP (refillSubmitted id) := by
  have hreach : soundCancels.Reaches Client.start unmarkedByCancel := System.reaches_played _ _
  have hrun : (cancelReturned? unmarkedByCancel 1 Toy.sentId).isSome ∧
      (unmarkedByCancel.world.store.handle Toy.sentId).any (·.status = .replaced) ∧
      0 < unmarkedByCancel.world.log.countP (refillSubmitted Toy.sentId) := by decide +kernel
  obtain ⟨hcancelled, hreplaced, hrefilled⟩ := hrun
  obtain ⟨c, hc⟩ := Option.isSome_iff_exists.mp hcancelled
  obtain ⟨th, hth, hr⟩ := exists_cancelReturned hc
  obtain ⟨g, hg, hs⟩ := (Option.any_eq_true _ _).mp hreplaced
  exact ⟨unmarkedByCancel, Toy.sentId, th, hreach, hth, hr.returned, ⟨g, hg, of_decide_eq_true hs⟩,
    hrefilled⟩

end CancelledRuns

end WalletKit
