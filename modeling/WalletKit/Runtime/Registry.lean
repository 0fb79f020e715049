import WalletKit.Runtime.Calls

/-!
# The records of a run

Every stored handle is a new record of a send, a cancel or a relayed task, or was computed
from a record its writer knew: one it had read, or had written before. What each such step
keeps is kept by the whole store, in any interleaving.
-/
namespace WalletKit

open Machine

/-- The call has read or written this handle. -/
def Known (past : List PortEvent) (h : TxHandle) : Prop :=
  ∃ e ∈ past, Reads h e ∨ wrote e = some h

theorem known_nil {h : TxHandle} : ¬Known [] h := by simp [Known]

theorem known_snoc {past : List PortEvent} {e : PortEvent} {h : TxHandle} :
    Known (past ++ [e]) h ↔ Known past h ∨ Reads h e ∨ wrote e = some h := by
  simp [Known, or_and_right, exists_or]

theorem SeenPending.known {past : List PortEvent} {a : Address} {h : TxHandle}
    (hs : SeenPending past a h) : Known past h := by
  obtain ⟨hs, hmem, hh⟩ := hs
  exact ⟨_, hmem, .inl ⟨hs, rfl, hh⟩⟩

theorem Stored.known {past : List PortEvent} {h : TxHandle} {site : PutSite}
    (hs : Stored past h site) : Known past h := ⟨_, hs, .inr rfl⟩

/-- The record a written one was computed from; the others are new. -/
def PutSite.basis : PutSite → Option TxHandle
  | .wal _ | .cancelNew _ | .task => none
  | .sent h | .rejected h | .cancelMark h | .cancelUndo h | .advance h | .poll h | .bump h =>
    some h

/-- The record that a broadcast is for; a cancel is for one that it has yet to write. -/
def SubmitSite.record : SubmitSite → Option TxHandle
  | .send _ h | .recover h | .bump h => some h
  | .cancel _ => none

/-- Two versions of one record. -/
structure SameRecord (h h' : TxHandle) : Prop where
  id : h'.id = h.id
  account : h'.account = h.account
  intent : h'.intent = h.intent
  intentHash : h'.intentHash = h.intentHash
  nonce : h'.nonce = h.nonce

theorem SameRecord.trans {h h' h'' : TxHandle} (hs : SameRecord h h') (hs' : SameRecord h' h'') :
    SameRecord h h'' :=
  ⟨hs'.id.trans hs.id, hs'.account.trans hs.account, hs'.intent.trans hs.intent,
    hs'.intentHash.trans hs.intentHash, hs'.nonce.trans hs.nonce⟩

/-- What each write makes of the record it starts from. -/
inductive Version [Alloy] (h : TxHandle) : PutSite → TxHandle → Prop where
  | sent : Version h (.sent h) { h with status := .sent }
  | rejected (e : SubmissionError) : Version h (.rejected h) { h with status := .failed e.toString }
  | marked : Version h (.cancelMark h) { h with cancelled := true }
  | unmarked : Version h (.cancelUndo h) { h with cancelled := false }
  | advanced (next : TxStatus) :
      Version h (.advance h) { h with status := AccountExecutor.settleStatus h next }
  | included (x : TxHash) :
      Version h (.poll h) { h with broadcasts := h.broadcasts ++ [x], status := .sent }
  | relayFailed (reason : String) : Version h (.poll h) { h with status := .failed reason }
  | bumped (rlp : Bytes) (now : Nat) : Version h (.bump h) { h with
      submission := ⟨AccountExecutor.bumpRoute h⟩
      signed := rlp
      broadcasts := h.broadcasts ++ [keccak256 rlp]
      lastBroadcastAt := now }

section Puts

variable [Alloy] {role : Role} {past : List PortEvent} {h h' : TxHandle} {site : PutSite}

/-- A call computes what it writes from a record it knows. -/
theorem PutOwes.known (hput : PutOwes role past h' site) (hb : site.basis = some h) :
    Known past h := by
  cases site with
  | wal | cancelNew | task => cases hb
  | sent wal =>
    cases hb
    obtain ⟨-, ⟨origin, hs⟩, -⟩ := hput
    exact hs.known
  | rejected wal =>
    cases hb
    obtain ⟨e, -, -, -, ⟨origin, hs⟩, -⟩ := hput
    exact hs.known
  | cancelMark target =>
    cases hb
    obtain ⟨id, -, -, hread⟩ := hput
    exact ⟨_, hread, .inl rfl⟩
  | cancelUndo marked =>
    cases hb
    obtain ⟨m, approval, -, -, target, -, -, -, -, hs⟩ := hput
    exact hs.known
  | advance g =>
    cases hb
    obtain ⟨e, -, hev⟩ := hput
    exact hev.seen.known
  | poll g =>
    cases hb
    obtain ⟨e, -, hp, -⟩ := hput
    exact hp.seen.known
  | bump g =>
    cases hb
    obtain ⟨e, approval, now, rlp, -, -, hsigned, -⟩ := hput
    exact hsigned.1.known

/-- What is computed from a record is a version of it. -/
theorem PutOwes.version (hput : PutOwes role past h' site) (hb : site.basis = some h) :
    Version h site h' := by
  cases site with
  | wal | cancelNew | task => cases hb
  | sent wal => cases hb; obtain ⟨rfl, -⟩ := hput; exact .sent
  | rejected wal => cases hb; obtain ⟨e, rfl, -⟩ := hput; exact .rejected e
  | cancelMark target => cases hb; obtain ⟨id, rfl, -⟩ := hput; exact .marked
  | cancelUndo marked => cases hb; obtain ⟨m, approval, -, rfl, -⟩ := hput; exact .unmarked
  | advance g =>
    cases hb
    obtain ⟨e, -, before, scan, cycle, event, next, -, -, -, -, -, -, rfl⟩ := hput
    exact .advanced next
  | poll g =>
    cases hb
    obtain ⟨e, -, -, -, ⟨x, rfl⟩ | ⟨reason, rfl⟩⟩ := hput
    · exact .included x
    · exact .relayFailed reason
  | bump g =>
    cases hb
    obtain ⟨e, approval, now, rlp, -, rfl, -⟩ := hput
    exact .bumped rlp now

theorem PutOwes.sameRecord (hput : PutOwes role past h' site) (hb : site.basis = some h) :
    SameRecord h h' := by
  cases hput.version hb <;> exact ⟨rfl, rfl, rfl, rfl, rfl⟩

/-- The calls of managers and executors write no record of a relayed task. -/
theorem Call.ne_task {c : Call} (hrole : client.Plays c role) (hput : PutOwes role past h' site) :
    site ≠ .task := by
  rintro rfl
  exact absurd (hrole.symm.trans hput.1) c.role_ne_relayed

/-- What they compute from no record is that of a send or of a cancel. -/
theorem Call.new_site {c : Call} (hrole : client.Plays c role) (hput : PutOwes role past h' site)
    (hb : site.basis = none) :
    (∃ origin, site = .wal origin) ∨ ∃ marked, site = .cancelNew marked := by
  cases site with
  | wal origin => exact .inl ⟨origin, rfl⟩
  | cancelNew marked => exact .inr ⟨marked, rfl⟩
  | task => exact absurd rfl (ne_task hrole hput)
  | _ => cases hb

theorem PutOwes.task (hput : PutOwes role past h' site) (hb : site.basis = some h) :
    h'.task? = h.task? := by
  cases hput.version hb <;> rfl

theorem PutOwes.context (hput : PutOwes role past h' site) (hb : site.basis = some h) :
    h'.meta = h.meta := by
  cases hput.version hb <;> rfl

/-- No version of a record forgets a broadcast of the version it was computed from. -/
theorem PutOwes.broadcasts (hput : PutOwes role past h' site) (hb : site.basis = some h) :
    ∀ x ∈ h.broadcasts, x ∈ h'.broadcasts := by
  cases hput.version hb with
  | included | bumped => exact fun _ hx => List.mem_append_left _ hx
  | _ => exact fun _ hx => hx

/-- Only the end of a failed cancel takes its mark away. -/
theorem PutOwes.cancelled (hput : PutOwes role past h' site) (hb : site.basis = some h)
    (hundo : site ≠ .cancelUndo h) (hc : h.cancelled) : h'.cancelled := by
  cases hput.version hb with
  | marked => rfl
  | unmarked => exact absurd rfl hundo
  | _ => exact hc

/-- The hash of the signed bytes is among the broadcasts. -/
def Recorded (h : TxHandle) : Prop := h.signed = [] ∨ keccak256 h.signed ∈ h.broadcasts

theorem PutOwes.recorded (hput : PutOwes role past h' site)
    (hknown : ∀ h, Known past h → Recorded h) : Recorded h' := by
  cases hb : site.basis with
  | some h =>
    -- all but a bump keep the signed bytes of the record they start from
    have hr : Recorded h := hknown h (hput.known hb)
    cases hput.version hb with
    | included => exact hr.imp_right fun hx => List.mem_append_left _ hx
    | bumped => exact .inr (by simp)
    | _ => exact hr
  | none =>
    cases site with
    | wal =>
      obtain ⟨m, -, ⟨_, _, _, _, _, _, signed, _, _, -, -, -, hhash, rfl⟩, -⟩ := hput
      exact .inr (by simp [walHandle, hhash])
    | cancelNew =>
      obtain ⟨m, approval, now, signed, -, rfl, hhash, -⟩ := hput
      exact .inr (by simp [cancelHandle, hhash])
    | task => obtain ⟨-, intent, nonce, now, context, rfl⟩ := hput; exact .inl rfl
    | _ => cases hb

/-- A record's id, hash and account are those of its intent and nonce. -/
structure Coherent (h : TxHandle) : Prop where
  id : h.id = .new h.intent.hash h.nonce
  intentHash : h.intentHash = h.intent.hash
  account : h.account = h.intent.account

theorem Coherent.of_sameRecord (hc : Coherent h) (hs : SameRecord h h') : Coherent h' :=
  ⟨by rw [hs.id, hs.intent, hs.nonce, hc.id], by rw [hs.intentHash, hs.intent, hc.intentHash],
    by rw [hs.account, hs.intent, hc.account]⟩

theorem PutOwes.coherent (hput : PutOwes role past h' site)
    (hknown : ∀ h, Known past h → Coherent h) : Coherent h' := by
  cases hb : site.basis with
  | some h => exact (hknown h (hput.known hb)).of_sameRecord (hput.sameRecord hb)
  | none =>
    cases site with
    | wal =>
      obtain ⟨m, -, ⟨intent, nonce, _, _, _, _, _, _, _, -, -, -, -, rfl⟩, -⟩ := hput
      exact ⟨rfl, rfl, rfl⟩
    | cancelNew =>
      obtain ⟨m, approval, now, signed, -, rfl, -⟩ := hput
      exact ⟨rfl, rfl, rfl⟩
    | task =>
      obtain ⟨-, intent, nonce, now, context, rfl⟩ := hput
      exact ⟨rfl, rfl, rfl⟩
    | _ => cases hb

/-- The bytes of a record are a transaction for its intent. -/
def Encodes (g : TxHandle) (rlp : Bytes) : Prop :=
  ∃ gasLimit fees signature,
    rlp = encoded2718 (Signing.buildTx g.intent g.nonce gasLimit fees) signature

theorem PutOwes.encodes (hput : PutOwes role past h' site)
    (hknown : ∀ h, Known past h → h.signed = [] ∨ Encodes h h.signed) :
    h'.signed = [] ∨ Encodes h' h'.signed := by
  cases hb : site.basis with
  | some h =>
    have hh := hknown h (hput.known hb)
    cases site with
    | bump g =>
      cases hb
      obtain ⟨e, approval, now, rlp, -, rfl, ⟨-, -, -, gasLimit, fees, -, -, sig, -, hrlp⟩, -⟩ :=
        hput
      exact .inr ⟨gasLimit, fees, sig, hrlp⟩
    | wal | cancelNew | task => cases hb
    | sent | rejected | cancelMark | cancelUndo | advance | poll =>
      cases hb
      cases hput.version rfl <;> exact hh
  | none =>
    cases site with
    | wal =>
      obtain ⟨m, -, ⟨_, nonce, gasLimit, fees, _, _, signed, _, _, -, -, ⟨-, sig, -, hrlp⟩, -,
        rfl⟩, -⟩ := hput
      exact .inr ⟨gasLimit, fees, sig, hrlp⟩
    | cancelNew marked =>
      obtain ⟨m, approval, now, signed, -, rfl, -, -, fees, -, sig, -, hrlp⟩ := hput
      exact .inr ⟨_, fees, sig, hrlp⟩
    | task =>
      obtain ⟨-, _, _, _, _, rfl⟩ := hput
      exact .inl rfl
    | _ => cases hb

/-- The bytes that go out for a record are a transaction for its intent. -/
theorem SubmitOwes.known_encodes {rlp : Bytes} {opts : SubmissionOpts} {site : SubmitSite}
    {g : TxHandle} (howes : SubmitOwes role past rlp opts site) (hg : site.record = some g)
    (hknown : ∀ h, Known past h → h.signed = [] ∨ Encodes h h.signed) :
    Known past g ∧ Encodes g rlp := by
  cases site with
  | send origin wal =>
    cases hg
    obtain ⟨m, -, ⟨_, nonce, gasLimit, fees, _, _, signed, _, _, -, -, ⟨-, sig, -, hrlp⟩, -, rfl⟩,
      rfl, -, hlast⟩ := howes
    exact ⟨⟨_, List.mem_of_getLast? hlast, .inr rfl⟩, gasLimit, fees, sig, hrlp⟩
  | recover h =>
    cases hg
    obtain ⟨e, -, rfl, -, -, hsigned, before, hs, after, rfl, hmem, -⟩ := howes
    have hread : Known (before ++ ev (.pendingHandles e.account) (.ok hs) :: after) g :=
      ⟨ev (.pendingHandles e.account) (.ok hs), by simp, .inl ⟨hs, rfl, hmem⟩⟩
    exact ⟨hread, (hknown g hread).resolve_left hsigned⟩
  | bump h =>
    cases hg
    obtain ⟨e, approval, now, -, -, hseen, -, -, gasLimit, fees, -, -, sig, -, hrlp⟩ := howes
    exact ⟨hseen.known, gasLimit, fees, sig, hrlp⟩
  | cancel => cases hg

end Puts

/-- Broadcasts change nothing in the store. -/
theorem store_after_submits {w : World} {l : List PortEvent}
    (hl : ∀ x ∈ l, ∃ rlp opts site, x.op = .submit rlp opts site) :
    (l.foldl World.apply w).store = w.store := by
  induction l generalizing w with
  | nil => rfl
  | cons x l ih =>
    obtain ⟨o, r⟩ := x
    obtain ⟨rlp, opts, site, ho⟩ := hl ⟨o, r⟩ (by simp)
    obtain rfl : o = .submit rlp opts site := ho
    exact ih fun y hy => hl y (by simp [hy])

namespace Client

variable [Alloy] {W C α : Type} {cl : Client C α} {S : System ports W C α} {view : W → World}
  {p₀ p : Pool ports W C α}

/-- What `pending_handles` has reported to a call was live and on that account. -/
theorem Runs.pending_live (hS : cl.Runs S view) (h₀ : Backed.Fresh view p₀) (h : S.Reaches p₀ p)
    {th : Thread ports C α} (hth : th ∈ p.threads) {a : Address} {g : TxHandle}
    (hseen : SeenPending th.past a g) : g.account = a ∧ g.status.isTerminal = false := by
  obtain ⟨hs, hread, hmem⟩ := hseen
  obtain ⟨l, l', hl⟩ := List.append_of_mem (hS.mem_log h₀ h hth hread)
  have hperm : hs.Perm ((World.replay l).store.pendingHandles a) :=
    of_decide_eq_true (hS.log_answered (K := fun w e => w.can e) h₀ hS.can h l _ l' hl)
  exact (Store.mem_pendingHandles.mp (hperm.mem_iff.mp hmem)).2

/-- What the store reported under an id has that id. -/
theorem Runs.read_id (hS : cl.Runs S view) (h₀ : Backed.Fresh view p₀) (h : S.Reaches p₀ p)
    {th : Thread ports C α} (hth : th ∈ p.threads) {id : HandleId} {g : TxHandle}
    (hread : ev (.handle id) (.ok (some g)) ∈ th.past) : g.id = id := by
  obtain ⟨l, l', hl⟩ := List.append_of_mem (hS.mem_log h₀ h hth hread)
  have hfound : some g = (World.replay l).store.handle id :=
    of_decide_eq_true (hS.log_answered (K := fun w e => w.can e) h₀ hS.can h l _ l' hl)
  exact Table.key_of_get hfound.symm

/-- A record that a write was computed from had not settled. -/
theorem Runs.basis_live (hS : cl.Runs S view) (h₀ : Backed.Fresh view p₀) (h : S.Reaches p₀ p)
    {th : Thread ports C α} (hth : th ∈ p.threads) {role : Role} {h' g : TxHandle} {site : PutSite}
    (hput : PutOwes role th.past h' site) (hb : site.basis = some g) :
    g.status.isTerminal = false := by
  have wal : ∀ {wal}, (∃ origin, Stored th.past wal (.wal origin)) →
      wal.status.isTerminal = false := by
    rintro wal ⟨origin, hs⟩
    obtain ⟨before, after, hpast⟩ := List.append_of_mem hs
    obtain ⟨role, -, m, -, ⟨_, _, _, _, _, _, _, _, _, -, -, -, -, rfl⟩, -⟩ :=
      hS.owed h₀ h hth hpast
    rfl
  cases site with
  | wal | cancelNew | task => cases hb
  | sent wal' => cases hb; exact wal hput.2.1
  | rejected wal' =>
    cases hb
    obtain ⟨e, -, -, -, hs, -⟩ := hput
    exact wal hs
  | cancelMark target => cases hb; obtain ⟨id, -, hlive, -⟩ := hput; exact hlive
  | cancelUndo marked =>
    cases hb
    obtain ⟨m, approval, -, -, target, rfl, hlive, -⟩ := hput
    exact hlive
  | advance g =>
    cases hb
    obtain ⟨e, -, hev⟩ := hput
    exact (hS.pending_live h₀ h hth hev.seen).2
  | poll g => cases hb; obtain ⟨e, -, hp, -⟩ := hput; exact (hS.pending_live h₀ h hth hp.seen).2
  | bump g =>
    cases hb
    obtain ⟨e, approval, now, rlp, -, -, hsigned, -⟩ := hput
    exact (hS.pending_live h₀ h hth hsigned.1).2

/-- When calls are made one at a time, what `recover` broadcasts is stored and live. -/
theorem Runs.recover_stored (hS : cl.Runs S view) (hseq : S.Sequential)
    (h₀ : Backed.Fresh view p₀) (h : S.Reaches p₀ p) {th : Thread ports C α}
    (hlast : p.threads.getLast? = some th) {rlp : Bytes} {opts : SubmissionOpts} {g : TxHandle}
    {k : Except SubmissionError TxHash → Io α}
    (hprog : th.prog = .call (.submit rlp opts (.recover g)) k) :
    (view p.world).store.handle g.id = some g ∧ g.status.isTerminal = false := by
  obtain ⟨role, -, e, -, -, -, -, -, before, hs, after, hpast, hmem, hafter⟩ :=
    hS.owes h₀ h (List.mem_of_getLast? hlast) hprog
  obtain ⟨pre, hpre⟩ := hS.past_suffix hseq h₀ h hlast
  have hlog : (view p.world).log =
      (pre ++ before) ++ ev (.pendingHandles e.account) (.ok hs) :: after := by
    rw [List.append_assoc, ← hpast, hpre]
  -- nothing was written since `recover` read its handles
  have hstore : (view p.world).store = (World.replay (pre ++ before)).store := by
    rw [hS.replay h₀ h, hlog, World.replay_append, List.foldl_cons, store_after_submits hafter]
    rfl
  have hperm : hs.Perm ((World.replay (pre ++ before)).store.pendingHandles e.account) :=
    of_decide_eq_true (hS.log_answered (K := fun w e => w.can e) h₀ hS.can h _ _ _ hlog)
  obtain ⟨hstored, -, hlive⟩ := Store.mem_pendingHandles.mp (hperm.mem_iff.mp hmem)
  exact ⟨by rwa [hstore], hlive⟩

/-- What a logged write owed to its call. -/
theorem Runs.put_owed (hS : cl.Runs S view) (h₀ : Backed.Fresh view p₀) (h : S.Reaches p₀ p)
    {h' : TxHandle} {site : PutSite} {r : Except StateStoreError Unit}
    (he : ev (.putHandle h' site) r ∈ (view p.world).log) :
    ∃ role past, PutOwes role past h' site := by
  obtain ⟨th, hth, hmem⟩ := hS.exists_thread_of_mem_log h₀ h he
  obtain ⟨before, after, hpast⟩ := List.append_of_mem hmem
  obtain ⟨role, -, howes⟩ := hS.owed h₀ h hth hpast
  exact ⟨role, before, howes⟩

/-- A property of handles, which may rest on the world, holds of every stored handle and of
every handle a call knows, if no move undoes it and it holds of what is written whenever it
holds of what the writer knows. -/
theorem Runs.handles_in {P : W → TxHandle → Prop} (hS : cl.Runs S view)
    (h₀ : Backed.Fresh view p₀)
    (hmono : ∀ {p i x o r g}, S.allow p i x o r → P p.world g → P (S.next p.world x o r) g)
    (hput : ∀ {p i th x h' site k role}, S.Reaches p₀ p → th ∈ p.threads →
      th.prog = .call (.putHandle h' site) k → S.allow p i x (.putHandle h' site) (.ok ()) →
      cl.Plays th.call role → PutOwes role th.past h' site →
      (∀ h, Known th.past h → P p.world h) →
      P (S.next p.world x (.putHandle h' site) (.ok ())) h') (h : S.Reaches p₀ p) :
    (∀ g, (view p.world).store.handle g.id = some g → P p.world g) ∧
      ∀ th ∈ p.threads, ∀ g, Known th.past g → P p.world g := by
  induction h with
  | refl => exact ⟨by simp [h₀.2, World.initial, Store.empty, Store.handle], by simp [h₀.1]⟩
  | @tail p p' hreach hs ih =>
    obtain ⟨hstored, hknown⟩ := ih
    cases hs with
    | spawn c _ =>
      refine ⟨hstored, fun th hth g hg => ?_⟩
      rcases Pool.mem_spawn.mp hth with hth | rfl
      · exact hknown th hth g hg
      · exact absurd hg known_nil
    | @move i th o k x r hi hprog ha =>
      have hth := List.mem_of_getElem? hi
      have hwrote : ∀ g, wrote ⟨o, r⟩ = some g → P (S.next p.world x o r) g := by
        intro g hg
        obtain ⟨site, he⟩ := wrote_eq_some hg
        cases he
        obtain ⟨role, hrole, howes⟩ := hS.owes h₀ hreach hth hprog
        exact hput hreach hth hprog ha hrole howes (hknown th hth)
      simp only [Pool.world_answer, hS.next ha]
      refine ⟨fun g hg => ?_, fun th' hth' g hg => ?_⟩
      · rw [World.handle_apply] at hg
        cases hw : wrote ⟨o, r⟩ with
        | none => exact hmono ha (hstored g (by simpa [hw] using hg))
        | some h' =>
          simp only [hw] at hg
          split at hg
          · cases hg; exact hwrote g hw
          · exact hmono ha (hstored g hg)
      · rcases Pool.mem_answer hth' with hth' | rfl
        · exact hmono ha (hknown th' hth' g hg)
        · rcases known_snoc.mp hg with hg | hg | hg
          · exact hmono ha (hknown th hth g hg)
          · exact hmono ha (hstored g (stored_of_reads hg (hS.can ha)))
          · exact hwrote g hg

/-- The same for a property that rests on the log. -/
theorem Runs.handles {P : List PortEvent → TxHandle → Prop} (hS : cl.Runs S view)
    (h₀ : Backed.Fresh view p₀) (hmono : ∀ l e h, P l h → P (l ++ [e]) h)
    (hput : ∀ {p th h' site k role}, S.Reaches p₀ p → th ∈ p.threads →
      th.prog = .call (.putHandle h' site) k → cl.Plays th.call role →
      PutOwes role th.past h' site → (∀ h, Known th.past h → P (view p.world).log h) →
      P ((view p.world).log ++ [ev (.putHandle h' site) (.ok ())]) h') (h : S.Reaches p₀ p) :
    (∀ g, (view p.world).store.handle g.id = some g → P (view p.world).log g) ∧
      ∀ th ∈ p.threads, ∀ g, Known th.past g → P (view p.world).log g := by
  refine hS.handles_in (P := fun w => P (view w).log) h₀ (fun ha hg => ?_)
    (fun hreach hth hprog ha hrole howes hknown => ?_) h
  · rw [hS.next ha, World.apply_log]
    exact hmono _ _ _ hg
  · rw [hS.next ha, World.apply_log]
    exact hput hreach hth hprog hrole howes hknown

theorem Runs.recorded (hS : cl.Runs S view) (h₀ : Backed.Fresh view p₀) (h : S.Reaches p₀ p) :
    (∀ g, (view p.world).store.handle g.id = some g → Recorded g) ∧
      ∀ th ∈ p.threads, ∀ g, Known th.past g → Recorded g :=
  hS.handles (P := fun _ => Recorded) h₀ (fun _ _ _ hc => hc)
    (fun _ _ _ _ howes hknown => howes.recorded hknown) h

theorem Runs.coherent (hS : cl.Runs S view) (h₀ : Backed.Fresh view p₀) (h : S.Reaches p₀ p) :
    (∀ g, (view p.world).store.handle g.id = some g → Coherent g) ∧
      ∀ th ∈ p.threads, ∀ g, Known th.past g → Coherent g :=
  hS.handles (P := fun _ => Coherent) h₀ (fun _ _ _ hc => hc)
    (fun _ _ _ _ howes hknown => howes.coherent hknown) h

theorem Runs.encodes (hS : cl.Runs S view) (h₀ : Backed.Fresh view p₀) (h : S.Reaches p₀ p) :
    (∀ g, (view p.world).store.handle g.id = some g → g.signed = [] ∨ Encodes g g.signed) ∧
      ∀ th ∈ p.threads, ∀ g, Known th.past g → g.signed = [] ∨ Encodes g g.signed :=
  hS.handles (P := fun _ g => g.signed = [] ∨ Encodes g g.signed) h₀ (fun _ _ _ hg => hg)
    (fun _ _ _ _ howes hknown => howes.encodes hknown) h

end Client

end WalletKit
