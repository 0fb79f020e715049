import WalletKit.Runtime.Orderly
import WalletKit.Runtime.Toy

/-!
# A handle that was returned is not forgotten

A caller of the wallet keeps the id of a handle and asks for it later. Whatever else has been called
in between, the store has a record under that id from then on, and it is a record of the same intent
at the same nonce: each write to it was computed from a version of it, and a new record takes no id
of another intent or nonce.
-/
namespace WalletKit

open Machine

theorem SameRecord.refl (h : TxHandle) : SameRecord h h := ⟨rfl, rfl, rfl, rfl, rfl⟩

theorem SameRecord.symm {h h' : TxHandle} (hs : SameRecord h h') : SameRecord h' h :=
  ⟨hs.id.symm, hs.account.symm, hs.intent.symm, hs.intentHash.symm, hs.nonce.symm⟩

section Programs

/-- What a program has seen, with nothing asked of what it does. -/
abbrev seen : Spec ports (List PortEvent) := .history fun _ _ => True

/-- The program ends as `Q` says whatever it has seen. -/
theorem wp_seen {α : Type} {x : Io α} {Q : α → List PortEvent → Prop} {past : List PortEvent}
    (hQ : ∀ a past, Q a past) : x.wp seen Q past :=
  Prog.wp_of_trivial x past (fun _ _ => trivial) (fun _ => trivial) hQ

variable [Alloy]

/-- A version of the record was stored. -/
def Filed (past : List PortEvent) (h : TxHandle) : Prop :=
  ∃ g site, Stored past g site ∧ SameRecord g h

/-- A send that succeeds returns the record of its intent, as sent. -/
def SendFiles (intent : TxIntent) (r : Except TransactionManagerError TxHandle)
    (past : List PortEvent) : Prop :=
  ∀ h, r = .ok h → Filed past h ∧ h.intent = intent ∧ h.status = .sent

omit [Alloy] in
theorem SendFiles.failed {intent : TxIntent} {e : TransactionManagerError}
    {past : List PortEvent} : SendFiles intent (.error e) past := by
  rintro h ⟨⟩

namespace TransactionManager

variable (m : TransactionManager) {past : List PortEvent} {intent : TxIntent}

omit [Alloy] in
theorem submitWal_files {wal : TxHandle} {origin : Origin} (hwal : wal.intent = intent)
    (hstored : Stored past wal (.wal origin)) :
    (m.submitWal wal origin).run.wp seen (SendFiles intent) past := by
  have sent : ∀ past, Stored past wal (.wal origin) →
      (liftM (recordSent wal) : SendM TxHandle).run.wp seen (SendFiles intent) past := by
    intro past hstored
    simp only [Prog.wp_run_lift, recordSent, Prog.wp_bind, StateStore.wp_putHandle, asks_history]
    refine ⟨trivial, fun r h hok => ?_⟩
    cases hok
    exact ⟨⟨wal, _, List.mem_append_left _ hstored, rfl, rfl, rfl, rfl, rfl⟩, hwal, rfl⟩
  unfold submitWal
  simp only [Prog.wp_run_bind, Prog.wp_run_lift, Submission.wp_submit, asks_history,
    Prog.forall_except]
  refine ⟨trivial, fun e => ?_, fun _ => sent _ (List.mem_append_left _ hstored)⟩
  split
  · exact sent _ (List.mem_append_left _ hstored)
  · unfold rejectSend
    simp only [Prog.wp_run_bind, Prog.wp_run_lift, StateStore.wp_putHandle, asks_history]
    exact ⟨trivial, fun _ => wp_seen fun _ _ => SendFiles.failed⟩

theorem buildSignSubmit_files (gasLimit : Nat) (fees : Eip1559Estimation) (nonce : Nat)
    (approval : PolicyApproval) (opts : SubmissionOpts) (context : Option MetaContext)
    (origin : Origin) :
    (m.buildSignSubmit intent gasLimit fees nonce approval opts context origin).run.wp seen
      (SendFiles intent) past := by
  unfold buildSignSubmit
  simp only [Prog.wp_run_bind, Prog.wp_run_lift, Clock.wp_nowUnix, asks_history,
    Prog.wp_run_outcome]
  refine ⟨trivial, fun now => wp_seen fun signed past => ?_⟩
  cases signed with
  | error e =>
    simp only [Prog.wp_run_bind, Prog.wp_run_lift]
    exact wp_seen fun _ _ => SendFiles.failed
  | ok signed =>
    simp only [Prog.wp_run_bind, Prog.wp_run_lift, StateStore.wp_putHandle, asks_history,
      Prog.forall_except]
    exact ⟨trivial, fun e => wp_seen fun _ _ => SendFiles.failed,
      fun _ => m.submitWal_files rfl (by simp [Stored])⟩

theorem sendWithMeta_files (opts : SubmissionOpts) (context : Option MetaContext)
    (origin : Origin) :
    (m.sendWithMeta intent opts context origin).run.wp seen (SendFiles intent) past := by
  unfold sendWithMeta
  split
  · exact SendFiles.failed
  split
  · exact SendFiles.failed
  simp only [Prog.wp_run_bind, Prog.wp_run_lift, Rpc.wp_estimateGas, asks_history]
  refine ⟨trivial, fun estimated => ?_⟩
  split
  · exact SendFiles.failed
  · exact SendFiles.failed
  simp only [Prog.wp_run_bind, Prog.wp_run_orThrow, GasOracle.wp_estimate, asks_history,
    Prog.forall_except, Except.mapError, PolicyEngine.wp_evaluate]
  refine ⟨trivial, fun e => .failed, fun fees => ⟨trivial, fun e => .failed, fun decision => ?_⟩⟩
  cases decision with
  | deny rejection => exact SendFiles.failed
  | allow approval =>
    simp only [Prog.wp_run_bind, Prog.wp_run_orThrow]
    refine wp_seen fun nonce past => ?_
    cases nonce with
    | error e => exact SendFiles.failed
    | ok nonce => exact m.buildSignSubmit_files _ _ _ _ _ _ _

end TransactionManager

/-- What a call that has returned has done for its caller. -/
def WalletCall.Delivers (c : WalletCall) : WalletResult → List PortEvent → Prop
  | .sent (.ok h), past => Filed past h ∧
      ∀ intent, (c = .send intent ∨ ∃ opts, c = .sendWith intent opts) →
        h.intent = intent ∧ h.status = .sent
  | .handle (.ok found), past => ∃ id, c = .handle id ∧ ev (.handle id) (.ok found) ∈ past
  | .status (.ok s), past => ∃ id, ∃ found : Option TxHandle, c = .status id ∧
      ev (.handle id) (.ok found) ∈ past ∧ s = found.map (·.status)
  | _, _ => True

theorem Wallet.sendGasless_files (w : Wallet) (intent : TxIntent) (opts : GaslessOpts) :
    (w.sendGasless intent opts).run.wp seen (fun r past => ∀ h, r = .ok h → Filed past h) [] := by
  have failed : ∀ (e : WalletKitError) (past : List PortEvent),
      ∀ h, (Except.error e : Except WalletKitError TxHandle) = .ok h → Filed past h := by
    rintro e past h ⟨⟩
  unfold Wallet.sendGasless
  split
  · unfold Wallet.sendSelfRelay
    refine Prog.wp_run_bind.mpr (wp_seen fun signed past => ?_)
    cases signed with
    | error e => exact failed e past
    | ok signed =>
      refine Prog.wp_run_orThrow.mpr
        (Prog.wp_mono (TransactionManager.sendWithMeta_files _ _ _ _) ?_)
      intro r past hr h hok
      cases r with
      | error e => cases hok
      | ok h' =>
        cases hok
        exact (hr h rfl).1
  · unfold Wallet.sendGelato
    simp only [Prog.wp_run_bind, Prog.wp_run_lift, Prog.wp_run_orThrow]
    refine wp_seen fun now past => wp_seen fun call past => ?_
    cases call with
    | error e => exact failed _ past
    | ok call =>
      refine wp_seen fun signature past => ?_
      cases signature with
      | error e => exact failed _ past
      | ok signature =>
        refine wp_seen fun task past => ?_
        cases task with
        | error e => exact failed _ past
        | ok task =>
          unfold TransactionManager.persistTaskHandle
          simp only [Except.mapError, Prog.wp_run_bind, Prog.wp_run_lift, Prog.wp_run_orThrow,
            Clock.wp_nowUnix, StateStore.wp_putHandle, asks_history, Prog.forall_except]
          refine ⟨trivial, fun now => ⟨trivial, fun e => failed _ _, fun _ h hok => ?_⟩⟩
          cases hok
          exact ⟨_, .task, by simp [Stored], .refl _⟩
  · exact failed _ _

theorem WalletCall.body_delivers (w : Wallet) (c : WalletCall) :
    (c.body w).wp seen c.Delivers [] := by
  cases c with
  | send intent | sendWith intent opts =>
    refine Prog.wp_map.mpr (Prog.wp_run_orThrow.mpr (Prog.wp_mono
      (w.manager.sendWithMeta_files _ _ _) ?_))
    intro r past hr
    cases r with
    | error e => trivial
    | ok h =>
      obtain ⟨hfiled, hintent, hstatus⟩ := hr h rfl
      exact ⟨hfiled, by simp [hintent, hstatus]⟩
  | sendGasless intent opts =>
    refine Prog.wp_map.mpr (Prog.wp_mono (w.sendGasless_files intent opts) ?_)
    intro r past hr
    cases r with
    | error e => trivial
    | ok h => exact ⟨hr h rfl, by simp⟩
  | cancel id =>
    refine Prog.wp_map.mpr (Prog.wp_run_orThrow.mpr (Prog.wp_mono (Prog.wp_history_imp
      (w.manager.cancel_writes id) fun _ _ _ => trivial) ?_))
    intro r past hr
    cases r with
    | error e => trivial
    | ok h =>
      obtain ⟨marked, hlast⟩ := hr h rfl
      exact ⟨⟨h, _, List.mem_of_getLast? hlast, .refl h⟩, by simp⟩
  | tick => exact Prog.wp_map.mpr (wp_seen fun _ _ => trivial)
  | handle id =>
    simp only [body, Wallet.handle, Prog.wp_map, Prog.wp_run_orThrow, StateStore.wp_handle,
      asks_history, Prog.forall_except]
    exact ⟨trivial, fun _ => trivial, fun found => ⟨id, rfl, by simp⟩⟩
  | status id =>
    simp only [body, Wallet.status, Wallet.handle, Prog.wp_map, Prog.wp_run_bind,
      Prog.wp_run_orThrow, StateStore.wp_handle, asks_history, Prog.forall_except]
    exact ⟨trivial, fun _ => trivial, fun found => ⟨id, found, rfl, by simp, rfl⟩⟩

end Programs

section Records

variable [Alloy] {W C α : Type} {cl : Client C α} {S : System ports W C α} {view : W → World}
  {p₀ p q : Pool ports W C α}

/-- The store has a version of the record. -/
def World.Keeps (w : World) (g : TxHandle) : Prop :=
  ∃ g', w.store.handle g.id = some g' ∧ SameRecord g g'

omit [Alloy] in
/-- A write that keeps the record it replaces keeps them all. -/
theorem World.Keeps.apply {w : World} {g : TxHandle} (h : w.Keeps g) {e : PortEvent}
    (he : ∀ h' g', wrote e = some h' → w.store.handle h'.id = some g' → SameRecord g' h') :
    (w.apply e).Keeps g := by
  obtain ⟨g', hg, hsame⟩ := h
  rw [Keeps, handle_apply]
  cases hw : wrote e with
  | none => exact ⟨g', hg, hsame⟩
  | some h' =>
    dsimp only
    split
    · rename_i hid
      exact ⟨h', rfl, hsame.trans (he h' g' hw (hid ▸ hg))⟩
    · exact ⟨g', hg, hsame⟩

/-- Records of one intent and nonce are versions of each other. -/
theorem Coherent.sameRecord {g h : TxHandle} (hg : Coherent g) (hh : Coherent h)
    (hintent : g.intent = h.intent) (hnonce : g.nonce = h.nonce) : SameRecord g h where
  id := by rw [hg.id, hh.id, hintent, hnonce]
  account := by rw [hg.account, hh.account, hintent]
  intent := hintent.symm
  intentHash := by rw [hg.intentHash, hh.intentHash, hintent]
  nonce := hnonce.symm

/-- No write replaces a record by one of another intent or nonce, where the store has a version of
whatever the writer knows. -/
theorem Client.Runs.replaces_version (hS : cl.Runs S view) (h₀ : Backed.Fresh view p₀)
    (h : S.Reaches p₀ p) {th : Thread ports C α} (hth : th ∈ p.threads) {h' : TxHandle}
    {site : PutSite} {k : Except StateStoreError Unit → Io α}
    (hprog : th.prog = .call (.putHandle h' site) k)
    (hdistinct : distinctIds (view p.world) (ev (.putHandle h' site) (.ok ())))
    (hknown : ∀ g, Known th.past g → (view p.world).Keeps g) {g : TxHandle}
    (hg : (view p.world).store.handle h'.id = some g) : SameRecord g h' := by
  obtain ⟨role, -, howes⟩ := hS.owes h₀ h hth hprog
  cases hb : site.basis with
  | some basis =>
    have hsame := PutOwes.sameRecord howes hb
    obtain ⟨g', hg', hversion⟩ := hknown basis (PutOwes.known howes hb)
    rw [← hsame.id, hg] at hg'
    cases hg'
    exact hversion.symm.trans hsame
  | none =>
    obtain ⟨hintent, hnonce⟩ := same_of_distinctIds hdistinct hb hg
    have hid : g.id = h'.id := Table.key_of_get hg
    obtain ⟨hstored, hseen⟩ := hS.coherent h₀ h
    exact (hstored g (hid ▸ hg)).sameRecord (PutOwes.coherent howes (hseen th hth)) hintent hnonce

/-- Whatever a call knows of, the store has a version of it. -/
theorem Client.Runs.keeps (hS : cl.Runs S view) (h₀ : Backed.Fresh view p₀)
    (hdistinct : ∀ {p i x o r}, S.allow p i x o r → distinctIds (view p.world) ⟨o, r⟩)
    (h : S.Reaches p₀ p) : ∀ th ∈ p.threads, ∀ g, Known th.past g → (view p.world).Keeps g := by
  induction h with
  | refl => simp [h₀.1]
  | @tail p p' hreach hstep ih =>
    cases hstep with
    | spawn c _ =>
      intro th hth g hg
      rcases Pool.mem_spawn.mp hth with hth | rfl
      · exact ih th hth g hg
      · exact absurd hg known_nil
    | @move i th o k x r hi hprog ha =>
      have hth := List.mem_of_getElem? hi
      have hwrite : ∀ h' g', wrote ⟨o, r⟩ = some h' →
          (view p.world).store.handle h'.id = some g' → SameRecord g' h' := by
        intro h' g' hw hg'
        obtain ⟨site, ⟨⟩⟩ := wrote_eq_some hw
        exact hS.replaces_version h₀ hreach hth hprog (hdistinct ha) (ih th hth) hg'
      intro th' hth' g hg
      rw [Pool.world_answer, hS.next ha]
      rcases Pool.mem_answer hth' with hth' | rfl
      · exact (ih th' hth' g hg).apply hwrite
      · rcases known_snoc.mp hg with hg | hg | hg
        · exact (ih th hth g hg).apply hwrite
        · have hstored := stored_of_reads hg (hS.can ha)
          exact World.Keeps.apply ⟨g, hstored, .refl g⟩ hwrite
        · refine ⟨g, ?_, .refl g⟩
          rw [World.handle_apply, hg]
          simp

/-- A record that some call knows of is kept from then on. -/
theorem Client.Runs.keeps_on (hS : cl.Runs S view) (h₀ : Backed.Fresh view p₀)
    (hdistinct : ∀ {p i x o r}, S.allow p i x o r → distinctIds (view p.world) ⟨o, r⟩)
    (h : S.Reaches p₀ p) (hq : S.Reaches p q) {g : TxHandle} (hg : (view p.world).Keeps g) :
    (view q.world).Keeps g := by
  induction hq with
  | refl => exact hg
  | @tail q q' hreach hstep ih =>
    cases hstep with
    | spawn c _ => exact ih
    | @move i th o k x r hi hprog ha =>
      have hth := List.mem_of_getElem? hi
      rw [Pool.world_answer, hS.next ha]
      refine ih.apply fun h' g' hw hg' => ?_
      obtain ⟨site, ⟨⟩⟩ := wrote_eq_some hw
      exact hS.replaces_version h₀ (h.trans hreach) hth hprog (hdistinct ha)
        (hS.keeps h₀ hdistinct (h.trans hreach) th hth) hg'

end Records

section Law

variable [Alloy]

/-- The calls of a wallet in any interleaving, where ids do not collide. -/
abbrev Wallet.distinctCalls (w : Wallet) : System ports World WalletCall WalletResult :=
  w.client.system fun p _ e => distinctIds p.world e

/-- A call that looks up the id finds the record. -/
def Finds (g : TxHandle) (c : WalletCall) : WalletResult → Prop
  | .handle (.ok found) => c = .handle g.id → ∃ g', found = some g' ∧ SameRecord g g'
  | .status (.ok s) => c = .status g.id → s ≠ none
  | _ => True

/-- What is read under this id is a version of the record. -/
def ReadsKept (g : TxHandle) (e : PortEvent) : Prop :=
  ∀ found, e = ev (.handle g.id) (.ok found) → ∃ g', found = some g' ∧ SameRecord g g'

omit [Alloy] in
theorem World.Keeps.readsKept {w : World} {g : TxHandle} (h : w.Keeps g) {e : PortEvent}
    (hcan : w.can e) : ReadsKept g e := by
  rintro found rfl
  obtain ⟨g', hg, hsame⟩ := h
  have hfound : found = w.store.handle g.id := of_decide_eq_true hcan
  exact ⟨g', hfound.trans hg, hsame⟩

omit [Alloy] in
theorem WalletCall.Delivers.finds {c : WalletCall} {r : WalletResult} {past : List PortEvent}
    {g : TxHandle} (h : c.Delivers r past) (hreads : ∀ e ∈ past, ReadsKept g e) : Finds g c r := by
  unfold Finds
  split
  · rintro rfl
    obtain ⟨id, hid, hread⟩ := h
    cases hid
    exact hreads _ hread _ rfl
  · rintro rfl
    obtain ⟨id, found, hid, hread, rfl⟩ := h
    cases hid
    obtain ⟨g', rfl, -⟩ := hreads _ hread _ rfl
    simp
  · trivial

/-- **A handle that was returned is not forgotten.** Once a send, a gasless send or a cancel has
returned a handle, the store has a record of that intent and nonce under its id in every later
state, and every `handle` or `status` call made from then on finds it, if the store answers. No new
record takes the id of another one, so the hash of ids has no collision in the run. A send returns
the record of its own intent, as sent. -/
theorem returned_handle_kept (w : Wallet) {p q : WalletPool}
    (h : w.distinctCalls.Reaches Client.start p) (hq : w.distinctCalls.Reaches p q)
    {th : WalletThread} (hth : th ∈ p.threads) {g : TxHandle}
    (hret : th.prog = .ret (.sent (.ok g))) :
    q.world.Keeps g ∧
      (∀ (j : Nat) (th' : WalletThread) r, p.threads.length ≤ j → q.threads[j]? = some th' →
        th'.prog = .ret r → Finds g th'.call r) ∧
      ∀ intent, (th.call = .send intent ∨ ∃ opts, th.call = .sendWith intent opts) →
        g.intent = intent ∧ g.status = .sent := by
  have hS := w.client.system_runs fun p _ e => distinctIds p.world e
  have hdistinct : ∀ {p : WalletPool} {i x o r}, w.distinctCalls.allow p i x o r →
      distinctIds (id p.world) ⟨o, r⟩ := fun ha => ha.2
  have hends := h.history (WalletCall.body_delivers w) rfl th hth
  rw [hret] at hends
  obtain ⟨⟨g₀, site, hstored, hsame⟩, hintent⟩ := hends
  have hkeeps : p.world.Keeps g := by
    obtain ⟨g', hg', hversion⟩ := hS.keeps Client.fresh_start hdistinct h th hth g₀ hstored.known
    exact ⟨g', hsame.id ▸ hg', hsame.symm.trans hversion⟩
  refine ⟨hS.keeps_on Client.fresh_start hdistinct h hq hkeeps, ?_, hintent⟩
  intro j th' r hj hth' hret'
  obtain ⟨new, hpast, hnew⟩ := hq.since (K := fun _ => ReadsKept g) (fun hreach ha =>
    (hS.keeps_on Client.fresh_start hdistinct h hreach hkeeps).readsKept (hS.can ha)) j
  -- a call made since has no event from before
  have hfresh : p.pastOf j = [] := by simp [Pool.pastOf, List.getElem?_eq_none hj]
  rw [hfresh, List.nil_append, Pool.pastOf_of_get hth'] at hpast
  have hreach : w.distinctCalls.Reaches Client.start q := h.trans hq
  have hends' := hreach.history (WalletCall.body_delivers w) rfl th' (List.mem_of_getElem? hth')
  rw [hret'] at hends'
  refine WalletCall.Delivers.finds hends' fun e he => ?_
  obtain ⟨before, after, hsplit⟩ := List.append_of_mem (hpast ▸ he)
  exact hnew before e after hsplit

end Law

section HandleRun

attribute [local instance] Toy.alloy

instance (w : Wallet) (p : WalletPool) (i : Nat) (x : w.distinctCalls.Choice) (o : ports.Op)
    (r : ports.Reply o) : Decidable (w.distinctCalls.allow p i x o r) :=
  inferInstanceAs (Decidable (_ = true ∧ _ = true))

instance (w : Wallet) (p : WalletPool) (c : WalletCall) : Decidable (w.distinctCalls.admits p c) :=
  inferInstanceAs (Decidable True)

/-- A send has returned. -/
def sentOnce : WalletPool :=
  System.played (S := Toy.wallet.distinctCalls) Client.start
    [.spawn (.send Toy.intent), .moves 0 40 () (World.serve Toy.calm)]

/-- A tick settles it, and its status is asked for. -/
def askedLater : WalletPool :=
  System.played (S := Toy.wallet.distinctCalls) sentOnce
    [.spawn .tick, .moves 1 40 () (World.serve (Toy.chain 14 5 (some Toy.receipt))),
      .spawn (.status (.new Toy.intent.hash 4)), .moves 2 2 () (World.serve Toy.calm)]

def returned? (p : WalletPool) (i : Nat) : Option TxHandle :=
  match (p.threads[i]?.map (·.prog) : Option (Prog ports WalletResult)) with
  | some (.ret (.sent (.ok h))) => some h
  | _ => none

theorem thread_of_returned? {p : WalletPool} {i : Nat} {h : TxHandle}
    (hr : returned? p i = some h) : ∃ th ∈ p.threads, th.prog = .ret (.sent (.ok h)) := by
  unfold returned? at hr
  split at hr
  · rename_i h' hprog
    cases hr
    obtain ⟨th, hth, hprog⟩ := Option.map_eq_some_iff.mp hprog
    exact ⟨th, List.mem_of_getElem? hth, hprog⟩
  · cases hr

theorem returned_handle_kept_asked : ∃ g : TxHandle, returned? sentOnce 0 = some g ∧
    askedLater.world.Keeps g ∧ askedLater.world.store.has (·.status = .confirmed 10) := by
  have hreach : Toy.wallet.distinctCalls.Reaches Client.start sentOnce := System.reaches_played _ _
  have hlater : Toy.wallet.distinctCalls.Reaches sentOnce askedLater := System.reaches_played _ _
  have hrun : (returned? sentOnce 0).isSome := by decide +kernel
  obtain ⟨g, hg⟩ := Option.isSome_iff_exists.mp hrun
  obtain ⟨th, hth, hret⟩ := thread_of_returned? hg
  exact ⟨g, hg, (returned_handle_kept Toy.wallet hreach hlater hth hret).1, by decide +kernel⟩

end HandleRun

end WalletKit
