import WalletKit.Nonces.Floor
import WalletKit.Runtime.Alone
import WalletKit.Runtime.Chain
import WalletKit.Runtime.Orderly

/-!
# A call that runs alone among truthful chains

From its first step to its last nothing else happens, the store works, and each read of the chain
is answered by one of a set of chains: the one chain of that time, or those it grows through. The
other ports answer as they like. What such a call leaves alone is the record of a handle whose
nonce is consumed: a send takes a nonce at or above the count that its account was moved to.
-/
namespace WalletKit

open Machine Signing World

/-- A read of the chain succeeds, and tells what it is. -/
def Chain.answers (c : Chain) : PortEvent → Bool
  | ⟨.blockNumber, r⟩ => (r : Except RpcError Nat).toOption = some c.head
  | ⟨.txCount a, r⟩ => (r : Except RpcError Nat).toOption = some (c.count a)
  | ⟨.finalizedBlock, r⟩ => (r : Except RpcError (Option Nat)).toOption = some c.finalized
  | ⟨.receipt x, r⟩ =>
    (r : Except RpcError (Option TransactionReceipt)).toOption = some (c.receipt x)
  | ⟨.blockHash b, r⟩ => (r : Except RpcError (Option B256)).toOption = some (c.blockHash b)
  | _ => true

/-- A program that nothing interrupts, on a store that works and where ids do not collide, with
reads answered by these chains. It may not be cut off. -/
def World.truthful (cs : Chain → Prop) : Spec ports World where
  step w o r w' := w.can ⟨o, r⟩ ∧ working ⟨o, r⟩ ∧ distinctIds w ⟨o, r⟩ ∧
    (∃ c, cs c ∧ c.answers ⟨o, r⟩) ∧ w' = w.apply ⟨o, r⟩
  owes _ _ := True
  stuck _ := False

/-- The handle is stored so, its account gives out no nonce below `c`, and no executor remembers a
head above `l`. -/
structure Holds (g : TxHandle) (c l : Nat) (w : World) : Prop where
  stored : w.store.handle g.id = some g
  floor : 0 < c → (w.store.loadNonceState ⟨g.account⟩).version ≠ 0 ∧
    (w.store.loadNonceState ⟨g.account⟩).value.AtLeast c
  heads : ∀ x, w.lastLatest x ≤ l

/-- An operation that changes neither the store nor what executors remember of the head. -/
def Leaves : Op → Prop
  | .putHandle _ _ | .casNonceState _ _ _ _ _ | .lastLatestStore _ _ => False
  | _ => True

section Rules

variable {cs : Chain → Prop} {g : TxHandle} {c l : Nat} {w : World}

theorem asks_truthful {o : Op} {Q : o.Reply → World → Prop} :
    Spec.Asks (truthful cs) o Q w ↔ ∀ r, w.can (ev o r) → working (ev o r) →
      distinctIds w (ev o r) → (∃ c, cs c ∧ c.answers (ev o r)) → Q r (w.apply (ev o r)) :=
  ⟨fun h r hc hw hd ht => h.2 r _ ⟨hc, hw, hd, ht, rfl⟩, fun h => ⟨trivial, by
    rintro r _ ⟨hc, hw, hd, ht, rfl⟩
    exact h r hc hw hd ht⟩⟩

theorem Leaves.store {o : Op} (ho : Leaves o) (s : Store) (r : o.Reply) :
    World.storeAfter s ⟨o, r⟩ = s := by
  cases o with
  | putHandle | casNonceState => cases ho
  | _ => rfl

theorem Holds.leaves (h : Holds g c l w) {o : Op} (ho : Leaves o) (r : o.Reply) :
    Holds g c l (w.apply (ev o r)) := by
  have hstore : (w.apply (ev o r)).store = w.store := ho.store _ r
  refine ⟨hstore ▸ h.stored, hstore ▸ h.floor, fun x => ?_⟩
  rw [ev, lastLatest_apply (by rintro x n rfl; cases ho)]
  exact h.heads x

theorem asks_same {o : Op} {Q : o.Reply → World → Prop} (h : Holds g c l w) (ho : Leaves o)
    (hQ : ∀ r v, v.store = w.store → Holds g c l v → Q r v) : Spec.Asks (truthful cs) o Q w :=
  asks_truthful.mpr fun r _ _ _ _ => hQ r _ (ho.store _ r) (h.leaves ho r)

theorem asks_leaves {o : Op} {Q : o.Reply → World → Prop} (h : Holds g c l w) (ho : Leaves o)
    (hQ : ∀ r v, Holds g c l v → Q r v) : Spec.Asks (truthful cs) o Q w :=
  asks_same h ho fun r v _ => hQ r v

/-- A read of the chain, with what one of the chains says. -/
theorem asks_chain {o : Op} {Q : o.Reply → World → Prop} (h : Holds g c l w) (ho : Leaves o)
    {f : Chain → o.Reply} (hread : ∀ x r, x.answers (ev o r) → r = f x)
    (hQ : ∀ x v, cs x → Holds g c l v → Q (f x) v) : Spec.Asks (truthful cs) o Q w := by
  refine asks_truthful.mpr fun r _ _ _ ⟨x, hx, hr⟩ => ?_
  obtain rfl := hread x r hr
  exact hQ x _ hx (h.leaves ho _)

theorem ok_of_toOption {ε α : Type} {r : Except ε α} {a : α} (h : r.toOption = some a) :
    r = .ok a := by
  cases r with
  | error e => cases h
  | ok b => cases h; rfl

variable {Q : Except StateStoreError Unit → World → Prop} {h' : TxHandle} {site : PutSite}

theorem asks_put (hQ : distinctIds w (ev (.putHandle h' site) (.ok ())) →
    Q (.ok ()) (w.apply (ev (.putHandle h' site) (.ok ())))) :
    Spec.Asks (truthful cs) (.putHandle h' site) Q w := by
  refine asks_truthful.mpr fun r _ hw hd _ => ?_
  match r with
  | .ok () => exact hQ hd
  | .error _ => cases hw

theorem Holds.put_other (h : Holds g c l w) (hne : h'.id ≠ g.id) :
    Holds g c l (w.apply (ev (.putHandle h' site) (.ok ()))) := by
  refine ⟨?_, h.floor, h.heads⟩
  rw [handle_apply]
  exact (if_neg (Ne.symm hne)).trans h.stored

/-- Another handle is written. -/
theorem asks_put_other (h : Holds g c l w) (hne : h'.id ≠ g.id)
    (hQ : ∀ v, Holds g c l v → Q (.ok ()) v) : Spec.Asks (truthful cs) (.putHandle h' site) Q w :=
  asks_put fun _ => hQ _ (h.put_other hne)

/-- A new record of another transaction is written. -/
theorem asks_put_new (h : Holds g c l w) (hb : site.basis = none)
    (hdiff : h'.intent = g.intent → h'.nonce ≠ g.nonce)
    (hQ : ∀ v, h'.id ≠ g.id → Holds g c l v → Q (.ok ()) v) :
    Spec.Asks (truthful cs) (.putHandle h' site) Q w := by
  refine asks_put fun hd => ?_
  have hne : h'.id ≠ g.id := by
    intro hid
    obtain ⟨hintent, hnonce⟩ := same_of_distinctIds hd hb (hid ▸ h.stored)
    exact hdiff hintent.symm hnonce.symm
  exact hQ _ hne (h.put_other hne)

/-- The handle itself is written. -/
theorem asks_put_own (h : Holds g c l w) (hsame : SameRecord g h')
    (hQ : ∀ v, Holds h' c l v → Q (.ok ()) v) :
    Spec.Asks (truthful cs) (.putHandle h' site) Q w := by
  refine asks_put fun _ => hQ _ ⟨?_, ?_, h.heads⟩
  · rw [handle_apply]
    exact if_pos rfl
  · rw [hsame.account]
    exact h.floor

end Rules

namespace LocalNonceManager

variable {cs : Chain → Prop} {g : TxHandle} {c d l : Nat} {w : World} {m : LocalNonceManager}
  {scope : NonceScope}

theorem load_alone {Q : Except NonceManagerError (Versioned NonceState) → World → Prop}
    (h : Holds g c l w) (hQ : ∀ v, v.store = w.store → Holds g c l v →
      Q (.ok (w.store.loadNonceState scope)) v) : (load scope).run.wp (truthful cs) Q w := by
  unfold load
  simp only [Prog.wp_run_orThrow, StateStore.wp_loadNonceState]
  refine asks_truthful.mpr fun r hc hw _ _ => ?_
  cases r with
  | error => cases hw
  | ok v =>
    obtain rfl : v = w.store.loadNonceState scope := of_decide_eq_true hc
    exact hQ _ rfl (h.leaves (o := .loadNonceState scope) trivial _)

/-- Alone, a swap of what was loaded goes through. -/
theorem cas_alone {Q : Except NonceManagerError Bool → World → Prop} {s : NonceState}
    {note : CasNote} (h : Holds g c l w) (hs : scope = ⟨g.account⟩ ∧ s.AtLeast d ∨
      scope ≠ ⟨g.account⟩ ∧ d = c) (hQ : ∀ v, Holds g d l v → Q (.ok true) v) :
    (m.cas scope (w.store.loadNonceState scope).version s note).run.wp (truthful cs) Q w := by
  unfold cas
  simp only [Prog.wp_run_orThrow, StateStore.wp_casNonceState]
  refine asks_truthful.mpr fun r hc hw _ _ => ?_
  rcases r with _ | _ | _
  · cases hw
  · have hfalse := Store.casNonceState_loaded (of_decide_eq_true hc)
    cases hfalse
  · refine hQ _ ⟨?_, ?_, h.heads⟩
    · rw [handle_apply]
      exact h.stored
    · intro hd
      obtain ⟨-, hload⟩ := loadNonceState_swap hc
      rw [hload]
      rcases hs with ⟨rfl, hs⟩ | ⟨hne, rfl⟩
      · rw [if_pos rfl]
        exact ⟨Nat.succ_ne_zero _, hs⟩
      · rw [if_neg (Ne.symm hne)]
        exact h.floor hd

/-- Alone, a loop swaps in its first round. -/
theorem casOrRetry_alone {α : Type} {Q : Except NonceManagerError α → World → Prop} {version : Nat}
    {s : NonceState} {note : CasNote} {x : α} {retry : ExceptT NonceManagerError Io α}
    (h : Holds g c l w) (hv : version = (w.store.loadNonceState scope).version)
    (hs : scope = ⟨g.account⟩ ∧ s.AtLeast d ∨ scope ≠ ⟨g.account⟩ ∧ d = c)
    (hQ : ∀ v, Holds g d l v → Q (.ok x) v) :
    (do if ← m.cas scope version s note then return x
        retry).run.wp (truthful cs) Q w := by
  subst hv
  exact Prog.wp_run_bind.mpr (cas_alone h hs fun v hv => hQ v hv)

variable {a : Address} {n : Nat}

theorem attempts_succ (hm : 0 < m.attempts) : ∃ rounds, m.attempts = rounds + 1 :=
  ⟨m.attempts - 1, by omega⟩

/-- What is allocated on the handle's account is at or above the floor. -/
theorem allocate_alone {Q : Except NonceManagerError Nat → World → Prop} (hm : 0 < m.attempts)
    (h : Holds g c l w) (hc : 0 < c)
    (hQ : ∀ r v, Holds g c l v → (∀ n, r = .ok n → a = g.account → c ≤ n) → Q r v) :
    (m.allocate a).run.wp (truthful cs) Q w := by
  obtain ⟨rounds, hrounds⟩ := attempts_succ hm
  unfold allocate
  rw [hrounds, allocateLoop]
  refine Prog.wp_run_bind.mpr (load_alone h fun v hv h => ?_)
  have hversion : (w.store.loadNonceState ⟨a⟩).version = (v.store.loadNonceState ⟨a⟩).version := by
    rw [hv]
  refine Prog.wp_run_bind.mpr (wp_firstUse (fun hfirst => ?_) fun hused => ?_)
  · -- the handle's account was used before
    have hne : a ≠ g.account := by
      rintro rfl
      exact (h.floor hc).1 (hversion ▸ hfirst)
    refine asks_same h trivial fun r u hstore hu => ?_
    cases r with
    | error e => exact hQ _ u hu (by simp)
    | ok pending =>
      refine casOrRetry_alone hu (by rw [hstore, hversion]) (.inr ⟨by simpa using hne, rfl⟩)
        fun u hu => ?_
      exact hQ _ u hu fun n _ ha => absurd ha hne
  · have hfloor : a = g.account → c ≤ (w.store.loadNonceState ⟨a⟩).value.allocate.1 ∧
        (w.store.loadNonceState ⟨a⟩).value.allocate.2.AtLeast c := by
      rintro rfl
      exact (hv ▸ (h.floor hc).2).allocate rfl
    refine casOrRetry_alone (d := c) h hversion ?_ fun u hu => hQ _ u hu ?_
    · by_cases ha : a = g.account
      · exact .inl ⟨by rw [ha], (hfloor ha).2⟩
      · exact .inr ⟨by simpa using ha, rfl⟩
    · rintro n ⟨⟩ ha
      exact (hfloor ha).1

/-- Giving back a nonce at or above the floor. -/
theorem release_alone {Q : Except NonceManagerError Unit → World → Prop} (hm : 0 < m.attempts)
    (h : Holds g c l w) (hn : a = g.account → c ≤ n) (hQ : ∀ v, Holds g c l v → Q (.ok ()) v) :
    (m.release a n).run.wp (truthful cs) Q w := by
  obtain ⟨rounds, hrounds⟩ := attempts_succ hm
  unfold release
  rw [hrounds, releaseLoop]
  refine Prog.wp_run_bind.mpr (load_alone h fun v hv h => ?_)
  dsimp only
  cases hs : (w.store.loadNonceState ⟨a⟩).value.release n with
  | none => exact hQ v h
  | some s =>
    refine casOrRetry_alone h (by rw [hv]) ?_ hQ
    by_cases ha : a = g.account
    · subst ha
      rcases Nat.eq_zero_or_pos c with rfl | hc
      · exact .inl ⟨rfl, Nat.zero_le _, fun _ _ => Nat.zero_le _⟩
      · exact .inl ⟨rfl, (hv ▸ (h.floor hc).2).release (hn rfl) hs⟩
    · exact .inr ⟨by simpa using ha, rfl⟩

/-- A reset of the handle's account raises the floor to the count. -/
theorem reset_alone {Q : Except NonceManagerError Unit → World → Prop} (hm : 0 < m.attempts)
    (h : Holds g c l w) (hQ : ∀ v, Holds g n l v → Q (.ok ()) v) :
    (m.reset g.account n).run.wp (truthful cs) Q w := by
  obtain ⟨rounds, hrounds⟩ := attempts_succ hm
  unfold reset
  rw [hrounds, resetLoop]
  refine Prog.wp_run_bind.mpr (load_alone h fun v hv h => ?_)
  exact casOrRetry_alone h (by rw [hv]) (.inl ⟨rfl, NonceState.atLeast_reset _ _⟩) hQ

end LocalNonceManager

namespace TransactionManager

variable [Alloy] {cs : Chain → Prop} {g : TxHandle} {c l : Nat} {w : World}
  {m : TransactionManager} {a : Address} {n : Nat}

omit [Alloy] in
theorem recycle_alone (hm : 0 < m.nonceManager.attempts) (h : Holds g c l w)
    (hn : a = g.account → c ≤ n) :
    (m.recycle a n).wp (truthful cs) (fun _ => Holds g c l) w :=
  Prog.wp_bind.mpr (LocalNonceManager.release_alone hm h hn fun _ hv => hv)

omit [Alloy] in
theorem submitWal_alone (hm : 0 < m.nonceManager.attempts) (h : Holds g c l w) {wal : TxHandle}
    (hne : wal.id ≠ g.id) (hn : wal.account = g.account → c ≤ wal.nonce) (origin : Origin) :
    (m.submitWal wal origin).run.wp (truthful cs) (fun _ => Holds g c l) w := by
  have sent : ∀ v, Holds g c l v →
      (liftM (recordSent wal) : SendM TxHandle).run.wp (truthful cs) (fun _ => Holds g c l) v := by
    intro v hv
    unfold recordSent
    simp only [Prog.wp_run_lift, Prog.wp_bind, Prog.wp_pure, StateStore.wp_putHandle]
    exact asks_put_other hv hne fun _ hu => hu
  unfold submitWal
  simp only [Prog.wp_run_bind, Prog.wp_run_lift, Submission.wp_submit]
  refine asks_leaves h trivial fun r v hv => ?_
  cases r with
  | ok _ => exact sent v hv
  | error e =>
    dsimp only
    split
    · exact sent v hv
    · unfold rejectSend
      simp only [Prog.wp_run_bind, Prog.wp_run_lift, StateStore.wp_putHandle]
      refine asks_put_other hv hne fun u hu => ?_
      exact Prog.wp_mono (recycle_alone hm hu hn) fun _ _ hx => hx

/-- A send of a fresh nonce leaves a handle alone whose nonce is below the floor. -/
theorem sendWithMeta_alone (hm : 0 < m.nonceManager.attempts) (h : Holds g c l w)
    (hlt : g.nonce < c) (haccount : g.intent.account = g.account) (intent : TxIntent)
    (opts : SubmissionOpts) (context : Option MetaContext) (origin : Origin) :
    (m.sendWithMeta intent opts context origin).run.wp (truthful cs) (fun _ => Holds g c l) w := by
  unfold sendWithMeta
  split
  · exact h
  split
  · exact h
  simp only [Prog.wp_run_bind, Prog.wp_run_lift, Rpc.wp_estimateGas]
  refine asks_leaves h trivial fun r v h => ?_
  obtain ⟨message, _ | _⟩ | gas := r
  · exact h
  · exact h
  simp only [Prog.wp_run_bind, Prog.wp_run_orThrow, GasOracle.wp_estimate, PolicyEngine.wp_evaluate]
  refine asks_leaves h trivial fun r v h => ?_
  obtain e | fees := r
  · exact h
  refine asks_leaves h trivial fun r v h => ?_
  obtain e | approval | rejection := r
  · exact h
  swap
  · exact h
  simp only [Except.mapError, Prog.wp_run_bind, Prog.wp_run_orThrow]
  refine LocalNonceManager.allocate_alone hm h (by omega) fun r v h hn => ?_
  obtain e | nonce := r
  · exact h
  replace hn : intent.account = g.account → c ≤ nonce := hn nonce rfl
  dsimp only
  unfold buildSignSubmit signEncode
  simp only [Prog.wp_run_bind, Prog.wp_run_lift, Prog.wp_run_outcome, Prog.wp_run_orThrow,
    Prog.wp_run_pure, Clock.wp_nowUnix, Signer.wp_signTransaction, StateStore.wp_putHandle]
  refine asks_leaves h trivial fun now v h => ?_
  refine asks_leaves h trivial fun r v h => ?_
  obtain e | signature := r
  · exact Prog.wp_mono (recycle_alone hm h hn) fun _ _ hx => hx
  refine asks_put_new h rfl (fun hintent hnonce => ?_) fun v hne h => ?_
  · -- the same intent would be on the handle's account
    have hsame : intent = g.intent := hintent
    have hle := hn (by rw [hsame, haccount])
    have heq : nonce = g.nonce := hnonce
    omega
  · exact submitWal_alone hm h hne hn origin

end TransactionManager

end WalletKit
