import WalletKit.Runtime.Toy
import WalletKit.Runtime.Versions

/-!
# Two wallets over one store

Two wallets of one signer, each on a chain of its own, share a state store. Each has its process
memory; what one of them stores, the other can read. The store keys nonce states and pending
records by account alone, so the second wallet to send gets its nonce after the first one's, and
a tick of either takes up the records of both.

A wallet runs as over a store of its own as long as it finds there what it has itself left: the
nonce state that its last swap stored, or one that its reset makes the same of; no live record of
the other wallet; and no swap of the other one between its load and its own swap. The versions of
nonce states then differ from those of its own store, and nothing else does.
-/
namespace WalletKit

open Machine

/-- One store, and what each wallet has done. -/
structure SharedWorld where
  store : Store
  log : Bool → List PortEvent

namespace SharedWorld

/-- What a wallet would have with a store of its own. -/
def alone (w : SharedWorld) (side : Bool) : World := .replay (w.log side)

/-- What a wallet has: the shared store and the memory of its own process. -/
def view (w : SharedWorld) (side : Bool) : World := { w.alone side with store := w.store }

def apply (w : SharedWorld) (side : Bool) (e : PortEvent) : SharedWorld where
  store := World.storeAfter w.store e
  log := Function.update w.log side (w.log side ++ [e])

def initial : SharedWorld := ⟨.empty, fun _ => []⟩

end SharedWorld

section Calls

variable [Alloy]

/-- The calls of a wallet of this signer on this chain. -/
def Call.Of (chain : Nat) (signer : Address) : Call → Prop
  | .send m intent _ _ => m.signer = signer ∧ intent.chainId = chain
  | .cancel m _ => m.signer = signer
  | .recover e | .confirm e | .escalate e | .tick e =>
    e.account = signer ∧ e.signer = signer ∧ ∀ m ∈ e.refill, m.signer = signer

/-- A wallet with a store of its own. -/
def ownCalls (chain : Nat) (signer : Address) : System ports World Call CallResult :=
  { interleavedCalls with admits := fun _ c => c.Of chain signer }

abbrev SharedPool := Pool ports SharedWorld (Bool × Call) CallResult

/-- The wallet that call `i` belongs to. -/
def sideOf (p : SharedPool) (i : Nat) : Bool := (p.threads[i]?.map (·.call.1)).getD false

/-- Two wallets of one signer over one store, in any interleaving of their calls. -/
abbrev sharedCalls (chain : Bool → Nat) (signer : Address) :
    System ports SharedWorld (Bool × Call) CallResult where
  Choice := Bool
  body c := c.2.body
  admits _ c := c.2.Of (chain c.1) signer
  allow p i side o r := side = sideOf p i ∧ (p.world.view side).can ⟨o, r⟩
  next w side o r := w.apply side ⟨o, r⟩

def noCalls : SharedPool := ⟨.initial, []⟩

/-- The calls of one wallet. -/
def callsOf (side : Bool) (p : SharedPool) : List CallThread :=
  select (fun c => if c.1 = side then some c.2 else none) p.threads

end Calls

section Footprint

/-- The version that a swap of this scope expected and the state it stored, if it went through. -/
def swapOf (scope : NonceScope) : PortEvent → Option (Nat × NonceState)
  | ⟨.casNonceState t n s _ _, r⟩ =>
    match (r : Except StateStoreError Bool) with
    | .ok true => if t = scope then some (n, s) else none
    | _ => none
  | _ => none

/-- The swaps of a scope that went through. -/
def swapsOf (log : List PortEvent) (scope : NonceScope) : List (Nat × NonceState) :=
  log.filterMap (swapOf scope)

/-- What these swaps alone would leave: the last state, as often stored as there were swaps. -/
def ownNonce (log : List PortEvent) (scope : NonceScope) : Versioned NonceState :=
  ⟨((swapsOf log scope).getLast?.map Prod.snd).getD Versioned.absent.value,
    (swapsOf log scope).length⟩

/-- Some record was written under the id. -/
def Written (log : List PortEvent) (id : HandleId) : Prop :=
  ∃ e ∈ log, (wrote e).map TxHandle.id = some id

instance (log : List PortEvent) (id : HandleId) : Decidable (Written log id) :=
  inferInstanceAs (Decidable (∃ e ∈ log, (wrote e).map TxHandle.id = some id))

instance (v v' : Versioned NonceState) : (c : Option Nat) → Decidable (v.Agree v' c)
  | some c => inferInstanceAs (Decidable (v.value.reset c = v'.value.reset c))
  | none => inferInstanceAs (Decidable (_ ∧ (_ ↔ _)))

/-- The store shows call `i` nothing of the other wallet's doing. A loaded nonce state is the one
that the wallet has itself left, or a reset makes the same of both; a swap is refused as stale only
after a swap of the wallet itself; the records that are listed, read or written over are not the
other wallet's. -/
def undisturbed (p : SharedPool) (i : Nat) : PortEvent → Bool
  | ⟨.loadNonceState scope, r⟩ =>
    match (r : Except StateStoreError (Versioned NonceState)) with
    | .ok v => v.Agree (ownNonce (p.world.log (sideOf p i)) scope)
        (resetOf (p.nextAfter i (ev (.loadNonceState scope) (.ok v))))
    | .error _ => true
  | ⟨.casNonceState scope n _ _ _, r⟩ =>
    match (r : Except StateStoreError Bool) with
    | .ok false => ∃ s ∈ swapsOf (p.world.log (sideOf p i)) scope, n ≤ s.1
    | _ => true
  | ⟨.pendingHandles _, r⟩ =>
    match (r : Except StateStoreError (List TxHandle)) with
    | .ok hs => ∀ g ∈ hs, ¬Written (p.world.log !sideOf p i) g.id
    | .error _ => true
  | ⟨.handle id, _⟩ => ¬Written (p.world.log !sideOf p i) id
  | ⟨.putHandle h _, _⟩ => ¬Written (p.world.log !sideOf p i) h.id
  | _ => true

end Footprint

section Nonces

variable {w : World} {e : PortEvent} {scope : NonceScope} {s : Store}

/-- A swap reads and writes only its scope. -/
theorem Store.casNonceState_congr {s s' : Store} (h : s.nonces scope = s'.nonces scope) (n : Nat)
    (v : NonceState) (f : FenceToken) :
    (s.casNonceState scope n v f).1 = (s'.casNonceState scope n v f).1 ∧
      (s.casNonceState scope n v f).2.nonces scope =
        (s'.casNonceState scope n v f).2.nonces scope := by
  unfold Store.casNonceState
  rw [h]
  dsimp only
  split
  · exact ⟨rfl, h⟩
  split
  · exact ⟨rfl, h⟩
  · simp

theorem nonces_storeAfter_of_none (h : swapOf scope e = none) :
    (World.storeAfter s e).nonces scope = s.nonces scope := by
  obtain ⟨o, r⟩ := e
  cases o with
  | casNonceState t n v f note =>
    rcases r with _ | _ | _
    · rfl
    · rfl
    · have hne : scope ≠ t := by
        rintro rfl
        simp [swapOf] at h
      change (s.casNonceState t n v f).2.nonces scope = _
      unfold Store.casNonceState
      dsimp only
      split
      · rfl
      split
      · rfl
      · exact Function.update_of_ne hne _ _
  | putHandle g site => cases r <;> rfl
  | _ => rfl

theorem exists_swap {x : Nat × NonceState} (h : swapOf scope e = some x) :
    ∃ f note, e = ev (.casNonceState scope x.1 x.2 f note) (.ok true) := by
  obtain ⟨o, r⟩ := e
  cases o with
  | casNonceState t n v f note =>
    rcases r with _ | _ | _
    · cases h
    · cases h
    · by_cases ht : t = scope
      · subst ht
        simp only [swapOf, if_true, Option.some.injEq] at h
        exact ⟨f, note, by rw [← h]; rfl⟩
      · simp [swapOf, ht] at h
  | _ => cases h

theorem nonces_storeAfter_congr {s s' : Store} (h : s.nonces scope = s'.nonces scope) :
    (World.storeAfter s e).nonces scope = (World.storeAfter s' e).nonces scope := by
  cases he : swapOf scope e with
  | none => rw [nonces_storeAfter_of_none he, nonces_storeAfter_of_none he, h]
  | some x =>
    obtain ⟨f, note, rfl⟩ := exists_swap he
    exact (Store.casNonceState_congr h x.1 x.2 f).2

/-- What an event that the store allows does to the state of a scope. -/
theorem World.nonce_apply (hcan : w.can e) (scope : NonceScope) :
    (swapOf scope e = none ∧ (w.apply e).store.loadNonceState scope = w.store.loadNonceState scope ∧
      (w.apply e).store.fence scope = w.store.fence scope) ∨
    ∃ s f note, e = ev (.casNonceState scope (w.store.loadNonceState scope).version s f note)
        (.ok true) ∧ w.store.fence scope ≤ f ∧
      (w.apply e).store.loadNonceState scope = ⟨s, (w.store.loadNonceState scope).version + 1⟩ ∧
      (w.apply e).store.fence scope = f := by
  cases he : swapOf scope e with
  | none =>
    have hsame : (w.apply e).store.nonces scope = w.store.nonces scope :=
      nonces_storeAfter_of_none he
    exact .inl ⟨rfl, by rw [Store.loadNonceState, Store.loadNonceState, hsame], by
      rw [Store.fence, Store.fence, hsame]⟩
  | some x =>
    obtain ⟨f, note, rfl⟩ := exists_swap he
    obtain ⟨hn, hload⟩ := World.loadNonceState_swap hcan
    have hok := of_decide_eq_true hcan
    refine .inr ⟨x.2, f, note, by rw [hn], (Store.casNonceState_ok_iff.mp hok).1, ?_, ?_⟩
    · rw [hload, if_pos rfl, hn]
    · exact (Store.fence_casNonceState hok scope).trans (if_pos rfl)

theorem World.fence_le_apply (hcan : w.can e) (scope : NonceScope) :
    w.store.fence scope ≤ (w.apply e).store.fence scope := by
  rcases World.nonce_apply hcan scope with ⟨-, -, hfence⟩ | ⟨s, f, note, -, hle, -, hfence⟩
  · exact hfence.ge
  · exact hle.trans hfence.ge

end Nonces

section Apart

/-- The swaps of either wallet expected versions below the stored one, and what only one wallet has
written is as that wallet alone would have it. -/
structure Apart (w : SharedWorld) : Prop where
  swaps (side : Bool) (scope : NonceScope) : ∀ x ∈ swapsOf (w.log side) scope,
    x.1 < (w.store.loadNonceState scope).version
  handles (side : Bool) (id : HandleId) : ¬Written (w.log !side) id →
    w.store.handle id = (w.alone side).store.handle id
  disjoint (side : Bool) (id : HandleId) : Written (w.log side) id → ¬Written (w.log !side) id

theorem apart_initial : Apart .initial where
  swaps _ _ := by simp [SharedWorld.initial, swapsOf]
  handles _ _ _ := rfl
  disjoint _ _ h := by simp [SharedWorld.initial, Written] at h

variable {w : SharedWorld} {side : Bool} {e : PortEvent} {log : List PortEvent} {scope : NonceScope}

/-- A record that is stored was written. -/
theorem written_of_stored {id : HandleId} {g : TxHandle}
    (h : (World.replay log).store.handle id = some g) : Written log id := by
  induction log using List.reverseRecOn generalizing g with
  | nil => cases h
  | append_singleton log e ih =>
    rw [World.replay_snoc, World.handle_apply] at h
    cases hw : wrote e with
    | none =>
      rw [hw] at h
      obtain ⟨x, hx, hid⟩ := ih h
      exact ⟨x, List.mem_append_left _ hx, hid⟩
    | some g' =>
      rw [hw] at h
      dsimp only at h
      split at h
      · exact ⟨e, by simp, by simp [hw, ‹id = g'.id›]⟩
      · obtain ⟨x, hx, hid⟩ := ih h
        exact ⟨x, List.mem_append_left _ hx, hid⟩

@[simp] theorem apply_log_self : (w.apply side e).log side = w.log side ++ [e] := by
  simp [SharedWorld.apply]

@[simp] theorem apply_log_other : (w.apply side e).log (!side) = w.log !side := by
  simp [SharedWorld.apply]

theorem alone_apply_self : (w.apply side e).alone side = (w.alone side).apply e := by
  simp [SharedWorld.alone]

theorem alone_apply_other : (w.apply side e).alone (!side) = w.alone !side := by
  simp [SharedWorld.alone]

theorem written_snoc {id : HandleId} :
    Written (log ++ [e]) id ↔ Written log id ∨ ∃ g, wrote e = some g ∧ g.id = id := by
  simp [Written, or_and_right, exists_or]

theorem swapsOf_snoc_of_none (h : swapOf scope e = none) :
    swapsOf (log ++ [e]) scope = swapsOf log scope := by
  simp [swapsOf, List.filterMap_append, h]

theorem swapsOf_snoc_swap {n : Nat} {s : NonceState} {f : FenceToken} {note : CasNote} :
    swapsOf (log ++ [ev (.casNonceState scope n s f note) (.ok true)]) scope =
      swapsOf log scope ++ [(n, s)] := by
  simp [swapsOf, List.filterMap_append, ev, swapOf]

/-- The swaps of a wallet after an event of this or of the other one. -/
theorem swapsOf_apply (hcan : (w.view side).can e) (other : Bool) (scope : NonceScope) :
    (swapsOf ((w.apply side e).log other) scope = swapsOf (w.log other) scope ∧
      (w.store.loadNonceState scope).version ≤
        ((w.apply side e).store.loadNonceState scope).version) ∨
    ∃ s, swapsOf ((w.apply side e).log other) scope =
        swapsOf (w.log other) scope ++ [((w.store.loadNonceState scope).version, s)] ∧
      ((w.apply side e).store.loadNonceState scope).version =
        (w.store.loadNonceState scope).version + 1 := by
  rcases World.nonce_apply hcan scope with ⟨hnone, hload, -⟩ | ⟨s, f, note, he, -, hload, -⟩
  · refine .inl ⟨?_, le_of_eq (congrArg Versioned.version hload.symm)⟩
    obtain rfl | rfl := Bool.eq_or_eq_not other side
    · rw [apply_log_self, swapsOf_snoc_of_none hnone]
    · rw [apply_log_other]
  · have hversion : ((w.apply side e).store.loadNonceState scope).version =
        (w.store.loadNonceState scope).version + 1 := congrArg Versioned.version hload
    obtain rfl | rfl := Bool.eq_or_eq_not other side
    · refine .inr ⟨s, ?_, hversion⟩
      rw [apply_log_self, he]
      exact swapsOf_snoc_swap
    · exact .inl ⟨by rw [apply_log_other], by omega⟩

/-- A step of a wallet that writes over no record of the other's keeps the two apart. -/
theorem Apart.apply (h : Apart w) (hcan : (w.view side).can e)
    (hput : ∀ g, wrote e = some g → ¬Written (w.log !side) g.id) : Apart (w.apply side e) := by
  have hstore : (w.apply side e).store = ((w.view side).apply e).store := rfl
  refine ⟨fun s scope x hx => ?_, fun s id hs => ?_, fun s id hs => ?_⟩
  · rcases swapsOf_apply hcan s scope with ⟨hsame, hversion⟩ | ⟨new, hsnoc, hversion⟩
    · rw [hsame] at hx
      exact (h.swaps s scope x hx).trans_le hversion
    · rw [hsnoc] at hx
      rw [hversion]
      rcases List.mem_append.mp hx with hx | hx
      · exact (h.swaps s scope x hx).trans (Nat.lt_succ_self _)
      · rw [List.mem_singleton.mp hx]
        exact Nat.lt_succ_self _
  · obtain rfl | rfl := Bool.eq_or_eq_not s side
    · rw [apply_log_other] at hs
      rw [alone_apply_self, hstore, World.handle_apply, World.handle_apply]
      cases wrote e with
      | none => exact h.handles s id hs
      | some g =>
        exact congrArg (fun found => if id = g.id then some g else found) (h.handles s id hs)
    · rw [Bool.not_not, apply_log_self, written_snoc, not_or] at hs
      rw [alone_apply_other, hstore, World.handle_apply, ← h.handles _ id (by simpa using hs.1)]
      cases hw : wrote e with
      | none => rfl
      | some g => exact if_neg fun he => hs.2 ⟨g, hw, he.symm⟩
  · obtain rfl | rfl := Bool.eq_or_eq_not s side
    · rw [apply_log_self, written_snoc] at hs
      rw [apply_log_other]
      rcases hs with hs | ⟨g, hg, rfl⟩
      · exact h.disjoint s id hs
      · exact hput g hg
    · rw [apply_log_other] at hs
      rw [Bool.not_not, apply_log_self, written_snoc]
      rintro (hold | ⟨g, hg, rfl⟩)
      · exact h.disjoint side id hold hs
      · exact hput g hg hs

/-- Versions of the shared store and of a wallet's own that go together: the wallet's own counts the
swaps it had made when the other was stored. -/
def pairedVersions (w : SharedWorld) (side : Bool) : Set (NonceScope × Nat × Nat) :=
  { x | x.2.1 ≤ (w.store.loadNonceState x.1).version ∧
    x.2.2 = (swapsOf (w.log side) x.1).countP fun y => decide (y.1 < x.2.1) }

theorem pairedVersions_apply (hcan : (w.view side).can e) (other : Bool) :
    pairedVersions w other ⊆ pairedVersions (w.apply side e) other := by
  rintro ⟨scope, n, n'⟩ ⟨hle, hcount⟩
  dsimp only at hle hcount
  rcases swapsOf_apply hcan other scope with ⟨hsame, hversion⟩ | ⟨new, hsnoc, hversion⟩
  · refine ⟨hle.trans hversion, ?_⟩
    dsimp only
    rw [hsame, hcount]
  · refine ⟨by dsimp only; omega, ?_⟩
    dsimp only
    rw [hsnoc, List.countP_append, hcount]
    simp [Nat.not_lt.mpr hle]

end Apart

section Beside

/-- An event without the versions of nonce states, and without a state that was loaded. -/
def observed : PortEvent → PortEvent
  | ⟨.loadNonceState scope, r⟩ =>
    match (r : Except StateStoreError (Versioned NonceState)) with
    | .ok _ => ev (.loadNonceState scope) (.ok .absent)
    | .error e => ev (.loadNonceState scope) (.error e)
  | ⟨.casNonceState scope _ s f note, r⟩ => ev (.casNonceState scope 0 s f note) r
  | e => e

/-- A wallet over the shared store, and the same wallet over a store of its own. -/
structure Beside (side : Bool) (w : SharedWorld) (w' : World) : Prop where
  apart : Apart w
  log : (w.log side).map observed = w'.log.map observed
  lastLatest : w'.lastLatest = (w.alone side).lastLatest
  approvals : w'.approvals = (w.alone side).approvals
  handles (id : HandleId) : w'.store.handle id = (w.alone side).store.handle id
  nonce (scope : NonceScope) : w'.store.loadNonceState scope = ownNonce (w.log side) scope
  fence (scope : NonceScope) : w'.store.fence scope ≤ w.store.fence scope

variable {o o' : Op} {r : o.Reply} {r' : o'.Reply} {next : Option Op}
  {learnt : Set (NonceScope × Nat × Nat)} {w : SharedWorld} {w' : World} {side : Bool}

theorem GoesWith.observed (h : GoesWith o o' r r' next learnt) :
    observed ⟨o, r⟩ = observed ⟨o', r'⟩ := by
  cases h <;> rfl

theorem GoesWith.wrote (h : GoesWith o o' r r' next learnt) : wrote ⟨o, r⟩ = wrote ⟨o', r'⟩ := by
  cases h <;> rfl

theorem GoesWith.swapOf_none (h : GoesWith o o' r r' next learnt) {scope : NonceScope}
    (hnone : swapOf scope ⟨o', r'⟩ = none) : swapOf scope ⟨o, r⟩ = none := by
  cases h with
  | same | failed => exact hnone
  | loaded => rfl
  | swap t n n' s f note r =>
    rcases r with _ | _ | _
    · rfl
    · rfl
    · by_cases ht : t = scope <;> simp_all [swapOf]

theorem GoesWith.swap_of (h : GoesWith o o' r r' next learnt) {scope : NonceScope} {n' : Nat}
    {s : NonceState} {f : FenceToken} {note : CasNote}
    (he : (⟨o', r'⟩ : PortEvent) = ev (.casNonceState scope n' s f note) (.ok true)) :
    ∃ n, (⟨o, r⟩ : PortEvent) = ev (.casNonceState scope n s f note) (.ok true) := by
  cases h with
  | same | failed => exact ⟨n', he⟩
  | loaded => cases he
  | swap =>
    cases he
    exact ⟨_, rfl⟩

theorem ownNonce_snoc_swap {log : List PortEvent} {scope : NonceScope} {n : Nat} {s : NonceState}
    {f : FenceToken} {note : CasNote} :
    ownNonce (log ++ [ev (.casNonceState scope n s f note) (.ok true)]) scope =
      ⟨s, (ownNonce log scope).version + 1⟩ := by
  simp [ownNonce, swapsOf_snoc_swap]

/-- What a wallet does over the shared store and what goes with it over its own. -/
theorem Beside.apply (h : Beside side w w') (ha : GoesWith o o' r r' next learnt)
    (hcan : (w.view side).can ⟨o, r⟩) (hcan' : w'.can ⟨o', r'⟩)
    (hput : ∀ g, wrote ⟨o, r⟩ = some g → ¬Written (w.log !side) g.id) :
    Beside side (w.apply side ⟨o, r⟩) (w'.apply ⟨o', r'⟩) where
  apart := h.apart.apply hcan hput
  log := by simp [h.log, ha.observed]
  lastLatest := by
    rw [alone_apply_self]
    change World.lastLatestAfter w'.lastLatest _ = World.lastLatestAfter _ _
    rw [h.lastLatest]
    cases ha <;> rfl
  approvals := by
    rw [alone_apply_self]
    change World.approvalsAfter w'.approvals _ = World.approvalsAfter _ _
    rw [h.approvals]
    cases ha <;> rfl
  handles id := by
    rw [alone_apply_self, World.handle_apply, World.handle_apply, ← ha.wrote, h.handles]
  nonce scope := by
    rw [apply_log_self]
    rcases World.nonce_apply hcan' scope with ⟨hnone, hload, -⟩ | ⟨s, f, note, he, -, hload, -⟩
    · rw [hload, h.nonce, ownNonce, ownNonce, swapsOf_snoc_of_none (ha.swapOf_none hnone)]
    · obtain ⟨n, hswap⟩ := ha.swap_of he
      rw [hload, h.nonce, hswap, ownNonce_snoc_swap]
  fence scope := by
    rcases World.nonce_apply hcan' scope with ⟨-, -, hfence⟩ | ⟨s, f, note, he, -, -, hfence⟩
    · exact hfence.le.trans ((h.fence scope).trans (World.fence_le_apply hcan scope))
    · obtain ⟨n, hswap⟩ := ha.swap_of he
      rw [hfence, hswap]
      rw [hswap] at hcan
      exact ((Store.fence_casNonceState (of_decide_eq_true hcan) scope).trans (if_pos rfl)).ge

/-- What the other wallet does leaves the wallet's own store alone. -/
theorem Beside.other (h : Beside side w w') {e : PortEvent} (hcan : (w.view !side).can e)
    (hput : ∀ g, wrote e = some g → ¬Written (w.log side) g.id) :
    Beside side (w.apply (!side) e) w' where
  apart := h.apart.apply hcan (by simpa using hput)
  log := by simpa [SharedWorld.apply] using h.log
  lastLatest := by simpa [SharedWorld.alone, SharedWorld.apply] using h.lastLatest
  approvals := by simpa [SharedWorld.alone, SharedWorld.apply] using h.approvals
  handles id := by simpa [SharedWorld.alone, SharedWorld.apply] using h.handles id
  nonce scope := by simpa [SharedWorld.apply] using h.nonce scope
  fence scope := (h.fence scope).trans (World.fence_le_apply hcan scope)

/-- A listing without the other wallet's records is one's own. -/
theorem Beside.pending (h : Beside side w w') {account : Address}
    (hclear : ∀ g ∈ w.store.pendingHandles account, ¬Written (w.log !side) g.id) :
    (w.store.pendingHandles account).Perm (w'.store.pendingHandles account) := by
  refine (List.perm_ext_iff_of_nodup (w.store.handles.rows_nodup.filter _)
    (w'.store.handles.rows_nodup.filter _)).mpr fun g => ?_
  change g ∈ w.store.pendingHandles account ↔ g ∈ w'.store.pendingHandles account
  constructor
  · intro hg
    have hsame := h.apart.handles side g.id (hclear g hg)
    rw [Store.mem_pendingHandles] at hg ⊢
    rwa [h.handles, ← hsame]
  · intro hg
    rw [Store.mem_pendingHandles, h.handles] at hg
    rw [Store.mem_pendingHandles]
    rwa [h.apart.handles side g.id (h.apart.disjoint side g.id (written_of_stored hg.1))]

variable {p : SharedPool} {i : Nat}

/-- What an undisturbed call is told of records and of its process it is told over its own store. -/
theorem Beside.can_versionless (h : Beside (sideOf p i) p.world w') (hless : Versionless o)
    (hcan : (p.world.view (sideOf p i)).can ⟨o, r⟩) (hclear : undisturbed p i ⟨o, r⟩) :
    w'.can ⟨o, r⟩ := by
  cases o with
  | loadNonceState | casNonceState => cases hless
  | pendingHandles account =>
    cases r with
    | error => rfl
    | ok hs =>
      have hperm : hs.Perm (p.world.store.pendingHandles account) := of_decide_eq_true hcan
      have hothers : ∀ g ∈ hs, ¬Written (p.world.log !sideOf p i) g.id := of_decide_eq_true hclear
      exact decide_eq_true (hperm.trans (h.pending fun g hg => hothers g (hperm.mem_iff.mpr hg)))
  | handle id =>
    cases r with
    | error => rfl
    | ok found =>
      have hfound : found = p.world.store.handle id := of_decide_eq_true hcan
      refine decide_eq_true (hfound.trans ?_)
      rw [h.handles]
      exact h.apart.handles _ id (of_decide_eq_true hclear)
  | lastLatestLoad x =>
    have hlast : (r : Nat) = (p.world.alone (sideOf p i)).lastLatest x := of_decide_eq_true hcan
    exact decide_eq_true (hlast.trans (by rw [h.lastLatest]))
  | approvalsGet x id =>
    have happroval : (r : Option PolicyApproval) =
      (p.world.alone (sideOf p i)).approvals x id := of_decide_eq_true hcan
    exact decide_eq_true (happroval.trans (by rw [h.approvals]))
  | _ => rfl

/-- The version that a wallet loads goes with the number of its own swaps. -/
theorem Beside.load_paired (h : Beside side w w') (scope : NonceScope) :
    (scope, (w.store.loadNonceState scope).version, (w'.store.loadNonceState scope).version) ∈
      pairedVersions w side := by
  refine ⟨le_rfl, ?_⟩
  dsimp only
  rw [h.nonce]
  -- all that this wallet has swapped so far is older than what it loads
  refine (List.countP_eq_length.mpr fun x hx => ?_).symm
  exact decide_eq_true (h.apart.swaps side scope x hx)

/-- An undisturbed swap ends over the wallet's own store as it does over the shared one. -/
theorem Beside.can_swap (h : Beside (sideOf p i) p.world w') {scope : NonceScope} {n n' : Nat}
    {s : NonceState} {f : FenceToken} {note : CasNote} {r : Except StateStoreError Bool}
    (hpair : (scope, n, n') ∈ pairedVersions p.world (sideOf p i))
    (hcan : (p.world.view (sideOf p i)).can (ev (.casNonceState scope n s f note) r))
    (hclear : undisturbed p i (ev (.casNonceState scope n s f note) r)) :
    w'.can (ev (.casNonceState scope n' s f note) r) := by
  cases r with
  | error => rfl
  | ok b =>
    obtain ⟨hfence, hb⟩ := Store.casNonceState_ok_iff.mp (of_decide_eq_true hcan)
    refine decide_eq_true (Store.casNonceState_ok_iff.mpr ⟨(h.fence scope).trans hfence, ?_⟩)
    obtain ⟨hle, hcount⟩ := hpair
    dsimp only at hle hcount
    rw [h.nonce, hcount, hb]
    change decide _ = decide ((swapsOf _ scope).length = _)
    rw [decide_eq_decide, eq_comm (a := List.length _), List.countP_eq_length]
    constructor
    · rintro rfl x hx
      exact decide_eq_true (h.apart.swaps _ scope x hx)
    · intro hall
      by_contra hstale
      -- the swap was refused as stale, so the wallet itself has swapped in between
      rw [decide_eq_false hstale] at hb
      subst hb
      obtain ⟨x, hx, hn⟩ := of_decide_eq_true hclear
      exact absurd (of_decide_eq_true (hall x hx)) (Nat.not_lt.mpr hn)

/-- An undisturbed call is answered over its own store by what goes with its answer. -/
theorem Beside.answer (h : Beside side p.world w') (hside : sideOf p i = side)
    (hops : Stands (pairedVersions p.world side) o o') (hcan : (p.world.view side).can ⟨o, r⟩)
    (hclear : undisturbed p i ⟨o, r⟩) :
    ∃ r' learnt, w'.can ⟨o', r'⟩ ∧ GoesWith o o' r r' (p.nextAfter i ⟨o, r⟩) learnt ∧
      learnt ⊆ pairedVersions p.world side := by
  subst hside
  cases hops with
  | same hless =>
    exact ⟨r, ∅, h.can_versionless hless hcan hclear, .same r _ hless, Set.empty_subset _⟩
  | load scope =>
    cases r with
    | error e => exact ⟨.error e, ∅, rfl, .failed scope e _, Set.empty_subset _⟩
    | ok v =>
      obtain rfl : v = p.world.store.loadNonceState scope := of_decide_eq_true hcan
      refine ⟨.ok (w'.store.loadNonceState scope), _, decide_eq_true rfl, .loaded ?_, ?_⟩
      · rw [h.nonce]
        exact of_decide_eq_true hclear
      · exact Set.singleton_subset_iff.mpr (h.load_paired scope)
  | swap s f note hpair =>
    exact ⟨r, ∅, h.can_swap hpair hcan hclear, .swap .., Set.empty_subset _⟩

end Beside

section Law

variable [Alloy] {chain : Bool → Nat} {signer : Address}

/-- Two wallets that do not disturb each other. -/
abbrev apartCalls (chain : Bool → Nat) (signer : Address) :
    System ports SharedWorld (Bool × Call) CallResult :=
  (sharedCalls chain signer).given fun p i e => undisturbed p i e

omit [Alloy] in
theorem sideOf_eq {p : SharedPool} {i : Nat} {th : Thread ports (Bool × Call) CallResult}
    (hi : p.threads[i]? = some th) : sideOf p i = th.call.1 := by simp [sideOf, hi]

omit [Alloy] in
theorem not_written_of_undisturbed {p : SharedPool} {i : Nat} {e : PortEvent}
    (h : undisturbed p i e) : ∀ g, wrote e = some g → ¬Written (p.world.log !sideOf p i) g.id := by
  intro g hg
  obtain ⟨site, rfl⟩ := wrote_eq_some hg
  exact of_decide_eq_true h

theorem apart_coupling (side : Bool) :
    System.Coupling (apartCalls chain signer) (ownCalls (chain side) signer)
      (fun c => if c.1 = side then some c.2 else none) versions observed (Beside side)
      fun w _ => pairedVersions w side where
  body := by
    rintro ⟨s, c⟩ c' h
    split at h
    · cases h
      exact c.body_alike
    · cases h
  spawn := by
    rintro p p' ⟨s, c⟩ c' hc h
    split at h
    · rename_i hs
      cases h
      exact (show s = side from hs) ▸ hc
    · cases h
  own := by
    rintro p p' i th c' o o' k x r hi hpart hprog ⟨⟨hx, hcan⟩, hclear⟩ hbeside hops
    split at hpart
    · rename_i hs
      have hside : sideOf p i = side := (sideOf_eq hi).trans hs
      obtain rfl : x = side := hx.trans hside
      obtain ⟨r', learnt, hcan', hgoes, hlearnt⟩ := hbeside.answer hside hops hcan hclear
      have hput := not_written_of_undisturbed hclear
      rw [hside] at hput
      have hkept : pairedVersions p.world x ⊆ pairedVersions (p.world.apply x ⟨o, r⟩) x :=
        pairedVersions_apply hcan x
      refine ⟨(), r', learnt, fun _ => ⟨hcan', trivial⟩, ?_, hgoes.observed,
        hbeside.apply hgoes hcan hcan' hput, Set.union_subset hkept (hlearnt.trans hkept)⟩
      rw [← Pool.nextAfter_eq hi hprog]
      exact hgoes
    · cases hpart
  other := by
    rintro p w' i th x o r hi hpart ⟨⟨hx, hcan⟩, hclear⟩ hbeside
    split at hpart
    · cases hpart
    · rename_i hs
      have hside : sideOf p i = !side := (sideOf_eq hi).trans (Bool.eq_not_of_ne hs)
      obtain rfl : x = !side := hx.trans hside
      have hput := not_written_of_undisturbed hclear
      rw [hside, Bool.not_not] at hput
      exact ⟨hbeside.other hcan hput, pairedVersions_apply hcan side⟩

/-- An operation without the version it expects. -/
def unversioned : Op → Op
  | .casNonceState scope _ s f note => .casNonceState scope 0 s f note
  | o => o

/-- Two calls that have taken the same course: but for the versions of nonce states they have done
and been answered the same, do the same next and return the same. -/
structure SameCourse (th th' : CallThread) : Prop where
  call : th.call = th'.call
  past : th.past.map observed = th'.past.map observed
  next : th.prog.next?.map unversioned = th'.prog.next?.map unversioned
  result (a : CallResult) : th.prog = .ret a ↔ th'.prog = .ret a

omit [Alloy] in
theorem SameCourse.of_follows {known : Set (NonceScope × Nat × Nat)} {th th' : CallThread}
    (h : th.Follows versions observed known th') : SameCourse th th' := by
  refine ⟨h.call, h.past, ?_, h.prog.ret_iff⟩
  have hnext := h.prog.next
  generalize th.prog.next? = next, th'.prog.next? = next' at hnext
  cases hnext with
  | none => rfl
  | some hops => cases hops <;> rfl

/-- **Wallets that do not disturb each other run apart**: each runs as over a store of its own.
Its calls take the course of such a run, with all they do and are answered but for the versions of
nonce states, and the records it has written are stored as they would be there. -/
theorem wallets_run_apart {p : SharedPool} (h : (apartCalls chain signer).Reaches noCalls p)
    (side : Bool) :
    ∃ q : CallPool, (ownCalls (chain side) signer).Reaches Client.start q ∧
      List.Forall₂ SameCourse (callsOf side p) q.threads ∧
      (p.world.log side).map observed = q.world.log.map observed ∧
      ∀ id, Written (p.world.log side) id → p.world.store.handle id = q.world.store.handle id := by
  have hstart : Beside side noCalls.world (Client.start : CallPool).world :=
    ⟨apart_initial, rfl, rfl, rfl, fun _ => rfl, fun _ => rfl, fun _ => le_rfl⟩
  obtain ⟨q, hreach, hbeside, hthreads⟩ :=
    (apart_coupling side).lockstep.reaches h hstart .nil
  refine ⟨q, hreach, hthreads.imp fun _ _ => .of_follows, hbeside.log, fun id hid => ?_⟩
  rw [hbeside.handles]
  exact hbeside.apart.handles side id (hbeside.apart.disjoint side id hid)

theorem ownCalls_runs (chain : Nat) (signer : Address) :
    Call.client.Runs (ownCalls chain signer) id where
  can ha := ha.1
  next _ := rfl
  body := rfl

/-- A wallet that has swapped nothing and has the store to itself finds nothing in it. -/
theorem loaded_absent {c : Nat} {q : CallPool} (h : (ownCalls c signer).Reaches Client.start q)
    (hquiet : ∀ th ∈ q.threads, ∀ e ∈ th.past, swapped e = none) {th : CallThread}
    (hth : th ∈ q.threads) {scope : NonceScope} {v : Versioned NonceState}
    (hload : ev (.loadNonceState scope) (.ok v) ∈ th.past) : v = .absent := by
  have hbacked := (ownCalls_runs c signer).toBacked
  have hempty : ∀ log : List PortEvent, (∀ e ∈ log, swapped e = none) →
      (World.replay log).store.loadNonceState scope = .absent := by
    intro log
    induction log using List.reverseRecOn with
    | nil => exact fun _ => rfl
    | append_singleton log e ih =>
      intro hlog
      rw [World.replay_snoc]
      refine (loadNonceState_quiet (hlog e (by simp)) scope).trans (ih fun x hx => hlog x ?_)
      exact List.mem_append_left _ hx
  have hcurrent : q.world.store.loadNonceState scope = .absent := by
    have hreplay : q.world = .replay q.world.log := hbacked.replay Client.fresh_start h
    rw [hreplay]
    refine hempty _ fun e he => ?_
    obtain ⟨th', hth', he'⟩ := hbacked.exists_thread_of_mem_log Client.fresh_start h he
    exact hquiet th' hth' e he'
  rcases hbacked.loaded Client.fresh_start h th hth scope v hload with hlt | he
  · change v.version < (q.world.store.loadNonceState scope).version at hlt
    rw [hcurrent] at hlt
    exact absurd hlt (Nat.not_lt_zero _)
  · exact he.trans hcurrent

/-- The nonce that a call is about to take without having asked the chain for it. -/
def takingUnread : Option Op → Option Nat
  | some (.casNonceState _ _ _ _ (.allocate n none)) => some n
  | _ => none

omit [Alloy] in
theorem takingUnread_unversioned (next : Option Op) :
    takingUnread (next.map unversioned) = takingUnread next := by
  rcases next with _ | o
  · rfl
  cases o with
  | casNonceState scope v s f note =>
    cases note with
    | allocate n first => cases first <;> rfl
    | _ => rfl
  | _ => rfl

omit [Alloy] in
theorem takingUnread_eq_some {next : Option Op} {n : Nat} (h : takingUnread next = some n) :
    ∃ scope v s f, next = some (.casNonceState scope v s f (.allocate n none)) := by
  unfold takingUnread at h
  split at h
  · cases h
    exact ⟨_, _, _, _, rfl⟩
  · cases h

omit [Alloy] in
theorem swapped_observed (e : PortEvent) : swapped (observed e) = swapped e := by
  obtain ⟨o, r⟩ := e
  cases o with
  | loadNonceState => cases r <;> rfl
  | casNonceState => rcases r with _ | _ | _ <;> rfl
  | _ => rfl

/-- With a store of its own, a wallet that has swapped nothing asks its chain for its first
nonce. -/
theorem not_sameCourse_of_unread {c n : Nat} {th : CallThread} {q : CallPool}
    (hq : (ownCalls c signer).Reaches Client.start q)
    (hquiet : ∀ e ∈ th.past, swapped e = none) (hnext : takingUnread th.prog.next? = some n) :
    ¬List.Forall₂ SameCourse [th] q.threads := by
  intro hsame
  generalize hthreads : q.threads = threads at hsame
  cases hsame with
  | @cons _ th' _ _ hcourse hnil =>
    cases hnil
    have hth' : th' ∈ q.threads := by simp [hthreads]
    have hquiet' : ∀ t ∈ q.threads, ∀ e ∈ t.past, swapped e = none := by
      intro t ht e he
      obtain rfl : t = th' := by simpa [hthreads] using ht
      have hobserved : observed e ∈ th.past.map observed :=
        hcourse.past ▸ List.mem_map_of_mem he
      obtain ⟨x, hx, hxe⟩ := List.mem_map.mp hobserved
      rw [← swapped_observed, ← hxe, swapped_observed]
      exact hquiet x hx
    have hnext' : takingUnread th'.prog.next? = some n := by
      rw [← takingUnread_unversioned, ← hcourse.next, takingUnread_unversioned]
      exact hnext
    obtain ⟨scope, v, s, f, hswap⟩ := takingUnread_eq_some hnext'
    obtain ⟨k, hprog⟩ := Prog.exists_call_of_next? hswap
    obtain ⟨role, -, ⟨old, hload, hfirst, -⟩, -⟩ :=
      (ownCalls_runs c signer).owes Client.fresh_start hq hth' hprog
    have habsent := loaded_absent hq hquiet' hth' hload
    exact absurd (hfirst.mpr (congrArg Versioned.version habsent)) (by simp)

end Law

section Runs

attribute [local instance] Toy.alloy

def chains (side : Bool) : Nat := if side then 1 else 2

instance (chain : Nat) (signer : Address) : (c : Call) → Decidable (c.Of chain signer)
  | .send _ _ _ _ => inferInstanceAs (Decidable (_ ∧ _))
  | .cancel m _ => inferInstanceAs (Decidable (m.signer = signer))
  | .recover e | .confirm e | .escalate e | .tick e =>
    inferInstanceAs (Decidable (e.account = signer ∧ e.signer = signer ∧ ∀ m ∈ e.refill, _))

instance (chain : Bool → Nat) (signer : Address) (p : SharedPool) (c : Bool × Call) :
    Decidable ((sharedCalls chain signer).admits p c) :=
  inferInstanceAs (Decidable (c.2.Of (chain c.1) signer))

instance (chain : Bool → Nat) (signer : Address) (p : SharedPool) (i : Nat)
    (x : (sharedCalls chain signer).Choice) (o : ports.Op) (r : ports.Reply o) :
    Decidable ((sharedCalls chain signer).allow p i x o r) :=
  inferInstanceAs (Decidable (_ ∧ _))

/-- The answers a wallet gets, except to calls of this kind. -/
def servedBut (side : Bool) (held : Op → Bool) (others : (o : Op) → Option o.Reply)
    (w : SharedWorld) (o : Op) : Option o.Reply :=
  if held o then none else World.serve others (w.view side) o

/-- The first wallet sends and its transaction is confirmed. The second one, whose chain has ten
transactions of the account, ticks and sends. -/
def bothSend : SharedPool :=
  System.played (S := apartCalls chains Toy.account) noCalls
    [.spawn (true, .send Toy.manager Toy.intent .default none),
      .moves 0 20 true (servedBut true (fun _ => false) Toy.calm),
      .spawn (true, .tick Toy.executor),
      .moves 1 40 true (servedBut true (fun _ => false) (Toy.chain 10 5 (some Toy.receipt))),
      .spawn (true, .tick Toy.executor),
      .moves 2 40 true (servedBut true (fun _ => false) (Toy.chain 20 5 (some Toy.receipt))),
      .spawn (false, .tick Toy.executor),
      .moves 3 40 false (servedBut false (fun _ => false) (Toy.chain 10 10 none)),
      .spawn (false, .send Toy.manager { Toy.intent with chainId := 2 } .default none),
      .moves 4 20 false (servedBut false (fun _ => false) Toy.calm)]

/-- The nonces that were taken. -/
def allocated (log : List PortEvent) : List Nat :=
  log.filterMap fun e =>
    match swapped e with
    | some (.allocate n _) => some n
    | _ => none

theorem wallets_run_apart_both :
    (bothSend.threads.all (·.prog.next?.isNone) ∧ allocated (bothSend.world.log true) = [4] ∧
      allocated (bothSend.world.log false) = [10]) ∧
    ∀ side, ∃ q : CallPool, (ownCalls (chains side) Toy.account).Reaches Client.start q ∧
      List.Forall₂ SameCourse (callsOf side bothSend) q.threads ∧
      (bothSend.world.log side).map observed = q.world.log.map observed ∧
      ∀ id, Written (bothSend.world.log side) id →
        bothSend.world.store.handle id = q.world.store.handle id := by
  have hreach : (apartCalls chains Toy.account).Reaches noCalls bothSend :=
    System.reaches_played _ _
  exact ⟨by decide +kernel, fun side => wallets_run_apart hreach side⟩

def isSwap : Op → Bool
  | .casNonceState _ _ _ _ _ => true
  | _ => false

/-- The first wallet has sent; the second one is about to take its nonce. -/
def secondSend : SharedPool :=
  System.played (S := sharedCalls chains Toy.account) noCalls
    [.spawn (true, .send Toy.manager Toy.intent .default none),
      .moves 0 20 true (servedBut true (fun _ => false) Toy.calm),
      .spawn (false, .send Toy.manager { Toy.intent with chainId := 2 } .default none),
      .moves 1 20 false (servedBut false isSwap Toy.calm)]

/-- The second wallet is about to take nonce 5 without asking its chain, where no transaction of its
account has been sent after nonce 3; with a store of its own no run of it takes that course. -/
theorem second_wallet_skips_nonce :
    (sharedCalls chains Toy.account).Reaches noCalls secondSend ∧
      takingUnread (secondSend.next? 1) = some 5 ∧
      ∀ q, (ownCalls (chains false) Toy.account).Reaches Client.start q →
        ¬List.Forall₂ SameCourse (callsOf false secondSend) q.threads := by
  refine ⟨System.reaches_played _ _, by decide +kernel, fun q hq => ?_⟩
  have hrun : (callsOf false secondSend).length = 1 ∧ (callsOf false secondSend).all fun th =>
      th.past.all (fun e => (swapped e).isNone) && takingUnread th.prog.next? = some 5 := by
    decide +kernel
  obtain ⟨hone, hall⟩ := hrun
  obtain ⟨th, hth⟩ := List.length_eq_one_iff.mp hone
  rw [hth] at hall ⊢
  simp only [List.all_cons, List.all_nil, Bool.and_true, Bool.and_eq_true, List.all_eq_true,
    Option.isNone_iff_eq_none, decide_eq_true_eq] at hall
  exact not_sameCourse_of_unread hq hall.1 hall.2

end Runs

end WalletKit
