import WalletKit.Nonces.Reservations
import WalletKit.Runtime.Toy

/-!
# Recycled nonces

A send that fails gives its nonce back. Calls run one at a time; signer, submission and
store may fail in any pattern, and a call may be cut off anywhere. As long as the record of
a rejected broadcast is written, no live record is left behind on a nonce that is given
back. That one write is the condition: `build_sign_submit` ignores whether it worked.
-/
namespace WalletKit

open Machine

/-- The records that somebody may still broadcast. -/
def Kind.unsettled : Kind where
  of s _ := s.isTerminal = false
  live hs _ := hs
  rejected _ _ := by simp [TxStatus.isTerminal]

section Law

variable [Alloy]

variable {W C α : Type} {cl : Client C α} {S : System ports W C α} {view : W → World}
  {p₀ p : Pool ports W C α}

/-- Calls one at a time, with the records of rejections written: every nonce that somebody may still
broadcast on is taken, and the send in progress has its nonce for itself. -/
theorem Client.Runs.unsettled_exclusive (hS : cl.Runs S view) (hseq : S.Sequential)
    (h₀ : Backed.Fresh view p₀)
    (hroles : ∀ c role, cl.Plays c role → role ≠ .relayed)
    (hwritten : ∀ {p i x o r}, S.allow p i x o r → rejectWritten ⟨o, r⟩) (h : S.Reaches p₀ p) :
    Exclusive .unsettled (view p.world) p.current := by
  refine h.sequentially (I := fun w => Exclusive .unsettled (view w)) hseq h₀.1
    (by rw [h₀.2]; exact exclusive_initial) (fun _ _ hs => hs.call)
    fun {p i th x o r k} hreach hlast hprog ha hs => ?_
  have hth : th ∈ p.threads := List.mem_of_getLast? hlast
  obtain ⟨role, hrole, howes⟩ := hS.owes h₀ hreach hth hprog
  rw [hS.next ha]
  refine hS.exclusive_move h₀ hwritten hreach hth hprog ha (fun h' site he => ?_) hs
  cases he
  refine putCase_of_owes howes ?_ ?_ fun a g hg => (hS.pending_live h₀ hreach hth hg).2
  · rintro marked rfl -
    obtain ⟨m, approval, now, signed, -, -, -, ⟨target, rfl, hlive, -⟩, -⟩ := howes
    exact hlive
  · rintro rfl
    exact absurd howes.1 (hroles _ _ hrole)

/-- The newest call is about to give this nonce back. -/
def GivesBack (p : CallPool) (scope : NonceScope) (n : Nat) : Prop :=
  ∃ version value fence, p.next? (p.threads.length - 1) =
    some (.casNonceState scope version value fence (.release n))

/-- The store has a live handle of this account on this nonce. -/
def LiveOn (s : Store) (a : Address) (n : Nat) : Prop :=
  ∃ g ∈ s.handles.rows, g.status.isTerminal = false ∧ g.account = a ∧ g.nonce = n

/-- Calls one at a time over ports that may answer anything the store can answer, but that
write the record of a rejected broadcast. -/
def rejectWrittenCalls : System ports World Call CallResult :=
  Call.client.sequential fun _ e => rejectWritten e

/-- **A recycled nonce has no live body behind it**: when a send gives a nonce back, the
store has no live handle on it; and what `recover` broadcasts is on a nonce that nobody
else can get. -/
theorem recycled_nonce_has_no_live_handle {p : CallPool}
    (h : rejectWrittenCalls.Reaches Client.start p) :
    (∀ scope n, GivesBack p scope n → ¬LiveOn p.world.store scope.account n) ∧
      ∀ rlp g, Broadcasts p rlp (.recover g) → p.world.Taken g.account g.nonce := by
  have hruns : Call.client.Runs rejectWrittenCalls id := Client.sequential_runs _ _
  have hseq : rejectWrittenCalls.Sequential := Client.sequential_sequential _ _
  have hwritten : ∀ {p i x o r}, rejectWrittenCalls.allow p i x o r → rejectWritten ⟨o, r⟩ :=
    fun ha => ha.2.2
  have hex : Exclusive .unsettled p.world p.current := hruns.unsettled_exclusive hseq
    Client.fresh_start (fun c role hr => hr ▸ c.role_ne_relayed) hwritten h
  constructor
  · rintro scope n ⟨version, value, fence, hnext⟩ ⟨g, hg, hlive, ha, hn⟩
    obtain ⟨th, hlast, ho⟩ := Option.bind_eq_some_iff.mp hnext
    obtain ⟨k, hprog⟩ := Prog.exists_call_of_next? ho
    have hth := List.mem_of_getElem? hlast
    have hcurrent : p.current = th.past := by
      rw [Pool.current, List.getLast?_eq_getElem?, hlast]
      rfl
    obtain ⟨role, -, -, hold, hrest⟩ := hruns.owes Client.fresh_start h hth hprog
    rw [hcurrent] at hex
    -- a live record on this nonce would be the send's own, still waiting for its outcome
    obtain ⟨wal, hwal, -⟩ := hex.own _ _ hold g (Table.mem_rows.mp hg) hlive ha hn
    have hresting := hrest.resting (hruns.reject_written Client.fresh_start hwritten h hth)
    cases hp : phase th.past <;> simp [hp, Phase.wal, Phase.resting] at hwal hresting
  · rintro rlp g ⟨opts, hnext⟩
    obtain ⟨th, hlast, ho⟩ := Option.bind_eq_some_iff.mp hnext
    obtain ⟨k, hprog⟩ := Prog.exists_call_of_next? ho
    obtain ⟨hstored, hlive⟩ := hruns.recover_stored hseq Client.fresh_start h
      (by rw [List.getLast?_eq_getElem?, hlast]) hprog
    exact hex.stored g hstored hlive

end Law

section Runs

attribute [local instance] Toy.alloy

instance (p : CallPool) (i : Nat) (x : rejectWrittenCalls.Choice) (o : ports.Op)
    (r : ports.Reply o) : Decidable (rejectWrittenCalls.allow p i x o r) :=
  inferInstanceAs (Decidable (_ ∧ _ ∧ _ = true))

instance (p : CallPool) (c : Call) : Decidable (rejectWrittenCalls.admits p c) :=
  inferInstanceAs (Decidable True)

instance (s : Store) (a : Address) (n : Nat) : Decidable (LiveOn s a n) :=
  inferInstanceAs (Decidable (∃ g ∈ s.handles.rows, _))

/-- The nonce the newest call is about to give back. -/
def givenBack? (p : CallPool) : Option (NonceScope × Nat) :=
  match p.next? (p.threads.length - 1) with
  | some (.casNonceState scope _ _ _ (.release n)) => some (scope, n)
  | _ => none

theorem givesBack_of_givenBack? {p : CallPool} {scope : NonceScope} {n : Nat}
    (h : givenBack? p = some (scope, n)) : GivesBack p scope n := by
  unfold givenBack? at h
  split at h
  · cases h
    exact ⟨_, _, _, ‹_›⟩
  · cases h

/-- The broadcast is rejected; the record of that is written, or the store fails there. The
release that follows is not answered. -/
def rejecting (record : Except StateStoreError Unit) (w : World) : (o : Op) → Option o.Reply
  | .submit _ _ _ => some (.error (.relayRejected "declined"))
  | .putHandle _ (.rejected _) => some record
  | .casNonceState _ _ _ _ (.release _) => none
  | o => World.serve Toy.calm w o

/-- A send whose broadcast was rejected and recorded as such. -/
def rejectedSend : CallPool :=
  System.played (S := rejectWrittenCalls) Client.start
    [.spawn (.send Toy.manager Toy.intent .default none), .moves 0 20 () (rejecting (.ok ()))]

theorem recycled_nonce_has_no_live_handle_rejected : GivesBack rejectedSend ⟨Toy.account⟩ 4 ∧
    ¬LiveOn rejectedSend.world.store Toy.account 4 := by
  have hreach : rejectWrittenCalls.Reaches Client.start rejectedSend := System.reaches_played _ _
  have hgives : GivesBack rejectedSend ⟨Toy.account⟩ 4 :=
    givesBack_of_givenBack? (by decide +kernel)
  exact ⟨hgives, (recycled_nonce_has_no_live_handle hreach).1 _ _ hgives⟩

instance (w : World) (a : Address) (n : Nat) : Decidable (w.Taken a n) :=
  inferInstanceAs (Decidable (_ ∧ _))

/-- The same send, but the store fails at the record of the rejection. -/
def lostRejection : List (System.Action crashingCalls) :=
  [.spawn (.send Toy.manager Toy.intent .default none),
    .moves 0 20 () (rejecting (.error (.backend "disk full")))]

/-- About to give the nonce back, with the write-ahead record still live. -/
def unsettledSend : CallPool := System.played Client.start lostRejection

/-- The nonce is given back, and the next tick is about to broadcast the record. -/
def staleTick : CallPool :=
  System.played Client.start (lostRejection ++ [.moves 0 20 () (World.serve Toy.calm),
    .spawn (.tick Toy.executor), .moves 1 20 () (Toy.heldAt fun _ => true)])

/-- A broadcast of `recover` on a nonce that the next send can get. -/
def isStray (w : World) : SubmitSite → Bool
  | .recover g => decide ¬w.Taken g.account g.nonce
  | _ => false

theorem isStray_iff {w : World} {site : SubmitSite} :
    isStray w site ↔ ∃ g, site = .recover g ∧ ¬w.Taken g.account g.nonce := by
  cases site <;> simp [isStray]

theorem lost_rejection_leaves_live_handle :
    (∃ p scope n, crashingCalls.Reaches Client.start p ∧ GivesBack p scope n ∧
      LiveOn p.world.store scope.account n) ∧
    ∃ p rlp g, crashingCalls.Reaches Client.start p ∧ Broadcasts p rlp (.recover g) ∧
      ¬p.world.Taken g.account g.nonce := by
  constructor
  · have hreach : crashingCalls.Reaches Client.start unsettledSend := System.reaches_played _ _
    exact ⟨unsettledSend, ⟨Toy.account⟩, 4, hreach, givesBack_of_givenBack? (by decide +kernel),
      by decide +kernel⟩
  · have hreach : crashingCalls.Reaches Client.start staleTick := System.reaches_played _ _
    have hsome : (broadcast? staleTick (isStray staleTick.world)).isSome := by decide +kernel
    obtain ⟨rlp, hrlp⟩ := Option.isSome_iff_exists.mp hsome
    obtain ⟨site, hsite, hb⟩ := broadcasts_of_broadcast? hrlp
    obtain ⟨g, rfl, hfree⟩ := isStray_iff.mp hsite
    exact ⟨staleTick, rlp, g, hreach, hb, hfree⟩

end Runs

end WalletKit
