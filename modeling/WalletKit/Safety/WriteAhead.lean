import WalletKit.Runtime.Registry
import WalletKit.Runtime.Toy

/-!
# Write-ahead of broadcasts

Calls run one at a time, the store may fail at any call, and the process may crash between
any two calls of a port. A send logs its bytes before it broadcasts them and `recover`
broadcasts only what is logged. A bump and a cancel broadcast first and record afterwards,
so there the law fails.
-/
namespace WalletKit

open Machine

section Law

variable [Alloy]

/-- The store has a live handle with these bytes, and their hash is among its broadcasts. -/
def Persisted (s : Store) (rlp : Bytes) : Prop :=
  ∃ g ∈ s.handles.rows, g.status.isTerminal = false ∧ g.signed = rlp ∧
    keccak256 rlp ∈ g.broadcasts

/-- The broadcasts that are logged first: those of a send and those of `recover`. -/
def SubmitSite.isLogged : SubmitSite → Bool
  | .send _ _ | .recover _ => true
  | .cancel _ | .bump _ => false

variable {p : CallPool}

/-- **Persist before broadcast**, for sends and `recover`: whatever they broadcast is
already stored, in every run with any failures of the store and any crashes. -/
theorem persisted_before_broadcast (h : crashingCalls.Reaches Client.start p) {rlp : Bytes}
    {site : SubmitSite} (hsubmit : Broadcasts p rlp site) (hsite : site.isLogged) :
    Persisted p.world.store rlp := by
  have hruns : Call.client.Runs crashingCalls id := Client.sequential_runs _ _
  have hseq : crashingCalls.Sequential := Client.sequential_sequential _ _
  obtain ⟨opts, hnext⟩ := hsubmit
  obtain ⟨th, hlast, ho⟩ := Option.bind_eq_some_iff.mp hnext
  have hth := List.mem_of_getElem? hlast
  obtain ⟨k, hprog⟩ := Prog.exists_call_of_next? ho
  obtain ⟨role, -, howes⟩ := hruns.owes Client.fresh_start h hth hprog
  cases site with
  | cancel | bump => cases hsite
  | send origin wal =>
    obtain ⟨m, -, ⟨_, _, _, _, _, _, signed, _, _, -, -, -, hhash, hwal⟩, rfl, -, hput⟩ := howes
    -- the last call of all was the write of the record
    obtain ⟨before, hbefore⟩ := List.getLast?_eq_some_iff.mp hput
    obtain ⟨pre, hpre⟩ := hruns.past_suffix hseq Client.fresh_start h
      (by rw [List.getLast?_eq_getElem?, hlast])
    have hworld : p.world = .replay p.world.log := hruns.replay Client.fresh_start h
    have hstored : p.world.store.handle wal.id = some wal := by
      rw [hworld, show p.world.log = _ from hpre.symm, hbefore, ← List.append_assoc,
        World.replay_snoc, World.handle_apply]
      exact if_pos rfl
    exact ⟨wal, Table.mem_rows.mpr hstored, by rw [hwal]; rfl, rfl,
      by rw [hwal]; simp [walHandle, hhash]⟩
  | recover g =>
    obtain ⟨-, -, rfl, -, -, hne, -⟩ := howes
    obtain ⟨hstored, hlive⟩ := hruns.recover_stored hseq Client.fresh_start h
      (by rw [List.getLast?_eq_getElem?, hlast]) hprog
    have hrec := (hruns.recorded Client.fresh_start h).1 g hstored
    exact ⟨g, Table.mem_rows.mpr hstored, hlive, rfl, hrec.resolve_left hne⟩

end Law

section Runs

attribute [local instance] Toy.alloy

instance (s : Store) (rlp : Bytes) : Decidable (Persisted s rlp) :=
  inferInstanceAs (Decidable (∃ g ∈ s.handles.rows, _))

def isCancelSite : SubmitSite → Bool
  | .cancel _ => true
  | _ => false

/-- A send that is cut off after `n` calls. -/
def sendToy (n : Nat) : List (System.Action crashingCalls) :=
  [.spawn (.send Toy.manager Toy.intent .default none), .moves 0 n () (World.serve Toy.calm)]

/-- The process crashed between the write of the record and the broadcast; the next tick is
about to broadcast what it found. -/
def recoveringTick : CallPool :=
  System.played Client.start (sendToy 9 ++
    [.spawn (.tick Toy.executor), .moves 1 20 () (Toy.heldAt SubmitSite.isLogged)])

theorem persisted_before_broadcast_recover : ∃ rlp site, Broadcasts recoveringTick rlp site ∧
    site.isLogged ∧ Persisted recoveringTick.world.store rlp := by
  have hreach : crashingCalls.Reaches Client.start recoveringTick := System.reaches_played _ _
  have hsome : (broadcast? recoveringTick SubmitSite.isLogged).isSome := by decide +kernel
  obtain ⟨rlp, hrlp⟩ := Option.isSome_iff_exists.mp hsome
  obtain ⟨site, hsite, hb⟩ := broadcasts_of_broadcast? hrlp
  exact ⟨rlp, site, hb, hsite, persisted_before_broadcast hreach hb hsite⟩

/-- A tick after a send, about to broadcast a bump. -/
def bumpingCall : CallPool :=
  System.played Client.start (sendToy 20 ++
    [.spawn (.tick Toy.executor), .moves 1 40 () (Toy.heldAt isBumpSite)])

/-- A cancel of a send, about to broadcast. -/
def cancellingCall : CallPool :=
  System.played Client.start (sendToy 20 ++
    [.spawn (.cancel Toy.manager (.new Toy.intent.hash 4)),
      .moves 1 40 () (Toy.heldAt isCancelSite)])

/-- A broadcast whose bytes no stored handle has refutes the law. -/
theorem unlogged_broadcast {p : CallPool} (hreach : crashingCalls.Reaches Client.start p)
    {kind : SubmitSite → Bool}
    (h : (broadcast? p kind).any fun rlp => decide ¬Persisted p.world.store rlp) :
    ∃ p rlp site, crashingCalls.Reaches Client.start p ∧ Broadcasts p rlp site ∧ kind site ∧
      ¬Persisted p.world.store rlp := by
  obtain ⟨rlp, hrlp, hp⟩ := (Option.any_eq_true _ _).mp h
  obtain ⟨site, hkind, hb⟩ := broadcasts_of_broadcast? hrlp
  exact ⟨p, rlp, site, hreach, hb, hkind, of_decide_eq_true hp⟩

/-- A bump and a cancel each broadcast bytes that are not stored. -/
theorem bump_and_cancel_not_persisted :
    (∃ p rlp site, crashingCalls.Reaches Client.start p ∧ Broadcasts p rlp site ∧
      isBumpSite site ∧ ¬Persisted p.world.store rlp) ∧
    ∃ p rlp site, crashingCalls.Reaches Client.start p ∧ Broadcasts p rlp site ∧
      isCancelSite site ∧ ¬Persisted p.world.store rlp :=
  ⟨unlogged_broadcast (p := bumpingCall) (System.reaches_played _ _) (by decide +kernel),
    unlogged_broadcast (p := cancellingCall) (System.reaches_played _ _) (by decide +kernel)⟩

end Runs

end WalletKit
