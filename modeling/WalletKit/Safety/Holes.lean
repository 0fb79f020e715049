import WalletKit.Nonces.Coverage
import WalletKit.Runtime.Sends
import WalletKit.Safety.Cancelled

/-!
# No nonce is lost

The nonce states and the records are stored apart, and a send has its nonce from the one before it
is in the other. Calls interleave in any way over a store that works; everything else may answer
anything. From the floor of an account up to the top, every nonce is then free, or a send is under
way with it, or it has a record whose broadcast was not rejected.
-/
namespace WalletKit

open Machine

/-- The broadcast of this record was rejected. -/
def TxHandle.submitRejected (g : TxHandle) : Prop :=
  ∃ e : SubmissionError, g.status = .failed e.toString

/-- A record stands on this nonce that is live or was settled by the chain. -/
def StandsOn (s : Store) (a : Address) (n : Nat) : Prop :=
  ∃ g, s.handle g.id = some g ∧ g.account = a ∧ g.nonce = n ∧ g.Is .tracked

section Steps

/-- What a step of a call that held `old` and then holds `new` does to the nonces: what it gets
was not taken, it gives back only what it held, and a record that is lost, or a nonce that is
no longer held, is made up for by the other. -/
structure Moves (w w' : World) (old new : Option (Address × Nat)) : Prop where
  free : w'.FreeBelow
  floor : ∀ a, floorOf a w.log ≤ floorOf a w'.log
  got : ∀ {a n}, new = some (a, n) → old = some (a, n) ∨ ¬w.Taken a n ∧ w'.Taken a n
  kept : ∀ {a n}, w.Taken a n → w'.Taken a n ∨ old = some (a, n) ∧ new = none
  gained : ∀ {a n}, floorOf a w'.log ≤ n → w'.Taken a n → w.Taken a n ∨ new = some (a, n)
  left : ∀ {a n}, old = some (a, n) → w'.Taken a n →
    new = some (a, n) ∨ StandsOn w'.store a n
  stands : ∀ {a n}, StandsOn w.store a n → StandsOn w'.store a n ∨ new = some (a, n)

variable {w : World} {past : List PortEvent} {e : PortEvent}

theorem floorOf_le_apply (w : World) (e : PortEvent) (a : Address) :
    floorOf a w.log ≤ floorOf a (w.apply e).log := by
  rw [World.apply_log, floorOf_snoc]
  exact le_max_left _ _

theorem startsAt_le_floorOf (w : World) (e : PortEvent) (a : Address) :
    startsAt a e ≤ floorOf a (w.apply e).log := by
  rw [World.apply_log, floorOf_snoc]
  exact le_max_right _ _

/-- Nothing is stored and nothing is swapped. -/
theorem moves_quiet (hf : w.FreeBelow) (hq : swapped e = none) (hw : wrote e = none)
    (hhold : holding (past ++ [e]) = holding past) :
    Moves w (w.apply e) (holding past) (holding (past ++ [e])) := by
  have hstands : ∀ {a n}, StandsOn w.store a n → StandsOn (w.apply e).store a n := by
    rintro a n ⟨g, hg, hrest⟩
    exact ⟨g, by rwa [World.handle_apply, hw], hrest⟩
  rw [hhold]
  exact {
    free := World.freeBelow_quiet hq hf
    floor := floorOf_le_apply w _
    got := .inl
    kept := fun ht => .inl ((World.taken_quiet hq ..).mpr ht)
    gained := fun _ ht => .inl ((World.taken_quiet hq ..).mp ht)
    left := fun hold _ => .inl hold
    stands := fun hs => .inl (hstands hs) }

/-- A record is written over one on the same nonce. Only the record of a rejection is of no
account, and its writer still has the nonce. -/
theorem moves_put (hf : w.FreeBelow) {h' : TxHandle} {site : PutSite}
    (hover : ∀ g, w.store.handle h'.id = some g → SameSpot g h')
    (hcase : h'.Is .tracked ∨
      holding (past ++ [ev (.putHandle h' site) (.ok ())]) = some (h'.account, h'.nonce))
    (hhold : holding (past ++ [ev (.putHandle h' site) (.ok ())]) = holding past ∨
      holding (past ++ [ev (.putHandle h' site) (.ok ())]) = none ∧
        holding past = some (h'.account, h'.nonce)) :
    Moves w (w.apply (ev (.putHandle h' site) (.ok ()))) (holding past)
      (holding (past ++ [ev (.putHandle h' site) (.ok ())])) := by
  have hquiet : swapped (ev (.putHandle h' site) (.ok ())) = none := rfl
  have hstored : ∀ id, (w.apply (ev (.putHandle h' site) (.ok ()))).store.handle id =
      if id = h'.id then some h' else w.store.handle id := fun id => World.handle_apply ..
  have hnew : h'.Is .tracked → StandsOn (w.apply (ev (.putHandle h' site) (.ok ()))).store
      h'.account h'.nonce := fun hk => ⟨h', by rw [hstored, if_pos rfl], rfl, rfl, hk⟩
  refine {
    free := World.freeBelow_quiet hquiet hf
    floor := floorOf_le_apply w _
    got := fun hnew => ?_
    kept := fun ht => .inl ((World.taken_quiet hquiet ..).mpr ht)
    gained := fun _ ht => .inl ((World.taken_quiet hquiet ..).mp ht)
    left := fun hold _ => ?_
    stands := ?_ }
  · rcases hhold with hsame | ⟨hnone, -⟩
    · exact .inl (hsame ▸ hnew)
    · rw [hnone] at hnew
      cases hnew
  · rcases hhold with hsame | ⟨hnone, hspot⟩
    · exact .inl (hsame ▸ hold)
    · rw [hold] at hspot
      cases hspot
      refine .inr (hnew (hcase.resolve_right ?_))
      rw [hnone]
      nofun
  · rintro a n ⟨g, hg, rfl, rfl, hk⟩
    by_cases hid : g.id = h'.id
    · obtain ⟨ha, hn⟩ := hover g (hid ▸ hg)
      rw [ha, hn]
      exact hcase.imp_left hnew
    · exact .inl ⟨g, by rwa [hstored, if_neg hid], rfl, rfl, hk⟩

/-- A nonce state is swapped. -/
theorem moves_swap {scope : NonceScope} {version : Nat} {value : NonceState} {f : FenceToken}
    {note : CasNote}
    (hf : (w.apply (ev (.casNonceState scope version value f note) (.ok true))).FreeBelow)
    (heff : w.SwapEffect (w.apply (ev (.casNonceState scope version value f note) (.ok true)))
      scope.account note)
    (halloc : ∀ n first, note = .allocate n first → holding past = none)
    (hrel : ∀ n, note = .release n → holding past = some (scope.account, n)) :
    Moves w (w.apply (ev (.casNonceState scope version value f note) (.ok true))) (holding past)
      (holding (past ++ [ev (.casNonceState scope version value f note) (.ok true)])) := by
  have hstands : ∀ {a n}, StandsOn w.store a n → StandsOn
      (w.apply (ev (.casNonceState scope version value f note) (.ok true))).store a n := by
    rintro a n ⟨g, hg, hrest⟩
    exact ⟨g, by rwa [World.handle_apply], hrest⟩
  have hfloor := floorOf_le_apply w (ev (.casNonceState scope version value f note) (.ok true))
  have hstart := startsAt_le_floorOf w (ev (.casNonceState scope version value f note) (.ok true))
    scope.account
  have hnew := holding_snoc past (ev (.casNonceState scope version value f note) (.ok true))
  generalize w.apply (ev (.casNonceState scope version value f note) (.ok true)) = w' at *
  cases note with
  | allocate m first =>
    obtain ⟨hfresh, htaken, hkeep, hgain⟩ := heff
    replace hnew : _ = some (scope.account, m) := hnew
    rw [hnew, halloc m first rfl]
    refine ⟨hf, hfloor, ?_, fun ht => .inl (hkeep _ _ ht), fun {a n} hle ht => ?_,
      fun {a n} hold => (by cases hold), fun hs => .inl (hstands hs)⟩
    · rintro a n ⟨⟩
      exact .inr ⟨hfresh, htaken⟩
    · refine (hgain a n ht).imp_right ?_
      rintro ⟨rfl, rfl | ⟨pending, hfirst, hlt⟩⟩
      · rfl
      · -- below the pending nonce that the account starts at
        obtain rfl : first = some pending := hfirst
        have : pending ≤ n := by simpa [startsAt, ev] using hstart.trans hle
        omega
  | release m =>
    replace hnew : _ = none := hnew
    rw [hnew, hrel m rfl]
    refine ⟨hf, hfloor, fun {a n} hold => (by cases hold), fun {a n} ht => ?_,
      fun _ ht => .inl ((heff _ _).mp ht).1, ?_, fun hs => .inl (hstands hs)⟩
    · by_cases hsame : a = scope.account ∧ n = m
      · obtain ⟨rfl, rfl⟩ := hsame
        exact .inr ⟨rfl, rfl⟩
      · exact .inl ((heff a n).mpr ⟨ht, hsame⟩)
    · rintro a n ⟨⟩ ht
      exact absurd ⟨rfl, rfl⟩ ((heff _ _).mp ht).2
  | reset c =>
    obtain ⟨hkeep, hgain⟩ := heff
    replace hnew : _ = holding past := hnew
    rw [hnew]
    refine ⟨hf, hfloor, .inl, fun ht => .inl (hkeep _ _ ht), fun {a n} hle ht => ?_,
      fun hold _ => .inl hold, fun hs => .inl (hstands hs)⟩
    refine (hgain a n ht).imp_right ?_
    rintro ⟨rfl, hlt⟩
    have : c ≤ n := by simpa [startsAt, ev] using hstart.trans hle
    omega

/-- A load that finds a reserved nonce above the counter is the only way to void it. -/
theorem void_snoc (h : Void (past ++ [e])) : Void past ∨ ∃ a n v,
    e = ev (.loadNonceState ⟨a⟩) (.ok v) ∧ holding past = some (a, n) ∧ v.value.next ≤ n := by
  obtain ⟨before, a, n, v, hpre, hold, hle⟩ := h
  rcases List.prefix_concat_iff.mp hpre with hpre | hpre
  · obtain ⟨rfl, he⟩ := List.append_inj' hpre rfl
    exact .inr ⟨a, n, v, (List.singleton_inj.mp he).symm, hold, hle⟩
  · exact .inl ⟨before, a, n, v, hpre, hold, hle⟩

end Steps

section Pools

/-- Every call holds what is taken, no two hold the same, and what is taken is held or has a
record. -/
structure Accounted (p : CallPool) : Prop where
  free : p.world.FreeBelow
  held : ∀ {j a n}, holding (p.pastOf j) = some (a, n) → p.world.Taken a n
  apart : ∀ {i j a n}, holding (p.pastOf i) = some (a, n) → holding (p.pastOf j) = some (a, n) →
    i = j
  valid : ∀ j, ¬Void (p.pastOf j)
  covered : ∀ {a n}, floorOf a p.world.log ≤ n → p.world.Taken a n →
    (∃ j, holding (p.pastOf j) = some (a, n)) ∨ StandsOn p.world.store a n

variable {p : CallPool}

theorem accounted_start : Accounted Client.start where
  free := World.freeBelow_initial
  held := nofun
  apart := nofun
  valid := by
    rintro j ⟨before, a, n, v, hpre, -⟩
    exact absurd (List.prefix_nil.mp hpre) (by simp)
  covered _ ht := absurd ht (World.not_taken_initial _ _)

theorem Accounted.spawn (h : Accounted p) (c : Call) (b : Io CallResult) :
    Accounted (p.spawn c b) where
  free := h.free
  held hold := h.held (by rwa [Pool.pastOf_spawn] at hold)
  apart hi hj := h.apart (by rwa [Pool.pastOf_spawn] at hi) (by rwa [Pool.pastOf_spawn] at hj)
  valid j := by
    rw [Pool.pastOf_spawn]
    exact h.valid j
  covered hle ht := by
    simp only [Pool.pastOf_spawn]
    exact h.covered hle ht

theorem Accounted.move (h : Accounted p) {i : Nat} {th : CallThread} {o : Op} {r : o.Reply}
    {rest : Io CallResult} (hi : p.threads[i]? = some th)
    (hm : Moves p.world (p.world.apply ⟨o, r⟩) (holding th.past) (holding (th.past ++ [⟨o, r⟩])))
    (hvalid : ¬Void (th.past ++ [⟨o, r⟩])) :
    Accounted (p.answer i th o r rest (p.world.apply ⟨o, r⟩)) := by
  have hself : p.pastOf i = th.past := Pool.pastOf_of_get hi
  have hnew : (p.answer i th o r rest (p.world.apply ⟨o, r⟩)).pastOf i =
      th.past ++ [⟨o, r⟩] := by rw [Pool.pastOf_answer hi, if_pos rfl, hself]
  have hother : ∀ {j}, j ≠ i → (p.answer i th o r rest (p.world.apply ⟨o, r⟩)).pastOf j =
      p.pastOf j := fun hj => by rw [Pool.pastOf_answer hi, if_neg hj]
  rw [← hself] at hm
  -- what the moving call gets, nobody else holds
  have fresh : ∀ {j a n}, j ≠ i → holding (th.past ++ [⟨o, r⟩]) = some (a, n) →
      holding (p.pastOf j) ≠ some (a, n) := fun hj hold hold' => by
    rw [← hself] at hold
    rcases hm.got hold with hold | ⟨hnot, -⟩
    · exact hj (h.apart hold' hold)
    · exact hnot (h.held hold')
  refine ⟨hm.free, fun {j a n} hold => ?_, fun {i' j a n} hi' hj => ?_, fun j => ?_,
    fun {a n} hle ht => ?_⟩
  · by_cases hj : j = i
    · subst hj
      rw [hnew, ← hself] at hold
      rcases hm.got hold with hold' | ⟨-, ht⟩
      · refine (hm.kept (h.held hold')).resolve_right ?_
        rintro ⟨-, hnone⟩
        rw [hnone] at hold
        cases hold
      · exact ht
    · rw [hother hj] at hold
      refine (hm.kept (h.held hold)).resolve_right ?_
      rintro ⟨hold', -⟩
      exact hj (h.apart hold hold')
  · by_cases hii : i' = i
    · subst hii
      by_contra hne
      rw [hnew] at hi'
      rw [hother (Ne.symm hne)] at hj
      exact fresh (Ne.symm hne) hi' hj
    · by_cases hji : j = i
      · subst hji
        rw [hnew] at hj
        rw [hother hii] at hi'
        exact absurd hi' (fresh hii hj)
      · rw [hother hii] at hi'
        rw [hother hji] at hj
        exact h.apart hi' hj
  · by_cases hj : j = i
    · subst hj
      rwa [hnew]
    · rw [hother hj]
      exact h.valid j
  · rw [Pool.world_answer] at hle ht ⊢
    have mine : holding (p.pastOf i ++ [⟨o, r⟩]) = some (a, n) → ∃ j,
        holding ((p.answer i th o r rest (p.world.apply ⟨o, r⟩)).pastOf j) = some (a, n) :=
      fun hold => ⟨i, by rwa [hnew, ← hself]⟩
    rcases hm.gained hle ht with htaken | hold
    · rcases h.covered ((hm.floor a).trans hle) htaken with ⟨j, hold⟩ | hs
      · by_cases hj : j = i
        · subst hj
          exact (hm.left hold ht).imp_left mine
        · exact .inl ⟨j, by rwa [hother hj]⟩
      · exact (hm.stands hs).symm.imp_left mine
    · exact .inl (mine hold)

end Pools

section Law

variable [Alloy]

/-- Calls in any interleaving over a store that works. New records get ids of their own. -/
abbrev workingCalls : System ports World Call CallResult :=
  Call.client.system fun p _ e => World.working e ∧ distinctIds p.world e

theorem workingCalls_runs : Call.client.Runs workingCalls id := Call.client.system_runs _

variable {p : CallPool} {th : CallThread}

/-- A record is written over one on the same nonce: a new one because ids do not collide, a version
because under the id of the record it was computed from there still is one on that nonce. -/
theorem sameSpot_of_owes {role : Role} {w : World} {past : List PortEvent} {g h' : TxHandle}
    {site : PutSite} (howes : PutOwes role past h' site)
    (hids : distinctIds w (ev (.putHandle h' site) (.ok ()))) (hg : w.store.handle h'.id = some g)
    (hcoherent : Coherent g) (hcoherent' : Coherent h')
    (hknown : ∀ g, Known past g → ∃ g', w.store.handle g.id = some g' ∧ SameSpot g' g) :
    SameSpot g h' := by
  cases hb : site.basis with
  | none =>
    obtain ⟨hintent, hnonce⟩ := same_of_distinctIds hids hb hg
    exact ⟨by rw [hcoherent.account, hcoherent'.account, hintent], hnonce⟩
  | some basis =>
    have hsame := howes.sameRecord hb
    obtain ⟨g', hg', hspot⟩ := hknown basis (howes.known hb)
    rw [hsame.id, hg'] at hg
    cases hg
    exact hspot.trans hsame.spot.symm

/-- Under the id of a record that a call knows there is one on the same nonce. -/
theorem known_spots (h : workingCalls.Reaches Client.start p) :
    ∀ th ∈ p.threads, ∀ g, Known th.past g →
      ∃ g', p.world.store.handle g.id = some g' ∧ SameSpot g' g := by
  induction h with
  | refl => exact fun _ hth => absurd hth List.not_mem_nil
  | @tail p p' hreach hs ih =>
    cases hs with
    | spawn c _ =>
      intro th hth g hg
      rcases Pool.mem_spawn.mp hth with hth | rfl
      · exact ih th hth g hg
      · exact absurd hg known_nil
    | @move i th o k x r hi hprog ha =>
      have hth := List.mem_of_getElem? hi
      have keep : ∀ g g', p.world.store.handle g.id = some g' → SameSpot g' g →
          ∃ g'', (p.world.apply ⟨o, r⟩).store.handle g.id = some g'' ∧ SameSpot g'' g := by
        intro g g' hg' hspot
        cases hw : wrote ⟨o, r⟩ with
        | none => exact ⟨g', by rwa [World.handle_apply, hw], hspot⟩
        | some h' =>
          by_cases hid : g.id = h'.id
          · obtain ⟨site, he⟩ := wrote_eq_some hw
            cases he
            obtain ⟨role, -, howes⟩ := workingCalls_runs.owes Client.fresh_start hreach hth hprog
            obtain ⟨hstored, hknown⟩ := workingCalls_runs.coherent Client.fresh_start hreach
            have hg'' : p.world.store.handle h'.id = some g' := hid ▸ hg'
            have hsame : SameSpot g' h' := sameSpot_of_owes howes ha.2.2 hg''
              (hstored g' (by rwa [Table.key_of_get hg''])) (PutOwes.coherent howes (hknown th hth))
              (ih th hth)
            exact ⟨h', by rw [World.handle_apply, hw]; exact if_pos hid, hsame.symm.trans hspot⟩
          · exact ⟨g', by rw [World.handle_apply, hw]; exact (if_neg hid).trans hg', hspot⟩
      intro th' hth' g hg
      rcases Pool.mem_answer hth' with hth' | rfl
      · obtain ⟨g', hg', hspot⟩ := ih th' hth' g hg
        exact keep g g' hg' hspot
      · rcases known_snoc.mp hg with hg | hread | hw
        · obtain ⟨g', hg', hspot⟩ := ih th hth g hg
          exact keep g g' hg' hspot
        · exact keep g g (stored_of_reads hread ha.1) ⟨rfl, rfl⟩
        · exact ⟨g, by rw [Pool.world_answer]; exact (World.handle_apply ..).trans (by
            rw [hw]; exact if_pos rfl), rfl, rfl⟩

/-- Every record that is written is live or settled by the chain, but that of a rejection. -/
theorem Call.tracked_of_owes (h : workingCalls.Reaches Client.start p) (hth : th ∈ p.threads)
    {role : Role} (hrole : client.Plays th.call role) {h' : TxHandle} {site : PutSite}
    (howes : PutOwes role th.past h' site) : h'.Is .tracked ∨ ∃ wal, site = .rejected wal := by
  cases hb : site.basis with
  | none =>
    obtain ⟨origin, rfl⟩ | ⟨marked, rfl⟩ := Call.new_site hrole howes hb
    · obtain ⟨m, -, ⟨_, _, _, _, _, _, _, _, _, -, -, -, -, rfl⟩, -⟩ := howes
      exact .inl (.inl rfl)
    · obtain ⟨m, approval, now, signed, -, rfl, -⟩ := howes
      exact .inl (.inl rfl)
  | some g =>
    have hlive := workingCalls_runs.basis_live Client.fresh_start h hth howes hb
    cases id (howes.version hb) with
    | rejected => exact .inr ⟨g, rfl⟩
    | sent | included => exact .inl (.inl rfl)
    | marked | unmarked | bumped => exact .inl (.inl hlive)
    | advanced =>
      obtain ⟨e, -, hev⟩ := howes
      exact .inl hev.tracked
    | relayFailed =>
      have hne := (Call.broadcasts_ne_nil workingCalls_runs Client.fresh_start h).2 th hth g
        (howes.known hb)
      obtain ⟨e, -, -, hrelay, -⟩ := howes
      simp [isAwaitingRelay, hne] at hrelay

/-- Where the store works, an event that changes nothing in it leaves a call its nonce. -/
theorem holding_quiet {role : Role} {past : List PortEvent} {e : PortEvent}
    (hq : swapped e = none) (hw : wrote e = none) (hok : World.working e)
    (howes : Owes role past e.op) : holding (past ++ [e]) = holding past := by
  rw [holding_snoc]
  obtain ⟨o, r⟩ := e
  cases o with
  | casNonceState scope n v f note =>
    match r with
    | .ok true => cases hq
    | .ok false => cases note <;> rfl
    | .error _ => cases hok
  | putHandle g site =>
    match r with
    | .ok () => cases hw
    | .error _ => cases hok
  | submit rlp opts site =>
    cases site with
    | send origin wal =>
      rw [holding, SubmitOwes.logged howes]
      change (if maybeOut r then Phase.out wal else .logged wal).held = _
      split <;> rfl
    | _ => rfl
  | _ => rfl

/-- A call that writes a record keeps its nonce, unless the record is that of a send that is out. -/
theorem holding_put {role : Role} {past : List PortEvent} {h' : TxHandle} {site : PutSite}
    (howes : PutOwes role past h' site) :
    holding (past ++ [ev (.putHandle h' site) (.ok ())]) = holding past ∨
      holding (past ++ [ev (.putHandle h' site) (.ok ())]) = none ∧
        holding past = some (h'.account, h'.nonce) := by
  rw [holding_snoc, holding]
  cases site with
  | wal =>
    obtain ⟨m, -, -, hp⟩ := howes
    exact .inl (by rw [hp]; rfl)
  | rejected wal =>
    obtain ⟨e, -, -, -, -, hp⟩ := howes
    exact .inl (by rw [hp]; rfl)
  | sent wal =>
    obtain ⟨rfl, -, hp⟩ := howes
    exact .inr ⟨rfl, by rw [hp]; rfl⟩
  | _ => exact .inl rfl

/-- A call of such a run leaves no nonce behind. -/
theorem Accounted.not_stranded (hp : Accounted p) (h : workingCalls.Reaches Client.start p)
    {i : Nat} (hi : p.threads[i]? = some th) : ¬Stranded th.past := by
  rintro (⟨e, he, hfailed⟩ | hvoid)
  · have hworks := h.answered (K := fun _ e => World.working e) (fun _ ha => ha.2.1) rfl th
      (List.mem_of_getElem? hi) e he
    rw [hworks] at hfailed
    cases hfailed
  · exact hp.valid i (by rwa [Pool.pastOf_of_get hi])

theorem Accounted.moves (hp : Accounted p) (h : workingCalls.Reaches Client.start p) {i : Nat}
    (hi : p.threads[i]? = some th) {o : Op} {k : o.Reply → Io CallResult} {r : o.Reply}
    (hprog : th.prog = .call o k) (ha : workingCalls.allow p i () o r) :
    Moves p.world (p.world.apply ⟨o, r⟩) (holding th.past) (holding (th.past ++ [⟨o, r⟩])) := by
  have hth := List.mem_of_getElem? hi
  have hstranded := hp.not_stranded h hi
  obtain ⟨role, hrole, howes⟩ := workingCalls_runs.owes Client.fresh_start h hth hprog
  cases hq : swapped ⟨o, r⟩ with
  | some note =>
    obtain ⟨scope, version, value, f, he⟩ := swapped_eq_some hq
    cases he
    obtain ⟨hfrom, hnote⟩ := howes
    have hrel : ∀ m, note = .release m → holding th.past = some (scope.account, m) := by
      rintro m rfl
      exact hnote.1
    obtain ⟨hf, heff⟩ := workingCalls_runs.swap_effect Client.fresh_start h hth hfrom ha.1 hp.free
      fun m hm => hp.held (by rw [Pool.pastOf_of_get hi]; exact hrel m hm)
    refine moves_swap hf heff ?_ hrel
    rintro m first rfl
    exact holding_of_done hnote hstranded
  | none =>
    cases hw : wrote ⟨o, r⟩ with
    | some h' =>
      obtain ⟨site, he⟩ := wrote_eq_some hw
      cases he
      obtain ⟨hstored, hknown⟩ := workingCalls_runs.coherent Client.fresh_start h
      refine moves_put hp.free (fun g hg => ?_) ?_ (holding_put howes)
      · exact sameSpot_of_owes howes ha.2.2 hg (hstored g (by rwa [Table.key_of_get hg]))
          (PutOwes.coherent howes (hknown th hth)) (known_spots h th hth)
      · refine (Call.tracked_of_owes h hth hrole howes).imp_right ?_
        rintro ⟨wal, rfl⟩
        obtain ⟨e, rfl, -, -, -, hp⟩ := howes
        rw [holding_snoc]
        rfl
    | none => exact moves_quiet hp.free hq hw (holding_quiet hq hw ha.2.1 howes)

theorem accounted_of_reaches (h : workingCalls.Reaches Client.start p) : Accounted p := by
  induction h with
  | refl => exact accounted_start
  | @tail p p' hreach hs hp =>
    cases hs with
    | spawn c _ => exact hp.spawn c _
    | @move i th o k x r hi hprog ha =>
      refine hp.move hi (hp.moves hreach hi hprog ha) fun hvoid => ?_
      rcases void_snoc hvoid with hvoid | ⟨a, n, v, he, hold, hle⟩
      · exact hp.valid i (by rwa [Pool.pastOf_of_get hi])
      · -- what the call holds is taken, so it is below the top that was loaded
        cases he
        have hv : v = p.world.store.loadNonceState ⟨a⟩ := of_decide_eq_true ha.1
        have htaken := hp.held (by rw [Pool.pastOf_of_get hi]; exact hold)
        rw [hv] at hle
        exact NonceState.not_taken_of_next_le hle htaken

/-- **No nonce is lost.** Calls interleave in any way over a store that works. From the floor of an
account up to the top, every nonce is free, or a send has allocated it and has not yet returned, or
there is a record of the account on it that is not that of a rejected broadcast. -/
theorem nonces_accounted_for (h : workingCalls.Reaches Client.start p) (a : Address) (n : Nat)
    (hfloor : floorOf a p.world.log ≤ n)
    (hnext : n < (p.world.store.loadNonceState ⟨a⟩).value.next) :
    n ∈ (p.world.store.loadNonceState ⟨a⟩).value.free ∨ (∃ th ∈ p.threads, Sending th a n) ∨
      ∃ g, p.world.store.handle g.id = some g ∧ g.account = a ∧ g.nonce = n ∧
        ¬g.submitRejected := by
  have hp := accounted_of_reaches h
  by_cases hfree : n ∈ (p.world.store.loadNonceState ⟨a⟩).value.free
  · exact .inl hfree
  refine .inr ((hp.covered hfloor ⟨hnext, hfree⟩).imp ?_ ?_)
  · rintro ⟨j, hold⟩
    cases hj : p.threads[j]? with
    | none =>
      rw [Pool.pastOf, hj] at hold
      cases hold
    | some th =>
      rw [Pool.pastOf_of_get hj] at hold
      exact ⟨th, List.mem_of_getElem? hj, Call.sending_of_holding workingCalls_runs
        Client.fresh_start h (List.mem_of_getElem? hj) (hp.not_stranded h hj) hold⟩
  · rintro ⟨g, hg, ha, hn, hk⟩
    refine ⟨g, hg, ha, hn, ?_⟩
    rintro ⟨e, hs⟩
    rw [TxHandle.Is, hs] at hk
    exact Kind.tracked.rejected e _ hk

end Law

section Runs

attribute [local instance] Toy.alloy

/-- One send is out on nonce 4, and another is about to broadcast on nonce 5. -/
def secondInFlight : CallPool :=
  System.played (S := workingCalls) Client.start
    [.spawn (.send Toy.manager Toy.intent .default none),
      .spawn (.send Toy.manager Toy.intent .default none),
      .moves 0 20 () (World.serve Toy.calm), .moves 1 20 () (Toy.heldAt fun _ => true)]

theorem nonces_accounted_for_second : ∃ p : CallPool, workingCalls.Reaches Client.start p ∧
    floorOf Toy.account p.world.log = 4 ∧
    (p.world.store.loadNonceState ⟨Toy.account⟩).value = ⟨6, ∅⟩ ∧
    ((∃ th ∈ p.threads, Sending th Toy.account 5) ∨
      ∃ g, p.world.store.handle g.id = some g ∧ g.account = Toy.account ∧ g.nonce = 5 ∧
        ¬g.submitRejected) := by
  have hreach : workingCalls.Reaches Client.start secondInFlight := System.reaches_played _ _
  have hfloor : floorOf Toy.account secondInFlight.world.log = 4 := by decide +kernel
  have hstate : (secondInFlight.world.store.loadNonceState ⟨Toy.account⟩).value = ⟨6, ∅⟩ := by
    decide +kernel
  have hnonce := nonces_accounted_for hreach Toy.account 5 (by rw [hfloor]; decide)
    (by rw [hstate]; decide)
  exact ⟨secondInFlight, hreach, hfloor, hstate, hnonce.resolve_left (by rw [hstate]; decide)⟩

end Runs

end WalletKit
