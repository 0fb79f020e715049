import WalletKit.Nonces.Reservations
import WalletKit.Runtime.Wallet

/-!
# Calls one at a time work on current records

When calls are made one at a time, every record that a call writes over is still stored as the
call has read it, and the record of a new send replaces none that is live. This rests on the
records of rejections being written and on ids that do not collide; a call may still fail or
be cut off anywhere.
-/
namespace WalletKit

open Machine

/-- A new record has an id of its own, but for records of the same intent and nonce. -/
def distinctIds (w : World) : PortEvent → Bool
  | ⟨.putHandle h site, _⟩ =>
    site.basis.isSome || (w.store.handle h.id).all fun g => g.intent = h.intent && g.nonce = h.nonce
  | _ => true

theorem same_of_distinctIds {w : World} {h' g : TxHandle} {site : PutSite}
    {r : Except StateStoreError Unit} (h : distinctIds w (ev (.putHandle h' site) r))
    (hb : site.basis = none) (hg : w.store.handle h'.id = some g) :
    g.intent = h'.intent ∧ g.nonce = h'.nonce := by
  simpa [ev, distinctIds, hb, hg] using h

/-- What a call has read, or written, is what is stored. -/
structure Current (w : World) (past : List PortEvent) : Prop where
  pending : ∀ {a hs done g rest}, hs = done ++ g :: rest → Reading past a hs done →
    w.store.handle g.id = some g ∧ ∀ wal, (phase past).wal = some wal → wal.id ≠ g.id
  wal : ∀ {wal}, (phase past).wal = some wal → w.store.handle wal.id = some wal
  read : (∀ e ∈ past, Aside e.op) → ∀ {g e}, e ∈ past → Reads g e → w.store.handle g.id = some g
  marked : ∀ {marked}, OnlyMarked past marked → w.store.handle marked.id = some marked

section Steps

variable {w : World} {past : List PortEvent} {e : PortEvent}

theorem reading_snoc {a : Address} {hs done : List TxHandle} (h : Reading (past ++ [e]) a hs done) :
    e = ev (.pendingHandles a) (.ok hs) ∨ Reading past a hs done ∧ Spares done e := by
  obtain ⟨before, after, hpast, hafter⟩ := h
  rcases List.eq_nil_or_concat after with rfl | ⟨after, x, rfl⟩
  · obtain ⟨-, he⟩ := List.append_inj' hpast rfl
    cases he
    exact .inl rfl
  · rw [List.concat_eq_append, ← List.cons_append, ← List.append_assoc] at hpast
    obtain ⟨rfl, he⟩ := List.append_inj' hpast rfl
    cases he
    exact .inr ⟨⟨before, after, rfl, fun y hy => hafter y (by simp [hy])⟩, hafter _ (by simp)⟩

theorem onlyMarked_snoc {marked : TxHandle} (h : OnlyMarked (past ++ [e]) marked) :
    (∃ target, e = ev (.putHandle marked (.cancelMark target)) (.ok ())) ∨
      OnlyMarked past marked ∧ Aside e.op := by
  obtain ⟨before, target, after, hpast, hbefore, hafter⟩ := h
  rcases List.eq_nil_or_concat after with rfl | ⟨after, x, rfl⟩
  · obtain ⟨-, he⟩ := List.append_inj' hpast rfl
    cases he
    exact .inl ⟨target, rfl⟩
  · rw [List.concat_eq_append, ← List.cons_append, ← List.append_assoc] at hpast
    obtain ⟨rfl, he⟩ := List.append_inj' hpast rfl
    cases he
    exact .inr ⟨⟨before, target, after, rfl, hbefore, fun y hy => hafter y (by simp [hy])⟩,
      hafter _ (by simp)⟩

theorem current_nil : Current w [] where
  pending _ hr := by obtain ⟨before, after, hpast, -⟩ := hr; simp at hpast
  wal h := by cases h
  read _ _ _ he := by cases he
  marked h := by obtain ⟨before, target, after, hpast, -⟩ := h; simp at hpast

/-- An event that writes no handle. -/
theorem Current.unwritten (h : Current w past) (hw : wrote e = none) (hcan : w.can e)
    (hread : ∀ g, Reads g e → (phase past).resting)
    (hwal : ∀ wal, (phase (past ++ [e])).wal = some wal → (phase past).wal = some wal) :
    Current (w.apply e) (past ++ [e]) := by
  have hstore : ∀ id, (w.apply e).store.handle id = w.store.handle id := fun id => by
    rw [World.handle_apply, hw]
  refine ⟨fun {a hs done g rest} heq hr => ?_, fun hp => ?_, fun haside g x hx hg => ?_,
    fun hm => ?_⟩
  · rw [hstore]
    rcases reading_snoc hr with rfl | ⟨hr, -⟩
    · have hg : Reads g (ev (.pendingHandles a) (.ok hs)) := ⟨hs, rfl, by simp [heq]⟩
      refine ⟨stored_of_reads hg hcan, fun wal hp => ?_⟩
      -- nothing is read while a record waits for its outcome
      have hrest := hread g hg
      have hp := hwal wal hp
      cases hphase : phase past <;> simp [hphase, Phase.wal, Phase.resting] at hp hrest
    · obtain ⟨hg, hne⟩ := h.pending heq hr
      exact ⟨hg, fun wal hp => hne wal (hwal wal hp)⟩
  · rw [hstore]
    exact h.wal (hwal _ hp)
  · rw [hstore]
    rcases List.mem_append.mp hx with hx | hx
    · exact h.read (fun y hy => haside y (by simp [hy])) hx hg
    · rw [List.mem_singleton.mp hx] at hg
      exact stored_of_reads hg hcan
  · rw [hstore]
    rcases onlyMarked_snoc hm with ⟨target, rfl⟩ | ⟨hm, -⟩
    · cases hw
    · exact h.marked hm

variable [Alloy] {role : Role} {h' : TxHandle} {site : PutSite}

/-- A scan only reads the chain. -/
theorem Scanned.reads {g : TxHandle} {mined : Nat} {scan : List PortEvent} {event : ChainEvent}
    (h : Scanned g mined scan event) :
    ∀ x ∈ scan, (∃ hash, x.op = .receipt hash) ∨ ∃ b, x.op = .blockHash b := by
  have none : ∀ {hashes : List TxHash} {x}, x ∈ noReceipts hashes →
      ∃ hash, x.op = .receipt hash := by
    rintro hashes x hx
    obtain ⟨hash, -, rfl⟩ := List.mem_map.mp hx
    exact ⟨hash, rfl⟩
  intro x hx
  cases h with
  | consumed | «open» => exact .inl (none hx)
  | anchored =>
    rcases List.mem_append.mp hx with hx | hx
    · exact .inl (none hx)
    · simp only [List.mem_cons, List.not_mem_nil, or_false] at hx
      rcases hx with rfl | rfl
      · exact .inl ⟨_, rfl⟩
      · exact .inr ⟨_, rfl⟩

theorem Scanned.spares {g : TxHandle} {mined : Nat} {scan : List PortEvent} {event : ChainEvent}
    (h : Scanned g mined scan event) {done : List TxHandle} : ∀ x ∈ scan, Spares done x := by
  intro x hx g' site hop
  rcases h.reads x hx with ⟨hash, ho⟩ | ⟨b, ho⟩ <;> cases hop.symm.trans ho

/-- A write over a record finds it as it was read. -/
theorem Current.basis (h : Current w past) (howes : PutOwes role past h' site)
    (hsole : SoleOwes past (.putHandle h' site)) {g : TxHandle} (hb : site.basis = some g) :
    w.store.handle g.id = some g := by
  cases site with
  | wal | cancelNew | task => cases hb
  | sent wal =>
    cases hb
    obtain ⟨-, -, hp⟩ := howes
    exact h.wal (by rw [hp]; rfl)
  | rejected wal =>
    cases hb
    obtain ⟨e, -, -, -, -, hp⟩ := howes
    exact h.wal (by rw [hp]; rfl)
  | cancelMark target =>
    cases hb
    obtain ⟨id, -, -, hread⟩ := howes
    exact h.read hsole hread rfl
  | cancelUndo marked => cases hb; exact h.marked hsole
  | advance g =>
    cases hb
    obtain ⟨e, -, before, scan, cycle, event, next, rfl, -, ⟨hs, done, rest, heq, hr⟩, -,
      hscan, -⟩ := howes
    exact (h.pending heq (hr.append hscan.spares)).1
  | poll g =>
    cases hb
    obtain ⟨e, -, ⟨hs, done, rest, heq, hr⟩, -⟩ := howes
    exact (h.pending heq hr).1
  | bump g =>
    cases hb
    obtain ⟨e, approval, now, rlp, -, -, -, hs, done, rest, heq, hr⟩ := howes
    exact (h.pending heq hr).1

/-- What is written over, and what a cancel or a relayed send writes, is not the record of the
send in progress. -/
theorem Current.wal_apart (h : Current w past) (howes : PutOwes role past h' site)
    (hsole : SoleOwes past (.putHandle h' site)) (hsite : ¬site.isSend) {wal : TxHandle}
    (hp : (phase past).wal = some wal) : wal.id ≠ h'.id := by
  have idle : phase past = .idle → wal.id ≠ h'.id := fun hidle => by rw [hidle] at hp; cases hp
  have marked : ∀ {marked}, OnlyMarked past marked → phase past = .idle := by
    rintro marked ⟨before, target, after, rfl, hbefore, hafter⟩
    rw [phase_append, List.foldl_cons, phase_of_aside hbefore]
    exact phase_of_aside hafter
  have apart : ∀ {g a hs done rest}, site.basis = some g → hs = done ++ g :: rest →
      Reading past a hs done → wal.id ≠ h'.id := fun hb heq hr => by
    rw [(howes.sameRecord hb).id]
    exact (h.pending heq hr).2 wal hp
  cases site with
  | wal | sent | rejected => exact absurd trivial hsite
  | cancelMark => exact idle (phase_of_aside hsole)
  | cancelUndo => exact idle (marked hsole)
  | cancelNew => exact idle (marked hsole.1)
  | task => exact idle (phase_of_aside hsole.2)
  | advance g =>
    obtain ⟨e, -, before, scan, cycle, event, next, rfl, -, ⟨hs, done, rest, heq, hr⟩, -,
      hscan, -⟩ := id howes
    exact apart rfl heq (hr.append hscan.spares)
  | poll g =>
    obtain ⟨e, -, ⟨hs, done, rest, heq, hr⟩, -⟩ := id howes
    exact apart rfl heq hr
  | bump g =>
    obtain ⟨e, approval, now, rlp, -, -, -, hs, done, rest, heq, hr⟩ := id howes
    exact apart rfl heq hr

/-- A handle is written. -/
theorem Current.put (h : Current w past) (howes : PutOwes role past h' site)
    (hsole : SoleOwes past (.putHandle h' site))
    (hfresh : ∀ origin, site = .wal origin → ∀ g, w.store.handle h'.id = some g →
      g.status.isTerminal)
    (hlisted : ∀ a hs, ev (.pendingHandles a) (.ok hs) ∈ past →
      (hs.map (·.id)).Nodup ∧ ∀ g ∈ hs, g.status.isTerminal = false) :
    Current (w.apply (ev (.putHandle h' site) (.ok ())))
      (past ++ [ev (.putHandle h' site) (.ok ())]) := by
  have hstore : ∀ id, (w.apply (ev (.putHandle h' site) (.ok ()))).store.handle id =
      if id = h'.id then some h' else w.store.handle id := fun id => by rw [World.handle_apply]; rfl
  have hphase : phase (past ++ [ev (.putHandle h' site) (.ok ())]) =
      phaseStep (phase past) (ev (.putHandle h' site) (.ok ())) := phase_snoc rfl rfl
  -- the record that then waits for its outcome is the written one, or is left alone
  have hwal : ∀ wal, (phase (past ++ [ev (.putHandle h' site) (.ok ())])).wal = some wal →
      wal = h' ∧ (∃ origin, site = .wal origin) ∨
        (phase past).wal = some wal ∧ wal.id ≠ h'.id := by
    intro wal hp
    rw [hphase] at hp
    cases site with
    | wal origin => exact .inl ⟨(Option.some.inj hp).symm, origin, rfl⟩
    | sent | rejected => cases hp
    | _ => exact .inr ⟨hp, h.wal_apart howes hsole (fun hsend => hsend) hp⟩
  refine ⟨fun {a hs done g rest} heq hr => ?_, fun {wal} hp => ?_, fun haside => ?_,
    fun {m} hm => ?_⟩
  · rcases reading_snoc hr with he | ⟨hr, hspares⟩
    · cases he
    obtain ⟨hg, hne⟩ := h.pending heq hr
    -- the write is to a record that was dealt with before this one, or belongs to a send
    have hid : g.id ≠ h'.id := by
      obtain ⟨before, after, hpast, -⟩ := hr
      obtain ⟨hnodup, hlive⟩ := hlisted a hs (by simp [hpast])
      rcases hspares h' site rfl with hsend | ⟨d, hd, hid⟩
      · cases site with
        | wal origin =>
          intro hid
          have hterminal := hfresh origin rfl g (hid ▸ hg)
          simp [hlive g (by simp [heq])] at hterminal
        | sent wal =>
          obtain ⟨rfl, -, hp⟩ := howes
          exact (hne wal (by rw [hp]; rfl)).symm
        | rejected wal =>
          obtain ⟨e, rfl, -, -, -, hp⟩ := howes
          exact (hne wal (by rw [hp]; rfl)).symm
        | _ => cases hsend
      · rintro hgid
        rw [heq, List.map_append, List.map_cons] at hnodup
        exact (List.nodup_append.mp hnodup).2.2 d.id (List.mem_map_of_mem hd) g.id (by simp)
          (hid.trans hgid.symm)
    refine ⟨by rw [hstore, if_neg hid]; exact hg, fun wal hp => ?_⟩
    rcases hwal wal hp with ⟨rfl, -⟩ | ⟨hp, -⟩
    · exact hid.symm
    · exact hne wal hp
  · rcases hwal wal hp with ⟨rfl, -⟩ | ⟨hp, hne⟩
    · rw [hstore, if_pos rfl]
    · rw [hstore, if_neg hne]
      exact h.wal hp
  · exact absurd (haside (ev (.putHandle h' site) (.ok ())) (by simp)) (fun ha => ha)
  · rcases onlyMarked_snoc hm with ⟨target, he⟩ | ⟨-, ha⟩
    · cases he
      rw [hstore, if_pos rfl]
    · cases ha

end Steps

section Law

variable [Alloy] {W C α : Type}

/-- The calls that cancel or relay owe their writes to each other. -/
def Client.Sole (cl : Client C α) (errand : C → Errand) : Prop :=
  ∀ c, (errand c).cancels.isSome ∨ cl.Plays c .relayed →
    (cl.body c).wp (.history SoleOwes) (fun _ _ => True) []

/-- Only cancels and relayed sends write what only they write. -/
theorem Client.Runs.sole_owes {cl : Client C α} {S : System ports W C α} {view : W → World}
    {p₀ p : Pool ports W C α} {errand : C → Errand} {th : Thread ports C α} (hS : cl.Runs S view)
    (hset : cl.Settles errand) (hsole : cl.Sole errand) (h₀ : Backed.Fresh view p₀)
    (h : S.Reaches p₀ p) (hth : th ∈ p.threads) {h' : TxHandle} {site : PutSite}
    {k : Except StateStoreError Unit → Io α} (hprog : th.prog = .call (.putHandle h' site) k) :
    SoleOwes th.past (.putHandle h' site) := by
  have owed : ∀ {c}, c = th.call → (errand c).cancels.isSome ∨ cl.Plays c .relayed →
      SoleOwes th.past (.putHandle h' site) := by
    rintro c rfl hc
    have hbody : ∀ c, (S.body c).wp (.history fun past o =>
        (errand c).cancels.isSome ∨ cl.Plays c .relayed → SoleOwes past o)
      (fun _ _ => True) [] := by
      intro c
      rw [hS.body]
      by_cases hc : (errand c).cancels.isSome ∨ cl.Plays c .relayed
      · exact Prog.wp_history_imp (hsole c hc) fun _ _ ho _ => ho
      · exact Prog.wp_history_imp (hset c) fun _ _ _ hc' => absurd hc' hc
    have hist := h.history hbody h₀.1 th hth
    rw [hprog] at hist
    exact (Prog.wp_history_call.mp hist).1 hc
  have hsettles := hS.settles hset h₀ h hth hprog
  obtain ⟨role, hrole, howes⟩ := hS.owes h₀ h hth hprog
  cases site with
  | cancelMark target =>
    obtain ⟨id, hid, -⟩ := hsettles
    exact owed rfl (.inl (by simp [hid]))
  | cancelUndo marked | cancelNew marked =>
    obtain ⟨target, -, id, hid, -⟩ := hsettles
    exact owed rfl (.inl (by simp [hid]))
  | task =>
    obtain ⟨rfl, -⟩ := howes
    exact owed rfl (.inr hrole)
  | _ => trivial

/-- Calls one at a time that keep the records of a kind in order: rejections are recorded, no
two new records share an id, and what is not of the kind has settled when a send replaces it. -/
structure Client.Orderly (cl : Client C α) (S : System ports W C α) (view : W → World)
    (p₀ : Pool ports W C α) (errand : C → Errand) (K : Kind) : Prop where
  runs : cl.Runs S view
  sequential : S.Sequential
  fresh : Backed.Fresh view p₀
  settles : cl.Settles errand
  sole : cl.Sole errand
  written : ∀ {p i x o r}, S.allow p i x o r → rejectWritten ⟨o, r⟩
  distinct : ∀ {p i x o r}, S.allow p i x o r → distinctIds (view p.world) ⟨o, r⟩
  relayed : ∀ c, cl.Plays c .relayed → ∀ s t, ¬K.of s (some t)
  cancels : ∀ {p th h' marked k}, S.Reaches p₀ p → th ∈ p.threads →
    th.prog = .call (.putHandle h' (.cancelNew marked)) k → marked.Is K
  others : ∀ {p i x h' origin}, S.allow p i x (.putHandle h' (.wal origin)) (.ok ()) →
    ∀ g, (view p.world).store.handle h'.id = some g → ¬g.Is K → g.status.isTerminal

namespace Client.Orderly

variable {cl : Client C α} {S : System ports W C α} {view : W → World} {p₀ p : Pool ports W C α}
  {errand : C → Errand} {K : Kind} {th : Thread ports C α}

theorem sole_owes (hS : cl.Orderly S view p₀ errand K) (h : S.Reaches p₀ p) (hth : th ∈ p.threads)
    {h' : TxHandle} {site : PutSite} {k : Except StateStoreError Unit → Io α}
    (hprog : th.prog = .call (.putHandle h' site) k) : SoleOwes th.past (.putHandle h' site) :=
  hS.runs.sole_owes hS.settles hS.sole hS.fresh h hth hprog

/-- What `pending_handles` has reported to a call had ids of their own and was live. -/
theorem listed (hS : cl.Orderly S view p₀ errand K) (h : S.Reaches p₀ p) (hth : th ∈ p.threads)
    (a : Address) (hs : List TxHandle) (hread : ev (.pendingHandles a) (.ok hs) ∈ th.past) :
    (hs.map (·.id)).Nodup ∧ ∀ g ∈ hs, g.status.isTerminal = false := by
  refine ⟨?_, fun g hg => (hS.runs.pending_live hS.fresh h hth ⟨hs, hread, hg⟩).2⟩
  obtain ⟨l, l', hl⟩ := List.append_of_mem (hS.runs.mem_log hS.fresh h hth hread)
  have hperm : hs.Perm ((World.replay l).store.pendingHandles a) := of_decide_eq_true
    (hS.runs.log_answered (K := fun w e => w.can e) hS.fresh hS.runs.can h l _ l' hl)
  refine (hperm.map _).nodup_iff.mpr ?_
  exact (World.replay l).store.handles.nodup.sublist (List.filter_sublist.map _)

/-- The record of a new send replaces none that is live, and none of the kind. -/
theorem fresh_wal (hS : cl.Orderly S view p₀ errand K) (h : S.Reaches p₀ p) (hth : th ∈ p.threads)
    {i : Nat} {x : S.Choice} {h' g : TxHandle} {origin : Origin}
    {k : Except StateStoreError Unit → Io α}
    (hprog : th.prog = .call (.putHandle h' (.wal origin)) k)
    (ha : S.allow p i x (.putHandle h' (.wal origin)) (.ok ()))
    (hex : Exclusive K (view p.world) th.past)
    (hg : (view p.world).store.handle h'.id = some g) : ¬g.Is K ∧ g.status.isTerminal := by
  obtain ⟨hintent, hnonce⟩ := same_of_distinctIds (hS.distinct ha) rfl hg
  have hid : g.id = h'.id := Table.key_of_get hg
  have hcoherent : Coherent g := (hS.runs.coherent hS.fresh h).1 g (hid ▸ hg)
  obtain ⟨role, -, m, -, ⟨_, _, _, _, _, _, _, _, _, -, -, -, -, rfl⟩, hp⟩ :=
    hS.runs.owes hS.fresh h hth hprog
  have hother : ¬g.Is K := by
    intro hk
    obtain ⟨wal, hwal, -⟩ := hex.own _ _ (by rw [holding, hp]; rfl) g (hid ▸ hg) hk
      (by rw [hcoherent.account, hintent]; rfl) hnonce
    rw [hp] at hwal
    cases hwal
  exact ⟨hother, hS.others ha g hg hother⟩

/-- In calls one at a time the records of the kind have their nonces to themselves, and every
call works on current records. -/
theorem invariant (hS : cl.Orderly S view p₀ errand K) (h : S.Reaches p₀ p) :
    Exclusive K (view p.world) p.current ∧ Current (view p.world) p.current := by
  refine h.sequentially (I := fun w past => Exclusive K (view w) past ∧ Current (view w) past)
    hS.sequential hS.fresh.1 ⟨by rw [hS.fresh.2]; exact exclusive_initial, current_nil⟩
    (fun _ _ hs => ⟨hs.1.call, current_nil⟩) fun {p i th x o r k} hreach hlast hprog ha hs => ?_
  obtain ⟨hex, hcur⟩ := hs
  have hth : th ∈ p.threads := List.mem_of_getLast? hlast
  obtain ⟨role, hrole, howes⟩ := hS.runs.owes hS.fresh hreach hth hprog
  have hpast := hS.runs.reject_written hS.fresh hS.written hreach hth
  rw [hS.runs.next ha]
  have hsend : ∀ rlp opts origin wal r', (⟨o, r⟩ : PortEvent) =
      ev (.submit rlp opts (.send origin wal)) r' → phase th.past = .logged wal := by
    intro rlp opts origin wal r' he
    cases he
    exact SubmitOwes.logged howes
  constructor
  · refine hS.runs.exclusive_move hS.fresh hS.written hreach hth hprog ha (fun h' site he => ?_) hex
    cases he
    refine putCase_of_owes howes ?_ ?_ fun a g hg => (hS.runs.pending_live hS.fresh hreach hth hg).2
    · rintro marked rfl -
      exact hS.cancels hreach hth hprog
    · rintro rfl hk
      obtain ⟨t, ht⟩ := Option.isSome_iff_exists.mp (hS.sole_owes hreach hth hprog).1
      rw [TxHandle.Is, ht] at hk
      obtain ⟨rfl, -⟩ := howes
      exact hS.relayed _ hrole _ _ hk
  · cases hw : wrote ⟨o, r⟩ with
    | some h' =>
      obtain ⟨site, he⟩ := wrote_eq_some hw
      cases he
      refine hcur.put howes (hS.sole_owes hreach hth hprog) ?_ (hS.listed hreach hth)
      rintro origin rfl g hg
      exact (hS.fresh_wal hreach hth hprog ha hex hg).2
    | none =>
      refine hcur.unwritten hw (hS.runs.can ha) (fun g hg => ?_) fun wal hp => ?_
      · cases o with
        | pendingHandles | handle => exact Rested.resting howes hpast
        | _ => cases hg
      · cases hq : swapped ⟨o, r⟩ with
        | none =>
          rcases phase_quiet hq hw hsend with hidle | ⟨-, hwal⟩
          · rw [hidle] at hp
            cases hp
          · rwa [hwal] at hp
        | some note =>
          obtain ⟨scope, n, value, f, he⟩ := swapped_eq_some hq
          cases he
          have hphase : phase (th.past ++ [ev (.casNonceState scope n value f note) (.ok true)]) =
            phaseStep (phase th.past) (ev (.casNonceState scope n value f note) (.ok true)) :=
              phase_snoc rfl rfl
          change (phase
            (th.past ++ [ev (.casNonceState scope n value f note) (.ok true)])).wal = _ at hp
          rw [hphase] at hp
          cases note with
          | allocate | release => cases hp
          | reset => exact hp

/-- Every write over a record replaces the very record it was computed from, and the record of
a new send replaces none that is live or of the kind. -/
theorem put_current (hS : cl.Orderly S view p₀ errand K) (h : S.Reaches p₀ p)
    (hlast : p.threads.getLast? = some th) {i : Nat} {x : S.Choice} {h' : TxHandle} {site : PutSite}
    {k : Except StateStoreError Unit → Io α} (hprog : th.prog = .call (.putHandle h' site) k)
    (ha : S.allow p i x (.putHandle h' site) (.ok ())) :
    (∀ g, site.basis = some g → (view p.world).store.handle h'.id = some g) ∧
      ∀ origin, site = .wal origin → ∀ g, (view p.world).store.handle h'.id = some g →
        ¬g.Is K ∧ g.status.isTerminal := by
  have hth : th ∈ p.threads := List.mem_of_getLast? hlast
  obtain ⟨hex, hcur⟩ := hS.invariant h
  rw [Pool.current_of_last hlast] at hex hcur
  obtain ⟨role, -, howes⟩ := hS.runs.owes hS.fresh h hth hprog
  constructor
  · intro g hb
    rw [(howes.sameRecord hb).id]
    exact hcur.basis howes (hS.sole_owes h hth hprog) hb
  · rintro origin rfl g hg
    exact hS.fresh_wal h hth hprog ha hex hg

end Client.Orderly

end Law

section Clients

variable [Alloy]

theorem Call.client_sole : client.Sole errand := by
  intro c hc
  cases c with
  | cancel m id =>
    exact Prog.wp_map.mpr (Prog.wp_mono (TransactionManager.cancel_writes id) fun _ _ _ => trivial)
  | _ => obtain hc | hc := hc <;> cases hc

omit [Alloy] in
theorem Preliminary.aside {o : Op} (ho : Preliminary o) : Aside o := by
  cases o <;> trivial

/-- A relayed send writes nothing but the record of its task. -/
theorem Wallet.sendGelato_writes (w : Wallet) (relay : GelatoRelay) (intent : TxIntent)
    (deadline : Nat) :
    (w.sendGelato relay intent deadline).run.wp (.history SoleOwes) (fun _ _ => True) [] := by
  have keeps : ∀ {α : Type} {x : Io α} {past}, x.Ops Preliminary → (∀ e ∈ past, Aside e.op) →
      x.wp (.history SoleOwes) (fun _ past => ∀ e ∈ past, Aside e.op) past := fun hx hpast =>
    TransactionManager.aside_keeps (P := fun past => ∀ e ∈ past, Aside e.op)
      (hx.mono fun _ => Preliminary.aside) (fun past e he hp x hx => by
        rcases List.mem_append.mp hx with hx | hx
        · exact hp x hx
        · rwa [List.mem_singleton.mp hx]) hpast
  unfold sendGelato
  simp only [Prog.wp_run_bind, Prog.wp_run_lift, Prog.wp_run_orThrow, Clock.wp_nowUnix,
    asks_history]
  refine ⟨trivial, fun now => Prog.wp_mono (keeps (GelatoRelay.buildCall_ops ..)
    (by simp [ev, Aside])) ?_⟩
  rintro (e | call) past hpast
  · trivial
  refine Prog.wp_mono (keeps (w.manager.signTypedData_ops _) hpast) ?_
  rintro (e | signature) past hpast
  · trivial
  simp only [Except.mapError, Relay.wp_gelatoSubmit, asks_history, Prog.forall_except]
  refine ⟨trivial, fun e => trivial, fun task => ?_⟩
  unfold TransactionManager.persistTaskHandle
  simp only [Prog.wp_run_bind, Prog.wp_run_lift, Prog.wp_run_orThrow, Clock.wp_nowUnix,
    StateStore.wp_putHandle, asks_history, Prog.forall_except]
  refine ⟨trivial, fun now => ⟨⟨rfl, fun e he => ?_⟩, fun _ => trivial, fun _ => trivial⟩⟩
  simp only [List.mem_append, List.mem_singleton] at he
  obtain (he | rfl) | rfl := he
  · exact hpast e he
  · trivial
  · trivial

theorem Wallet.client_sole (w : Wallet) : w.client.Sole WalletCall.errand := by
  intro c hc
  cases c with
  | cancel id =>
    exact Prog.wp_map.mpr (Prog.wp_run_orThrow.mpr
      (Prog.wp_mono (TransactionManager.cancel_writes id) fun _ _ _ => trivial))
  | sendGasless intent opts =>
    obtain hc | (⟨⟨relay, hrelay⟩, -⟩ | ⟨runtime, -, hc⟩) := hc
    · cases hc
    · refine Prog.wp_map.mpr ?_
      unfold sendGasless
      split
      · rename_i hgasless
        cases hrelay.symm.trans hgasless
      · exact w.sendGelato_writes _ _ _
      · trivial
    · cases hc
  | tick =>
    obtain hc | (hc | ⟨runtime, -, hc⟩) := hc <;> cases hc
  | _ => obtain hc | hc := hc <;> cases hc

end Clients

end WalletKit
