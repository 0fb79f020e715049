import WalletKit.Nonces.Accounts
import WalletKit.Runtime.Registry

/-!
# Records and the nonces they stand on

Calls run one at a time, and each may be cut off anywhere. As long as the record of a rejected
broadcast is written, every nonce that a record of some kind stands on is taken, and a send in
progress has its nonce for itself. The kind says which records matter: the live ones, or also
those that have settled, or only those that are no relay tasks.
-/
namespace WalletKit

open Machine

/-- Whether this is not the record of a rejected broadcast, or is written. -/
def rejectWritten : PortEvent → Bool
  | ⟨.putHandle _ (.rejected _), r⟩ => (r : Except StateStoreError Unit).isOk
  | _ => true

/-- A kind of records: with a record it has all live versions of it, and it has none whose
broadcast was rejected. -/
structure Kind where
  of : TxStatus → Option TaskId → Prop
  live : ∀ {s s' : TxStatus} {t : Option TaskId}, s.isTerminal = false → of s' t → of s t
  rejected : ∀ (e : SubmissionError) (t : Option TaskId), ¬of (.failed e.toString) t

def TxHandle.Is (h : TxHandle) (K : Kind) : Prop := K.of h.status h.task?

/-- The record of the send in progress. -/
def Phase.wal : Phase → Option TxHandle
  | .logged wal | .out wal => some wal
  | _ => none

/-- Every nonce with a record of this kind, stored or read, is taken, and the send in progress
has its nonce for itself. -/
structure Exclusive (K : Kind) (w : World) (past : List PortEvent) : Prop where
  free : w.FreeBelow
  stored : ∀ g, w.store.handle g.id = some g → g.Is K → w.Taken g.account g.nonce
  seen : ∀ g, g.Is K → (∃ e ∈ past, Reads g e) → w.Taken g.account g.nonce
  held : ∀ a n, holding past = some (a, n) → w.Taken a n
  own : ∀ a n, holding past = some (a, n) → ∀ g, w.store.handle g.id = some g → g.Is K →
    g.account = a → g.nonce = n → ∃ wal, (phase past).wal = some wal ∧ g.id = wal.id
  apart : ∀ a n, holding past = some (a, n) → ∀ g, g.Is K → (∃ e ∈ past, Reads g e) →
    ¬(g.account = a ∧ g.nonce = n)

section Steps

variable {K : Kind} {w : World} {past : List PortEvent} {e : PortEvent}

theorem reads_snoc {g : TxHandle} : (∃ x ∈ past ++ [e], Reads g x) ↔
    (∃ x ∈ past, Reads g x) ∨ Reads g e := by
  simp [or_and_right, exists_or]

/-- What an event that changes nothing in the store does to a send. -/
theorem phaseStep_cases {s : Phase} (hq : swapped e = none) (hw : wrote e = none) :
    phaseStep s e = s ∨ phaseStep s e = .idle ∨ ∃ rlp opts origin wal r,
      e = ev (.submit rlp opts (.send origin wal)) r ∧ phaseStep s e = .out wal := by
  obtain ⟨o, r⟩ := e
  cases o with
  | casNonceState scope n v f note =>
    match r, hq with
    | .ok false, _ => cases note <;> exact .inl rfl
    | .error _, _ => cases note <;> exact .inl rfl
  | putHandle h site =>
    match r, hw with
    | .error _, _ => cases site <;> first | exact .inl rfl | exact .inr (.inl rfl)
  | submit rlp opts site =>
    cases site with
    | send origin wal =>
      by_cases hr : maybeOut r
      · exact .inr (.inr ⟨rlp, opts, origin, wal, r, rfl, if_pos hr⟩)
      · exact .inl (if_neg hr)
    | _ => exact .inl rfl
  | _ => exact .inl rfl

/-- An event that changes nothing in the store leaves a send its nonce and record, or ends it. -/
theorem phase_quiet (hq : swapped e = none) (hw : wrote e = none)
    (hsend : ∀ rlp opts origin wal r, e = ev (.submit rlp opts (.send origin wal)) r →
      phase past = .logged wal) :
    phase (past ++ [e]) = .idle ∨
      holding (past ++ [e]) = holding past ∧ (phase (past ++ [e])).wal = (phase past).wal := by
  have hphase : phase (past ++ [e]) = phaseStep (phase past) e := phase_snoc rfl rfl
  rw [holding, holding, hphase]
  rcases phaseStep_cases (s := phase past) hq hw with hs | hs | ⟨rlp, opts, origin, wal, r, he, hs⟩
  · exact .inr ⟨by rw [hs], by rw [hs]⟩
  · exact .inl hs
  · rw [hs, hsend rlp opts origin wal r he]
    exact .inr ⟨rfl, rfl⟩

theorem Exclusive.call (h : Exclusive K w past) : Exclusive K w [] where
  free := h.free
  stored := h.stored
  seen := by simp
  held := by simp [holding, Phase.held]
  own := by simp [holding, Phase.held]
  apart := by simp

theorem exclusive_initial : Exclusive K .initial [] where
  free := World.freeBelow_initial
  stored := by simp [World.initial, Store.empty, Store.handle]
  seen := by simp
  held := by simp [holding, Phase.held]
  own := by simp [holding, Phase.held]
  apart := by simp

/-- An event that changes nothing in the store: a read, a broadcast, a failed call. -/
theorem Exclusive.quiet (h : Exclusive K w past) (hq : swapped e = none) (hw : wrote e = none)
    (hcan : w.can e) (hread : ∀ g, Reads g e → (phase past).resting)
    (hsend : ∀ rlp opts origin wal r, e = ev (.submit rlp opts (.send origin wal)) r →
      phase past = .logged wal) : Exclusive K (w.apply e) (past ++ [e]) := by
  have hstore : ∀ id, (w.apply e).store.handle id = w.store.handle id := fun id => by
    rw [World.handle_apply, hw]
  -- the send goes on with the same nonce and record, or is over
  have same : ∀ {a n}, holding (past ++ [e]) = some (a, n) →
      holding past = some (a, n) ∧ (phase (past ++ [e])).wal = (phase past).wal := by
    intro a n hold
    rcases phase_quiet hq hw hsend with hidle | ⟨hhold, hwal⟩
    · rw [holding, hidle] at hold
      cases hold
    · exact ⟨hhold ▸ hold, hwal⟩
  refine ⟨World.freeBelow_quiet hq h.free, fun g hg hk => ?_, fun g hk hg => ?_, fun a n hold => ?_,
    fun a n hold g hg hk ha hn => ?_, fun a n hold g hk hg => ?_⟩
  · rw [World.taken_quiet hq]
    exact h.stored g (by rwa [hstore] at hg) hk
  · rw [World.taken_quiet hq]
    rcases reads_snoc.mp hg with hg | hg
    · exact h.seen g hk hg
    · exact h.stored g (stored_of_reads hg hcan) hk
  · rw [World.taken_quiet hq]
    exact h.held a n (same hold).1
  · rw [(same hold).2]
    exact h.own a n (same hold).1 g (by rwa [hstore] at hg) hk ha hn
  · rcases reads_snoc.mp hg with hg | hg
    · exact h.apart a n (same hold).1 g hk hg
    · rintro ⟨ha, hn⟩
      -- nothing is read while a record waits for its outcome
      obtain ⟨wal, hwal, -⟩ := h.own a n (same hold).1 g (stored_of_reads hg hcan) hk ha hn
      have hrest := hread g hg
      cases hp : phase past <;> simp [hp, Phase.wal, Phase.resting] at hwal hrest

/-- What a written handle is to the send in progress. -/
inductive PutCase (K : Kind) (past : List PortEvent) (h' : TxHandle) : PutSite → Prop where
  | wal {origin : Origin} : phase past = .reserved h'.account h'.nonce →
      PutCase K past h' (.wal origin)
  | sent {wal : TxHandle} : phase past = .out wal → h' = { wal with status := .sent } →
      PutCase K past h' (.sent wal)
  | rejected {wal : TxHandle} : phase past = .logged wal → h'.id = wal.id → ¬h'.Is K →
      PutCase K past h' (.rejected wal)
  | other {site : PutSite} : (∀ s r, phaseStep s (ev (.putHandle h' site) r) = s) →
      (h'.Is K → ∃ g, g.Is K ∧ (∃ e ∈ past, Reads g e) ∧ h'.account = g.account ∧
        h'.nonce = g.nonce) → PutCase K past h' site

theorem putCase_of_owes [Alloy] {role : Role} {h' : TxHandle} {site : PutSite}
    (howes : PutOwes role past h' site)
    (hcancel : ∀ marked, site = .cancelNew marked → h'.Is K → marked.Is K)
    (htask : site = .task → ¬h'.Is K)
    (hpending : ∀ a g, SeenPending past a g → g.status.isTerminal = false) :
    PutCase K past h' site := by
  -- a version of a record that was read alive
  have version : ∀ {g}, (∀ s r, phaseStep s (ev (.putHandle h' site) r) = s) →
      g.status.isTerminal = false → (∃ e ∈ past, Reads g e) → h'.account = g.account →
      h'.nonce = g.nonce → (h'.Is K → g.Is K) → PutCase K past h' site :=
    fun hquiet hlive hread ha hn hk => .other hquiet fun hk' => ⟨_, hk hk', hread, ha, hn⟩
  have pending : ∀ {g a}, site.basis = some g → SeenPending past a g →
      (∀ s r, phaseStep s (ev (.putHandle h' site) r) = s) → PutCase K past h' site := by
    rintro g a hb hs hquiet
    have hlive := hpending a g hs
    obtain ⟨hs, hread, hmem⟩ := hs
    have hsame := howes.sameRecord hb
    refine version hquiet hlive ⟨_, hread, hs, rfl, hmem⟩ hsame.account hsame.nonce fun hk => ?_
    exact K.live hlive (by rw [TxHandle.Is, howes.task hb] at hk; exact hk)
  cases site with
  | wal => obtain ⟨m, -, -, hp⟩ := howes; exact .wal hp
  | sent wal => obtain ⟨he, -, hp⟩ := howes; exact .sent hp he
  | rejected wal =>
    obtain ⟨e, rfl, -, -, -, hp⟩ := howes
    exact .rejected hp rfl (K.rejected e _)
  | cancelMark target =>
    obtain ⟨id, rfl, hlive, hread⟩ := howes
    exact version (fun _ _ => rfl) hlive ⟨_, hread, rfl⟩ rfl rfl fun hk => hk
  | cancelUndo marked =>
    obtain ⟨m, approval, -, rfl, target, rfl, hlive, ⟨id, hread⟩, -⟩ := howes
    exact version (g := target) (fun _ _ => rfl) hlive ⟨_, hread, rfl⟩ rfl rfl fun hk => hk
  | cancelNew marked =>
    obtain ⟨m, approval, now, signed, -, rfl, -, ⟨target, rfl, hlive, ⟨id, hread⟩, -⟩, -⟩ := howes
    exact version (g := target) (fun _ _ => rfl) hlive ⟨_, hread, rfl⟩ rfl rfl fun hk =>
      hcancel { target with cancelled := true } rfl hk
  | task => exact .other (fun _ _ => rfl) fun hk => absurd hk (htask rfl)
  | advance g =>
    obtain ⟨e, -, before, scan, cycle, event, next, rfl, -, hp, -⟩ := id howes
    obtain ⟨l, hread, hmem⟩ := hp.seen
    exact pending (a := e.account) rfl ⟨l, List.mem_append_left _ hread, hmem⟩ fun _ _ => rfl
  | poll g =>
    obtain ⟨e, -, hp, -⟩ := id howes
    exact pending rfl hp.seen fun _ _ => rfl
  | bump g =>
    obtain ⟨e, approval, now, rlp, -, -, hsigned, -⟩ := id howes
    exact pending rfl hsigned.1 fun _ _ => rfl

/-- A handle is written. -/
theorem Exclusive.put (h : Exclusive K w past) {h' : TxHandle} {site : PutSite}
    (hput : PutCase K past h' site) :
    Exclusive K (w.apply (ev (.putHandle h' site) (.ok ())))
      (past ++ [ev (.putHandle h' site) (.ok ())]) := by
  have hseen : ∀ {g}, (∃ x ∈ past ++ [ev (.putHandle h' site) (.ok ())], Reads g x) →
      ∃ x ∈ past, Reads g x := fun hg => (reads_snoc.mp hg).resolve_right fun hr => hr
  have hphase : phase (past ++ [ev (.putHandle h' site) (.ok ())]) =
      phaseStep (phase past) (ev (.putHandle h' site) (.ok ())) := phase_snoc rfl rfl
  have taken : ∀ {a n}, w.Taken a n → (w.apply (ev (.putHandle h' site) (.ok ()))).Taken a n :=
    fun ht => (World.taken_quiet rfl _ _).mpr ht
  -- the send in progress has the same nonce as before, or is over
  have hold : ∀ {a n}, holding (past ++ [ev (.putHandle h' site) (.ok ())]) = some (a, n) →
      holding past = some (a, n) := by
    intro a n ha
    rw [holding, hphase] at ha
    rw [holding]
    cases hput with
    | wal hp => rw [hp]; exact ha
    | sent hp he => cases ha
    | rejected hp hid hk => rw [hp]; exact ha
    | other hquiet => rwa [hquiet] at ha
  have hnew : h'.Is K → w.Taken h'.account h'.nonce := by
    intro hk
    cases hput with
    | wal hp => exact h.held _ _ (by rw [holding, hp]; rfl)
    | sent hp he => exact h.held _ _ (by rw [holding, hp, he]; rfl)
    | rejected _ _ hk' => exact absurd hk hk'
    | other _ hg =>
      obtain ⟨g, hg, hread, ha, hn⟩ := hg hk
      rw [ha, hn]
      exact h.seen g hg hread
  refine ⟨World.freeBelow_quiet rfl h.free, fun g hg hk => taken ?_,
    fun g hk hg => taken (h.seen g hk (hseen hg)), fun a n ha => taken (h.held a n (hold ha)),
    fun a n ha g hg hk hga hgn => ?_, fun a n ha g hk hg => h.apart a n (hold ha) g hk (hseen hg)⟩
  · rcases World.stored_put hg with rfl | ⟨-, hg⟩
    · exact hnew hk
    · exact h.stored g hg hk
  · rw [hphase]
    rcases World.stored_put hg with rfl | ⟨hne, hg⟩
    · cases hput with
      | wal hp => exact ⟨g, rfl, rfl⟩
      | sent hp he =>
        rw [holding, hphase] at ha
        cases ha
      | rejected _ _ hk' => exact absurd hk hk'
      | other hquiet hs =>
        obtain ⟨g', hk', hread, hsa, hsn⟩ := hs hk
        exact absurd ⟨hsa.symm.trans hga, hsn.symm.trans hgn⟩ (h.apart a n (hold ha) g' hk' hread)
    · obtain ⟨wal, hwal, hid⟩ := h.own a n (hold ha) g hg hk hga hgn
      cases hput with
      | wal hp => rw [hp] at hwal; cases hwal
      | sent hp he =>
        rw [holding, hphase] at ha
        cases ha
      | rejected hp hid' _ =>
        rw [hp] at hwal
        cases hwal
        exact absurd (hid.trans hid'.symm) hne
      | other hquiet => rw [hquiet]; exact ⟨wal, hwal, hid⟩

/-- A nonce state is swapped. -/
theorem Exclusive.swap (h : Exclusive K w past) {scope : NonceScope} {n : Nat} {value : NonceState}
    {f : FenceToken} {note : CasNote}
    (hf : (w.apply (ev (.casNonceState scope n value f note) (.ok true))).FreeBelow)
    (heff : w.SwapEffect (w.apply (ev (.casNonceState scope n value f note) (.ok true)))
      scope.account note)
    (hrel : ∀ m, note = .release m → holding past = some (scope.account, m) ∧
      (phase past).resting) :
    Exclusive K (w.apply (ev (.casNonceState scope n value f note) (.ok true)))
      (past ++ [ev (.casNonceState scope n value f note) (.ok true)]) := by
  have hseen : ∀ {g}, (∃ x ∈ past ++ [ev (.casNonceState scope n value f note) (.ok true)],
      Reads g x) → ∃ x ∈ past, Reads g x := fun hg => (reads_snoc.mp hg).resolve_right fun hr => hr
  have hphase : phase (past ++ [ev (.casNonceState scope n value f note) (.ok true)]) =
      phaseStep (phase past) (ev (.casNonceState scope n value f note) (.ok true)) :=
    phase_snoc rfl rfl
  have hstore : ∀ g, (w.apply (ev (.casNonceState scope n value f note)
      (.ok true))).store.handle g.id = some g → w.store.handle g.id = some g := fun g hg => by
    rwa [World.handle_apply] at hg
  generalize w.apply (ev (.casNonceState scope n value f note) (.ok true)) = w' at *
  cases note with
  | allocate m first =>
    obtain ⟨hfresh, htaken, hkeep, -⟩ := heff
    have held : ∀ {a x}, holding (past ++ [ev (.casNonceState scope n value f (.allocate m first))
        (.ok true)]) = some (a, x) → a = scope.account ∧ x = m := by
      intro a x ha
      rw [holding, hphase] at ha
      cases ha
      exact ⟨rfl, rfl⟩
    refine ⟨hf, fun g hg hk => hkeep _ _ (h.stored g (hstore g hg) hk),
      fun g hk hg => hkeep _ _ (h.seen g hk (hseen hg)), fun a x ha => ?_,
      fun a x ha g hg hk hga hgn => ?_, fun a x ha g hk hg hgx => ?_⟩
    · obtain ⟨rfl, rfl⟩ := held ha
      exact htaken
    · obtain ⟨rfl, rfl⟩ := held ha
      exact absurd (hga ▸ hgn ▸ h.stored g (hstore g hg) hk) hfresh
    · obtain ⟨rfl, rfl⟩ := held ha
      exact hfresh (hgx.1 ▸ hgx.2 ▸ h.seen g hk (hseen hg))
  | release m =>
    obtain ⟨hold, hrest⟩ := hrel m rfl
    have done : ∀ {a x}, holding (past ++ [ev (.casNonceState scope n value f (.release m))
        (.ok true)]) ≠ some (a, x) := by
      intro a x ha
      rw [holding, hphase] at ha
      cases ha
    refine ⟨hf, fun g hg hk => (heff _ _).mpr ⟨h.stored g (hstore g hg) hk, fun hgx => ?_⟩,
      fun g hk hg => (heff _ _).mpr ⟨h.seen g hk (hseen hg), fun hgx => ?_⟩,
      fun a x ha => absurd ha done, fun a x ha => absurd ha done, fun a x ha => absurd ha done⟩
    · -- a record on this nonce would be the send's own, still waiting
      obtain ⟨wal, hwal, -⟩ := h.own _ _ hold g (hstore g hg) hk hgx.1 hgx.2
      cases hp : phase past <;> simp [hp, Phase.wal, Phase.resting] at hwal hrest
    · exact h.apart _ _ hold g hk (hseen hg) hgx
  | reset c =>
    obtain ⟨hkeep, -⟩ := heff
    have hsame : phase (past ++ [ev (.casNonceState scope n value f (.reset c)) (.ok true)]) =
        phase past := hphase
    have hold : ∀ {a x}, holding (past ++ [ev (.casNonceState scope n value f (.reset c))
        (.ok true)]) = some (a, x) → holding past = some (a, x) := fun ha => by
      rwa [holding, hsame] at ha
    refine ⟨hf, fun g hg hk => hkeep _ _ (h.stored g (hstore g hg) hk),
      fun g hk hg => hkeep _ _ (h.seen g hk (hseen hg)),
      fun a x ha => hkeep _ _ (h.held a x (hold ha)), fun a x ha g hg hk hga hgn => ?_,
      fun a x ha g hk hg => h.apart a x (hold ha) g hk (hseen hg)⟩
    rw [hsame]
    exact h.own a x (hold ha) g (hstore g hg) hk hga hgn

/-- Where every record of a rejection was written, a send at rest has none waiting. -/
theorem Rested.resting (hr : Rested past) (hw : ∀ e ∈ past, rejectWritten e) :
    (phase past).resting := by
  refine hr.resolve_right ?_
  rintro ⟨h, wal, e, he⟩
  exact absurd (hw _ he) (by simp [rejectWritten, ev, Except.isOk, Except.toBool])

end Steps

section Law

variable [Alloy] {W C α : Type} {cl : Client C α} {S : System ports W C α} {view : W → World}
  {p₀ p : Pool ports W C α} {K : Kind}

/-- Every record of a rejection that a call has come to was written. -/
theorem Client.Runs.reject_written (hS : cl.Runs S view) (h₀ : Backed.Fresh view p₀)
    (hwritten : ∀ {p i x o r}, S.allow p i x o r → rejectWritten ⟨o, r⟩) (h : S.Reaches p₀ p)
    {th : Thread ports C α} (hth : th ∈ p.threads) : ∀ e ∈ th.past, rejectWritten e := by
  intro e he
  obtain ⟨l, l', hl⟩ := List.append_of_mem (hS.mem_log h₀ h hth he)
  exact hS.log_answered (K := fun _ e => rejectWritten e) h₀ hwritten h l e l' hl

/-- A send that is about to broadcast has just logged its record. -/
theorem SubmitOwes.logged {role : Role} {past : List PortEvent} {rlp : Bytes}
    {opts : SubmissionOpts} {origin : Origin} {wal : TxHandle}
    (h : SubmitOwes role past rlp opts (.send origin wal)) : phase past = .logged wal := by
  obtain ⟨m, -, -, -, -, hput⟩ := h
  obtain ⟨before, rfl⟩ := List.getLast?_eq_some_iff.mp hput
  exact phase_snoc rfl rfl

/-- Each move of calls one at a time, with the records of rejections written, keeps the
records of a kind on taken nonces. -/
theorem Client.Runs.exclusive_move (hS : cl.Runs S view) (h₀ : Backed.Fresh view p₀)
    (hwritten : ∀ {p i x o r}, S.allow p i x o r → rejectWritten ⟨o, r⟩) (h : S.Reaches p₀ p)
    {th : Thread ports C α} (hth : th ∈ p.threads) {i : Nat} {x : S.Choice} {o : Op} {r : o.Reply}
    {k : o.Reply → Io α} (hprog : th.prog = .call o k) (ha : S.allow p i x o r)
    (hput : ∀ h' site, (⟨o, r⟩ : PortEvent) = ev (.putHandle h' site) (.ok ()) →
      PutCase K th.past h' site) (hs : Exclusive K (view p.world) th.past) :
    Exclusive K ((view p.world).apply ⟨o, r⟩) (th.past ++ [⟨o, r⟩]) := by
  obtain ⟨role, hrole, howes⟩ := hS.owes h₀ h hth hprog
  have hpast := hS.reject_written h₀ hwritten h hth
  have hcan := hS.can ha
  cases hq : swapped ⟨o, r⟩ with
  | some note =>
    obtain ⟨scope, n, value, f, he⟩ := swapped_eq_some hq
    cases he
    obtain ⟨hfrom, hnote⟩ := howes
    have hrel : ∀ m, note = .release m → holding th.past = some (scope.account, m) ∧
        (phase th.past).resting := by
      rintro m rfl
      exact ⟨hnote.1, hnote.2.resting hpast⟩
    obtain ⟨hf, heff⟩ := hS.swap_effect h₀ h hth hfrom hcan hs.free
      fun m hm => hs.held _ _ (hrel m hm).1
    exact hs.swap hf heff hrel
  | none =>
    cases hw : wrote ⟨o, r⟩ with
    | some h' =>
      obtain ⟨site, he⟩ := wrote_eq_some hw
      have hcase := hput h' site he
      cases he
      exact hs.put hcase
    | none =>
      refine hs.quiet hq hw hcan (fun g hg => ?_) fun rlp opts origin wal r' he => ?_
      · cases o with
        | pendingHandles | handle => exact Rested.resting howes hpast
        | _ => cases hg
      · cases he
        exact SubmitOwes.logged howes

end Law

end WalletKit
