import WalletKit.Runtime.Orderly

/-!
# One transaction and one cancel at a nonce

The handle of a cancel has the same id as that of any other cancel at its nonce. When calls are
made one at a time, no new record replaces that of a transaction that matters and is no cancel.
When a cancel also only finds targets that no cancel has dealt with, there is one transaction at
each nonce besides its cancel, and no new record replaces one that matters.
-/
namespace WalletKit

open Machine

/-- A cancel of this handle has the handle's own intent. -/
def TxHandle.cancelShaped (h : TxHandle) : Bool :=
  h.intent = cancelIntent h.intent.chainId h.account

/-- A cancel finds a target that is not marked, and is no cancel itself. -/
def freshCancel : PortEvent → Bool
  | ⟨.putHandle _ (.cancelMark target), _⟩ => !target.cancelled && !target.cancelShaped
  | _ => true

/-- A cancel marks a target that it has found marked. -/
def remarks : PortEvent → Bool
  | ⟨.putHandle _ (.cancelMark target), _⟩ => target.cancelled
  | _ => false

/-- The target of a cancel is no cancel, and the mark of a target that was found marked is not
taken away. -/
def keepsMark (past : List PortEvent) : PortEvent → Bool
  | ⟨.putHandle _ (.cancelMark target), _⟩ => !target.cancelShaped
  | ⟨.putHandle _ (.cancelUndo _), r⟩ =>
    !((r : Except StateStoreError Unit).isOk && past.any remarks)
  | _ => true

section Steps

/-- On the same nonce of the same account. -/
def SameSpot (g g' : TxHandle) : Prop := g.account = g'.account ∧ g.nonce = g'.nonce

theorem SameSpot.symm {g g' : TxHandle} (h : SameSpot g g') : SameSpot g' g := ⟨h.1.symm, h.2.symm⟩

theorem SameSpot.trans {g g' g'' : TxHandle} (h : SameSpot g g') (h' : SameSpot g' g'') :
    SameSpot g g'' := ⟨h.1.trans h'.1, h.2.trans h'.2⟩

theorem SameRecord.spot {g g' : TxHandle} (h : SameRecord g g') : SameSpot g' g :=
  ⟨h.account, h.nonce⟩

theorem SameRecord.cancelShaped {g g' : TxHandle} (h : SameRecord g g') :
    g'.cancelShaped = g.cancelShaped := by
  rw [TxHandle.cancelShaped, TxHandle.cancelShaped, h.intent, h.account]

/-- At each nonce there is one transaction besides cancels, and as long as it is not marked
there are no cancels; nor are there when a call has read it so. -/
structure OneCancel (K : Kind) (w : World) (past : List PortEvent) : Prop where
  unique : ∀ {g g'}, w.store.handle g.id = some g → w.store.handle g'.id = some g' →
    g.Is K → g'.Is K → g.cancelShaped = false → g'.cancelShaped = false →
    SameSpot g g' → g.id = g'.id
  unmarked : ∀ {g c}, w.store.handle g.id = some g → w.store.handle c.id = some c →
    g.Is K → c.Is K → g.cancelled = false → g.cancelShaped = false → c.cancelShaped →
    ¬SameSpot g c
  read : ∀ {id g}, ev (.handle id) (.ok (some g)) ∈ past → g.Is K → g.cancelled = false →
    g.cancelShaped = false → (∀ h m, ev (.putHandle h (.cancelNew m)) (.ok ()) ∉ past) →
    ∀ {c}, w.store.handle c.id = some c → c.Is K → c.cancelShaped → ¬SameSpot g c

/-- How a written record stands to the stored ones and to those that were read. -/
inductive Placed (K : Kind) (w : World) (past : List PortEvent) (h' : TxHandle) :
    PutSite → Prop where
  | outside {site : PutSite} : ¬h'.Is K → Placed K w past h' site
  | alone {site : PutSite} : (∀ g, w.store.handle g.id = some g → g.Is K → ¬SameSpot g h') →
      (∀ g, g.Is K → (∃ e ∈ past, Reads g e) → ¬SameSpot g h') → Placed K w past h' site
  | version {site : PutSite} {g : TxHandle} : w.store.handle g.id = some g → g.Is K →
      SameRecord g h' → (h'.cancelled = false → g.cancelled = false ∨
        ∀ {c}, w.store.handle c.id = some c → c.Is K → c.cancelShaped → ¬SameSpot g c) →
      Placed K w past h' site
  | cancel {marked : TxHandle} : w.store.handle marked.id = some marked → marked.Is K →
      marked.cancelShaped = false → marked.cancelled → h'.cancelShaped → SameSpot marked h' →
      Placed K w past h' (.cancelNew marked)

variable {K : Kind} {w : World} {past : List PortEvent} {e : PortEvent}

theorem OneCancel.call (h : OneCancel K w past) : OneCancel K w [] where
  unique := h.unique
  unmarked := h.unmarked
  read hr := by cases hr

theorem oneCancel_initial : OneCancel K .initial [] where
  unique hg := by cases hg
  unmarked hg := by cases hg
  read hr := by cases hr

/-- An event that writes no handle. -/
theorem OneCancel.unwritten (h : OneCancel K w past) (hw : wrote e = none) (hcan : w.can e) :
    OneCancel K (w.apply e) (past ++ [e]) := by
  have hstore : ∀ id, (w.apply e).store.handle id = w.store.handle id := fun id => by
    rw [World.handle_apply, hw]
  refine ⟨fun hg hg' => ?_, fun hg hc => ?_, fun {id g} hr hk hm hs hnew {c} hc => ?_⟩
  · rw [hstore] at hg hg'
    exact h.unique hg hg'
  · rw [hstore] at hg hc
    exact h.unmarked hg hc
  · rw [hstore] at hc
    rcases List.mem_append.mp hr with hr | hr
    · exact h.read hr hk hm hs (fun x m hx => hnew x m (List.mem_append_left _ hx)) hc
    · have hread : Reads g e := by rw [← List.mem_singleton.mp hr]; rfl
      exact fun hkc => h.unmarked (stored_of_reads hread hcan) hc hk hkc hm hs

section Placed

variable {h' g : TxHandle} {site : PutSite}

/-- The written record is the only transaction at its nonce. -/
theorem Placed.unique (hput : Placed K w past h' site) (h : OneCancel K w past)
    (hg : w.store.handle g.id = some g) (hk : h'.Is K) (hkg : g.Is K)
    (hs : h'.cancelShaped = false) (hsg : g.cancelShaped = false) (hspot : SameSpot h' g) :
    h'.id = g.id := by
  cases hput with
  | outside hk' => exact absurd hk hk'
  | alone hno _ => exact absurd hspot.symm (hno g hg hkg)
  | version hstored hk₀ hsame _ =>
    rw [hsame.id]
    exact h.unique hstored hg hk₀ hkg (hsame.cancelShaped ▸ hs) hsg (hsame.spot.symm.trans hspot)
  | cancel _ _ _ _ hs' _ => simp [hs'] at hs

/-- A transaction that is written without a mark has no stored cancel. -/
theorem Placed.no_cancel (hput : Placed K w past h' site) (h : OneCancel K w past) {c : TxHandle}
    (hc : w.store.handle c.id = some c) (hk : h'.Is K) (hkc : c.Is K) (hm : h'.cancelled = false)
    (hs : h'.cancelShaped = false) (hsc : c.cancelShaped) : ¬SameSpot h' c := by
  intro hspot
  cases hput with
  | outside hk' => exact hk' hk
  | alone hno _ => exact hno c hc hkc hspot.symm
  | version hstored hk₀ hsame hmark =>
    rcases hmark hm with hm₀ | hno
    · exact h.unmarked hstored hc hk₀ hkc hm₀ (hsame.cancelShaped ▸ hs) hsc
        (hsame.spot.symm.trans hspot)
    · exact hno hc hkc hsc (hsame.spot.symm.trans hspot)
  | cancel _ _ _ _ hs' _ => simp [hs'] at hs

/-- A cancel that is written is of no stored transaction without a mark. -/
theorem Placed.cancels_marked (hput : Placed K w past h' site) (h : OneCancel K w past)
    (hg : w.store.handle g.id = some g) (hk : g.Is K) (hkc : h'.Is K) (hm : g.cancelled = false)
    (hs : g.cancelShaped = false) (hsc : h'.cancelShaped) : ¬SameSpot g h' := by
  intro hspot
  cases hput with
  | outside hk' => exact hk' hkc
  | alone hno _ => exact hno g hg hk hspot
  | version hstored hk₀ hsame _ =>
    exact h.unmarked hg hstored hk hk₀ hm hs (hsame.cancelShaped ▸ hsc) (hspot.trans hsame.spot)
  | cancel hstored hkm hsm hmarked _ hspot' =>
    -- the unmarked transaction here would be the marked target
    have hid := h.unique hg hstored hk hkm hs hsm (hspot.trans hspot'.symm)
    rw [hid, hstored] at hg
    cases hg
    simp [hmarked] at hm

/-- Nor of one that was read without a mark, unless the call is a cancel that has come to its
record. -/
theorem Placed.cancels_read (hput : Placed K w past h' site) (h : OneCancel K w past)
    {id : HandleId} (hr : ev (.handle id) (.ok (some g)) ∈ past) (hk : g.Is K)
    (hm : g.cancelled = false) (hs : g.cancelShaped = false) (hsite : ∀ m, site ≠ .cancelNew m)
    (hnew : ∀ x m, ev (.putHandle x (.cancelNew m)) (.ok ()) ∉ past) (hkc : h'.Is K)
    (hsc : h'.cancelShaped) : ¬SameSpot g h' := by
  cases hput with
  | outside hk' => exact absurd hkc hk'
  | alone _ hno => exact hno g hk ⟨ev (.handle id) (.ok (some g)), hr, rfl⟩
  | version hstored hk₀ hsame _ =>
    exact fun hspot => h.read hr hk hm hs hnew hstored hk₀ (hsame.cancelShaped ▸ hsc)
      (hspot.trans hsame.spot)
  | cancel => exact absurd rfl (hsite _)

/-- A handle is written. -/
theorem OneCancel.put (h : OneCancel K w past) (hput : Placed K w past h' site) :
    OneCancel K (w.apply (ev (.putHandle h' site) (.ok ())))
      (past ++ [ev (.putHandle h' site) (.ok ())]) := by
  refine ⟨fun {g g'} hg hg' hk hk' hs hs' hspot => ?_,
    fun {g c} hg hc hk hkc hm hs hsc hspot => ?_, fun {id g} hr hk hm hs hnew {c} hc hkc hsc => ?_⟩
  · replace hg := World.stored_put hg
    replace hg' := World.stored_put hg'
    rcases hg with rfl | ⟨-, hg⟩ <;> rcases hg' with rfl | ⟨-, hg'⟩
    · rfl
    · exact hput.unique h hg' hk hk' hs hs' hspot
    · exact (hput.unique h hg hk' hk hs' hs hspot.symm).symm
    · exact h.unique hg hg' hk hk' hs hs' hspot
  · replace hg := World.stored_put hg
    replace hc := World.stored_put hc
    rcases hg with rfl | ⟨-, hg⟩ <;> rcases hc with rfl | ⟨-, hc⟩
    · simp [hsc] at hs
    · exact hput.no_cancel h hc hk hkc hm hs hsc hspot
    · exact hput.cancels_marked h hg hk hkc hm hs hsc hspot
    · exact h.unmarked hg hc hk hkc hm hs hsc hspot
  · replace hr : ev (.handle id) (.ok (some g)) ∈ past := by
      rcases List.mem_append.mp hr with hr | hr
      · exact hr
      · cases List.mem_singleton.mp hr
    have hsite : ∀ m, site ≠ .cancelNew m := by
      rintro m rfl
      exact hnew h' m (by simp)
    have hpast : ∀ x m, ev (.putHandle x (.cancelNew m)) (.ok ()) ∉ past := fun x m hx =>
      hnew x m (List.mem_append_left _ hx)
    rcases World.stored_put hc with rfl | ⟨-, hc⟩
    · exact hput.cancels_read h hr hk hm hs hsite hpast hkc hsc
    · exact h.read hr hk hm hs hpast hc hkc hsc

end Placed

end Steps

section Law

variable [Alloy] {W C α : Type} {cl : Client C α} {S : System ports W C α} {view : W → World}
  {p₀ p : Pool ports W C α} {errand : C → Errand} {K : Kind} {th : Thread ports C α}

/-- No cancel of a run from `p₀` takes a mark away that it has found. -/
def KeepsMarks (S : System ports W C α) (p₀ : Pool ports W C α) : Prop :=
  ∀ {p i x o r}, S.Reaches p₀ p → S.allow p i x o r → keepsMark (p.pastOf i) ⟨o, r⟩

omit [Alloy] in
/-- Where cancels find unmarked targets only, there is no such mark. -/
theorem keepsMarks_of_fresh (h₀ : p₀.threads = [])
    (hfresh : ∀ {p i x o r}, S.allow p i x o r → freshCancel ⟨o, r⟩) : KeepsMarks S p₀ := by
  intro p i x o r hreach ha
  have hnow := hfresh ha
  have hpast : (p.pastOf i).any remarks = false := by
    refine List.any_eq_false.mpr fun e he => ?_
    cases hi : p.threads[i]? with
    | none => simp [Pool.pastOf, hi] at he
    | some th =>
      rw [Pool.pastOf_of_get hi] at he
      have hmark := hreach.answered (K := fun _ e => freshCancel e) (fun _ ha => hfresh ha) h₀ th
        (List.mem_of_getElem? hi) e he
      intro hre
      unfold remarks at hre
      split at hre
      · simp [freshCancel, hre] at hmark
      · cases hre
  cases o with
  | putHandle h' site =>
    cases site with
    | cancelMark target =>
      simp only [freshCancel, Bool.and_eq_true] at hnow
      exact hnow.2
    | cancelUndo => simp [keepsMark, hpast]
    | _ => rfl
  | _ => rfl

/-- When a cancel is under way, its target was read unmarked and is no cancel. -/
theorem Client.Orderly.cancelling_fresh (hS : cl.Orderly S view p₀ errand K)
    (hfresh : ∀ {p i x o r}, S.allow p i x o r → freshCancel ⟨o, r⟩) (h : S.Reaches p₀ p)
    (hth : th ∈ p.threads) {m : TransactionManager} {marked : TxHandle} {approval : PolicyApproval}
    (hc : Cancelling th.past m marked approval) :
    ∃ target id, marked = { target with cancelled := true } ∧
      ev (.handle id) (.ok (some target)) ∈ th.past ∧ target.status.isTerminal = false ∧
      target.cancelled = false ∧ target.cancelShaped = false := by
  obtain ⟨target, rfl, hlive, ⟨id, hread⟩, -, hstored⟩ := hc
  have hmark := h.answered (K := fun _ e => freshCancel e) (fun _ ha => hfresh ha) hS.fresh.1 th
    hth _ hstored
  simp only [ev, freshCancel, Bool.and_eq_true, Bool.not_eq_true'] at hmark
  exact ⟨target, id, rfl, hread, hlive, hmark.1, hmark.2⟩

/-- Where a record that is about to be written stands. -/
theorem Client.Orderly.placed (hS : cl.Orderly S view p₀ errand K)
    (hfresh : ∀ {p i x o r}, S.allow p i x o r → freshCancel ⟨o, r⟩) (h : S.Reaches p₀ p)
    (hlast : p.threads.getLast? = some th) {h' : TxHandle} {site : PutSite}
    {k : Except StateStoreError Unit → Io α} (hprog : th.prog = .call (.putHandle h' site) k)
    (hone : OneCancel K (view p.world) th.past) : Placed K (view p.world) th.past h' site := by
  have hth : th ∈ p.threads := List.mem_of_getLast? hlast
  obtain ⟨hex, hcur⟩ := hS.invariant h
  rw [Pool.current_of_last hlast] at hex hcur
  obtain ⟨role, hrole, howes⟩ := hS.runs.owes hS.fresh h hth hprog
  have hsole := hS.sole_owes h hth hprog
  by_cases hk : h'.Is K
  swap
  · exact .outside hk
  cases hb : site.basis with
  | some g =>
    have hg : (view p.world).store.handle g.id = some g := hcur.basis howes hsole hb
    have hkg : g.Is K := by
      rw [TxHandle.Is, ← howes.task hb]
      exact K.live (hS.runs.basis_live hS.fresh h hth howes hb) hk
    refine .version hg hkg (howes.sameRecord hb) fun hm => ?_
    cases id (howes.version hb) with
    | marked => cases hm
    | unmarked =>
      -- an undone mark: the target was read before, and this call has made no cancel
      obtain ⟨m, approval, -, -, hc⟩ := howes
      obtain ⟨target, id, rfl, hread, -, hm₀, hs⟩ := hS.cancelling_fresh hfresh h hth hc
      refine .inr fun {c} hc hkc hsc => hone.read hread hkg hm₀ hs (fun x m hx => ?_) hc hkc hsc
      obtain ⟨_, he⟩ := OnlyMarked.writes hsole hx
      cases he
    | _ => exact .inl hm
  | none =>
    cases site with
    | wal origin =>
      obtain ⟨m, -, -, hp⟩ := howes
      have hold : holding th.past = some (h'.account, h'.nonce) := by rw [holding, hp]; rfl
      refine .alone (fun g hg hkg hspot => ?_) fun g hkg hr hspot =>
        hex.apart _ _ hold g hkg hr ⟨hspot.1, hspot.2⟩
      obtain ⟨wal, hwal, -⟩ := hex.own _ _ hold g hg hkg hspot.1 hspot.2
      rw [hp] at hwal
      cases hwal
    | cancelNew marked =>
      obtain ⟨m, approval, now, signed, -, rfl, -, hc, -⟩ := howes
      obtain ⟨target, id, rfl, hread, -, -, hs⟩ := hS.cancelling_fresh hfresh h hth hc
      exact .cancel (hcur.marked hsole.1) (hS.cancels h hth hprog) hs rfl (decide_eq_true rfl)
        ⟨rfl, rfl⟩
    | task =>
      obtain ⟨t, ht⟩ := Option.isSome_iff_exists.mp hsole.1
      obtain ⟨rfl, -⟩ := howes
      rw [TxHandle.Is, ht] at hk
      exact absurd hk (hS.relayed _ hrole _ _)
    | _ => cases hb

theorem Client.Orderly.one_cancel (hS : cl.Orderly S view p₀ errand K)
    (hfresh : ∀ {p i x o r}, S.allow p i x o r → freshCancel ⟨o, r⟩) (h : S.Reaches p₀ p) :
    OneCancel K (view p.world) p.current := by
  refine h.sequentially (I := fun w => OneCancel K (view w)) hS.sequential hS.fresh.1
    (by rw [hS.fresh.2]; exact oneCancel_initial) (fun _ _ hs => hs.call)
    fun {p i th x o r k} hreach hlast hprog ha hone => ?_
  rw [hS.runs.next ha]
  cases hw : wrote ⟨o, r⟩ with
  | none => exact hone.unwritten hw (hS.runs.can ha)
  | some h' =>
    obtain ⟨site, he⟩ := wrote_eq_some hw
    cases he
    exact hone.put (hS.placed hfresh hreach hlast hprog hone)

/-- A cancel at the nonce of a transaction is a cancel of it. -/
theorem Client.Orderly.cancel_intent (hS : cl.Orderly S view p₀ errand K)
    (hfresh : ∀ {p i x o r}, S.allow p i x o r → freshCancel ⟨o, r⟩) (h : S.Reaches p₀ p)
    {g c : TxHandle} (hg : (view p.world).store.handle g.id = some g)
    (hc : (view p.world).store.handle c.id = some c) (hkg : g.Is K) (hkc : c.Is K)
    (hs : g.cancelShaped = false) (hsc : c.cancelShaped) (hspot : SameSpot g c) :
    c.intent = cancelIntent g.intent.chainId g.account := by
  let J (w : World) : Prop := ∀ {g c}, w.store.handle g.id = some g → w.store.handle c.id = some c →
    g.Is K → c.Is K → g.cancelShaped = false → c.cancelShaped → SameSpot g c →
    c.intent = cancelIntent g.intent.chainId g.account
  suffices hJ : J (view p.world) from hJ hg hc hkg hkc hs hsc hspot
  clear hg hc hkg hkc hs hsc hspot
  refine h.sequentially (I := fun w _ => J (view w)) hS.sequential hS.fresh.1
    (by rw [hS.fresh.2]; rintro g c ⟨⟩) (fun _ _ hJ => hJ)
    fun {p i th x o r k} hreach hlast hprog ha hJ => ?_
  rw [hS.runs.next ha]
  intro g c hg hc hkg hkc hs hsc hspot
  cases hw : wrote ⟨o, r⟩ with
  | none =>
    rw [World.handle_apply, hw] at hg hc
    exact hJ hg hc hkg hkc hs hsc hspot
  | some h' =>
    obtain ⟨site, he⟩ := wrote_eq_some hw
    cases he
    have hone := hS.one_cancel hfresh hreach
    rw [Pool.current_of_last hlast] at hone
    have hput := hS.placed hfresh hreach hlast hprog hone
    replace hg := World.stored_put hg
    replace hc := World.stored_put hc
    rcases hg with rfl | ⟨-, hg⟩ <;> rcases hc with rfl | ⟨-, hc⟩
    · simp [hsc] at hs
    · cases hput with
      | outside hk => exact absurd hkg hk
      | alone hno _ => exact absurd hspot.symm (hno c hc hkc)
      | version hstored hk hsame _ =>
        rw [hsame.intent, hsame.account]
        exact hJ hstored hc hk hkc (hsame.cancelShaped ▸ hs) hsc (hsame.spot.symm.trans hspot)
      | cancel _ _ _ _ hs' _ => simp [hs'] at hs
    · cases hput with
      | outside hk => exact absurd hkc hk
      | alone hno _ => exact absurd hspot (hno g hg hkg)
      | version hstored hk hsame _ =>
        rw [hsame.intent]
        exact hJ hg hstored hkg hk hs (hsame.cancelShaped ▸ hsc) (hspot.trans hsame.spot)
      | cancel hstored hkm hsm _ _ hspot' =>
        have hid := hone.unique hg hstored hkg hkm hs hsm (hspot.trans hspot'.symm)
        rw [hid, hstored] at hg
        cases hg
        obtain ⟨role, -, m, approval, now, signed, -, rfl, -⟩ :=
          hS.runs.owes hS.fresh hreach (List.mem_of_getLast? hlast) hprog
        rfl
    · exact hJ hg hc hkg hkc hs hsc hspot

/-- What a cancel's own record replaces is a cancel at the nonce of its target. -/
theorem Client.Orderly.cancel_replaces (hS : cl.Orderly S view p₀ errand K) (h : S.Reaches p₀ p)
    (hth : th ∈ p.threads) {i : Nat} {x : S.Choice} {h' g marked : TxHandle}
    {k : Except StateStoreError Unit → Io α}
    (hprog : th.prog = .call (.putHandle h' (.cancelNew marked)) k)
    (ha : S.allow p i x (.putHandle h' (.cancelNew marked)) (.ok ()))
    (hg : (view p.world).store.handle h'.id = some g) :
    g.cancelShaped ∧ SameSpot marked g := by
  have hstored : (view p.world).store.handle g.id = some g := (Table.key_of_get hg).symm ▸ hg
  obtain ⟨hintent, hnonce⟩ := same_of_distinctIds (hS.distinct ha) rfl hg
  obtain ⟨role, -, m, approval, now, signed, -, rfl, -⟩ := hS.runs.owes hS.fresh h hth hprog
  have hcoherent := (hS.runs.coherent hS.fresh h).1 g hstored
  have haccount : g.account = marked.account := by rw [hcoherent.account, hintent]; rfl
  refine ⟨?_, haccount.symm, hnonce.symm⟩
  rw [TxHandle.cancelShaped, decide_eq_true_eq, haccount, hintent]
  rfl

/-- The record of a new send or cancel replaces no transaction of the kind that is no cancel. -/
theorem Client.Orderly.put_new_transaction (hS : cl.Orderly S view p₀ errand K)
    (h : S.Reaches p₀ p) (hlast : p.threads.getLast? = some th) {i : Nat} {x : S.Choice}
    {h' g : TxHandle} {site : PutSite} {k : Except StateStoreError Unit → Io α}
    (hprog : th.prog = .call (.putHandle h' site) k)
    (ha : S.allow p i x (.putHandle h' site) (.ok ())) (hb : site.basis = none)
    (hsite : site ≠ .task) (hg : (view p.world).store.handle h'.id = some g)
    (hs : g.cancelShaped = false) : ¬g.Is K := by
  cases site with
  | wal origin => exact ((hS.put_current h hlast hprog ha).2 origin rfl g hg).1
  | cancelNew marked =>
    have hshaped := (hS.cancel_replaces h (List.mem_of_getLast? hlast) hprog ha hg).1
    simp [hs] at hshaped
  | task => exact absurd rfl hsite
  | _ => cases hb

/-- The record of a new send or cancel replaces none of the kind. -/
theorem Client.Orderly.put_new (hS : cl.Orderly S view p₀ errand K)
    (hfresh : ∀ {p i x o r}, S.allow p i x o r → freshCancel ⟨o, r⟩) (h : S.Reaches p₀ p)
    (hlast : p.threads.getLast? = some th) {i : Nat} {x : S.Choice} {h' g : TxHandle}
    {site : PutSite} {k : Except StateStoreError Unit → Io α}
    (hprog : th.prog = .call (.putHandle h' site) k)
    (ha : S.allow p i x (.putHandle h' site) (.ok ())) (hb : site.basis = none)
    (hsite : site ≠ .task) (hg : (view p.world).store.handle h'.id = some g) : ¬g.Is K := by
  cases hs : g.cancelShaped with
  | false => exact hS.put_new_transaction h hlast hprog ha hb hsite hg hs
  | true =>
    intro hk
    have hth : th ∈ p.threads := List.mem_of_getLast? hlast
    cases site with
    | wal origin => exact ((hS.put_current h hlast hprog ha).2 origin rfl g hg).1 hk
    | cancelNew marked =>
      -- a cancel at this nonce, when the target was read unmarked
      have hone := hS.one_cancel hfresh h
      rw [Pool.current_of_last hlast] at hone
      obtain ⟨-, hspot⟩ := hS.cancel_replaces h hth hprog ha hg
      have hkt : marked.Is K := hS.cancels h hth hprog
      obtain ⟨role, -, m, approval, now, signed, -, rfl, -, hc, -⟩ :=
        hS.runs.owes hS.fresh h hth hprog
      obtain ⟨target, id, rfl, hread, hlive, hm, hs'⟩ := hS.cancelling_fresh hfresh h hth hc
      refine hone.read hread hkt hm hs' (fun x m hx => ?_) ((Table.key_of_get hg).symm ▸ hg) hk hs
        hspot
      obtain ⟨_, he⟩ := OnlyMarked.writes (hS.sole_owes h hth hprog).1 hx
      cases he
    | task => exact hsite rfl
    | _ => cases hb

end Law

end WalletKit
