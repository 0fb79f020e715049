import WalletKit.Safety.Cancelled

/-!
# What a tick puts back on the wire

`recover` broadcasts every listed handle that is pending or sent, and `escalate` bumps those that
were sent long ago. Neither looks at the mark of a cancelled handle: as long as the chain has not
moved it on, a cancelled transaction is rebroadcast and even bumped against its own cancel. What is
put back is in the listing that the call has made last, so a listing in which no cancelled handle
is still in flight is followed by none of its bodies.
-/
namespace WalletKit

open Machine

/-- Pending or sent, which is all that `recover` and `escalate` ask. -/
def TxHandle.inFlight (h : TxHandle) : Bool := h.status = .pending || h.status = .sent

section Listings

/-- The handle that this puts back on the wire, as it is or with other fees. -/
def rebroadcasts : Op → Option TxHandle
  | .submit _ _ (.recover h) | .submit _ _ (.bump h) => some h
  | _ => none

def isListing : Op → Bool
  | .pendingHandles _ => true
  | _ => false

/-- A call with this past lists handles to put them back: it is at the start of `recover`, or at
that of `escalate`, which reads the clock first. -/
def putsBackNext (past : List PortEvent) : Bool :=
  past.getLast?.all fun e => match e.op with
    | .nowUnix => true
    | _ => false

/-- The last listing of the pending handles was made to put them back, and has this one in
flight. -/
def Waiting (past : List PortEvent) (h : TxHandle) : Prop :=
  h.inFlight ∧ ∃ before a hs after, past = before ++ ev (.pendingHandles a) (.ok hs) :: after ∧
    putsBackNext before ∧ h ∈ hs ∧ ∀ x ∈ after, isListing x.op = false

/-- Only what the last listing has is put back. -/
def WaitOwes (past : List PortEvent) (o : Op) : Prop :=
  ∀ h, rebroadcasts o = some h → Waiting past h

/-- The operations of a loop over a listing. -/
def LoopOf (hs : List TxHandle) : Op → Prop
  | .pendingHandles _ => False
  | .submit _ _ (.recover h) | .submit _ _ (.bump h) => h ∈ hs ∧ h.inFlight
  | _ => True

/-- Nothing is put back on the wire. -/
def PutsNothingBack : Op → Prop
  | .submit _ _ (.recover _) | .submit _ _ (.bump _) => False
  | _ => True

variable {past : List PortEvent} {hs : List TxHandle} {α : Type} {x : Io α}

theorem PutsNothingBack.waits {o : Op} (h : PutsNothingBack o) (past : List PortEvent) :
    WaitOwes past o := by
  intro g hg
  cases o with
  | submit rlp opts site =>
    cases site with
    | recover | bump => cases h
    | _ => cases hg
  | _ => cases hg

theorem quiet_waits (hx : x.Ops PutsNothingBack) :
    x.wp (.history WaitOwes) (fun _ _ => True) past :=
  Prog.wp_of_ops (P := fun _ => True) hx (fun _ past ho _ => ho.waits past) (fun _ _ => trivial)
    (fun _ _ _ _ _ _ _ => trivial) trivial

theorem loop_waits (hx : x.Ops (LoopOf hs)) (a : Address) (hback : putsBackNext past) :
    x.wp (.history WaitOwes) (fun _ _ => True) (past ++ [ev (.pendingHandles a) (.ok hs)]) := by
  refine Prog.wp_mono (Prog.wp_of_ops (P := fun past' => ∃ after,
    past' = past ++ ev (.pendingHandles a) (.ok hs) :: after ∧ ∀ x ∈ after, isListing x.op = false)
    hx ?_ (fun _ _ => trivial) ?_ ⟨[], rfl, by simp⟩) fun _ _ _ => trivial
  · rintro o _ ho ⟨after, rfl, hafter⟩ h hh
    cases o with
    | submit rlp opts site =>
      cases site with
      | recover | bump =>
        cases hh
        exact ⟨ho.2, past, a, hs, after, rfl, hback, ho.1, hafter⟩
      | _ => cases hh
    | _ => cases hh
  · rintro o _ r _ ho ⟨after, rfl, hafter⟩ rfl
    refine ⟨after ++ [⟨o, r⟩], by simp, fun x hx => ?_⟩
    rcases List.mem_append.mp hx with hx | hx
    · exact hafter x hx
    · rw [List.mem_singleton.mp hx]
      cases o with
      | pendingHandles => cases ho
      | _ => rfl

/-- When there was a listing since, the handle is in a listing made since. -/
theorem Waiting.since {old new : List PortEvent} {h : TxHandle} (hw : Waiting (old ++ new) h)
    (hnew : new.any (isListing ·.op)) :
    h.inFlight ∧ ∃ before a hs after, new = before ++ ev (.pendingHandles a) (.ok hs) :: after ∧
      putsBackNext (old ++ before) ∧ h ∈ hs := by
  obtain ⟨hflight, before, a, hs, after, hpast, hback, hmem, hafter⟩ := hw
  refine ⟨hflight, ?_⟩
  rcases List.append_eq_append_iff.mp hpast with ⟨t, rfl, rfl⟩ | ⟨t, rfl, ht⟩
  · exact ⟨t, a, hs, after, rfl, hback, hmem⟩
  · obtain ⟨e, he, hlist⟩ := List.any_eq_true.mp hnew
    cases t with
    | nil =>
      rw [List.nil_append] at ht
      exact ⟨[], a, hs, after, ht.symm, by simpa using hback, hmem⟩
    | cons x t =>
      obtain ⟨-, rfl⟩ := List.cons.inj ht
      simp [hafter e (List.mem_append_right _ he)] at hlist

end Listings

section Programs

variable [Alloy] {e : AccountExecutor} {past : List PortEvent} {hs : List TxHandle}

namespace AccountExecutor

omit [Alloy] in
theorem recover_waits : e.recover.run.wp (.history WaitOwes) (fun _ _ => True) [] := by
  unfold recover
  simp only [Prog.wp_run_bind, Prog.wp_run_lift, Prog.wp_run_orThrow, StateStore.wp_pendingHandles,
    asks_history, Prog.forall_except, Except.mapError]
  refine ⟨by rintro _ ⟨⟩, fun _ => trivial, fun hs => ?_⟩
  refine @loop_waits [] _ _ _ (.forM _ fun handle hmem => (recoverHandle_ops handle).mono ?_) _ rfl
  rintro _ ⟨hstatus, rlp, opts, rfl⟩
  exact ⟨hmem, by rcases hstatus with hs | hs <;> simp [TxHandle.inFlight, hs]⟩

theorem BumpOp.loopOf {handle : TxHandle} (hmem : handle ∈ hs) (hsent : handle.status = .sent)
    {o : Op} (ho : BumpOp handle o) : LoopOf hs o := by
  cases o with
  | submit rlp opts site =>
    cases site with
    | bump h =>
      obtain rfl : h = handle := ho
      exact ⟨hmem, by simp [TxHandle.inFlight, hsent]⟩
    | _ => cases ho
  | pendingHandles => cases ho
  | _ => trivial

theorem escalate_waits : e.escalate.run.wp (.history WaitOwes) (fun _ _ => True) past := by
  unfold escalate
  simp only [Prog.wp_run_bind, Prog.wp_run_lift, Prog.wp_run_orThrow, Clock.wp_nowUnix,
    StateStore.wp_pendingHandles, asks_history, Prog.forall_except, Except.mapError]
  exact ⟨by rintro _ ⟨⟩, fun now => ⟨by rintro _ ⟨⟩, fun _ => trivial, fun hs =>
    loop_waits (escalateLoop_ops now hs fun _ hmem hsent _ => BumpOp.loopOf hmem hsent) _
      (by simp [putsBackNext, ev])⟩⟩

theorem confirm_quiet : e.confirm.run.Ops PutsNothingBack := by
  refine confirm_of_parts (Prog.ops_compositional PutsNothingBack) (fun hx => hx.mono ?_)
    fun m _ intent opts context origin => (sendWithMeta_advanceOp m _ _ _ _).mono fun o ho => ?_
  · rintro o (ho | ho | ⟨a, rfl⟩ | ho)
    · cases o with
      | submit => cases ho
      | _ => trivial
    · cases o with
      | submit => cases ho
      | _ => trivial
    · trivial
    · cases o with
      | submit => cases ho
      | _ => trivial
  · cases o with
    | submit rlp opts site =>
      cases site with
      | recover | bump => cases ho
      | _ => trivial
    | _ => trivial

theorem tick_waits : e.tick.run.wp (.history WaitOwes) (fun _ _ => True) [] := by
  unfold tick
  simp only [Prog.wp_run_bind]
  refine Prog.wp_mono recover_waits ?_
  rintro (err | _) past -
  · trivial
  refine Prog.wp_mono (quiet_waits confirm_quiet) ?_
  rintro (err | _) past -
  · trivial
  · exact escalate_waits

end AccountExecutor

theorem Call.body_waits (c : Call) :
    (client.body c).wp (.history WaitOwes) (fun _ _ => True) [] := by
  have manager : ∀ (c : Call) m, c.role = .manager m →
      c.body.wp (.history WaitOwes) (fun _ _ => True) [] := fun c m hc =>
    quiet_waits ((manager_ops hc).mono fun o ho => by
      cases o with
      | submit rlp opts site =>
        cases site with
        | recover | bump => cases ho
        | _ => trivial
      | _ => trivial)
  cases c with
  | send m intent opts context => exact manager (.send m intent opts context) m rfl
  | cancel m id => exact manager (.cancel m id) m rfl
  | recover e => exact Prog.wp_map.mpr AccountExecutor.recover_waits
  | confirm e => exact Prog.wp_map.mpr (quiet_waits AccountExecutor.confirm_quiet)
  | escalate e => exact Prog.wp_map.mpr AccountExecutor.escalate_waits
  | tick e => exact Prog.wp_map.mpr AccountExecutor.tick_waits

end Programs

section Law

variable [Alloy] {W : Type} {S : System ports W Call CallResult} {view : W → World}
  {p₀ p₁ p : Pool ports W Call CallResult} {th : CallThread} {id : HandleId} {c h : TxHandle}

/-- Call `i` has listed the pending handles since `p₁`, and is about to put this one back on the
wire. -/
def PutsBack (p₁ p : Pool ports W Call CallResult) (i : Nat) (h : TxHandle) : Prop :=
  ((p.pastOf i).drop (p₁.pastOf i).length).any (isListing ·.op) ∧
    (p.next? i).bind rebroadcasts = some h

/-- A cancel of this handle has recorded a handle of its own. -/
def cancelOut (id : HandleId) : PortEvent → Bool
  | ⟨.putHandle c (.cancelNew marked), r⟩ =>
    marked.id = id && c.id ≠ id && (r : Except StateStoreError Unit).isOk
  | _ => false

/-- A call with this past does not list a handle in flight to put it back when a cancel of it is
out. -/
def restingTargets (w : World) (past : List PortEvent) : PortEvent → Bool
  | ⟨.pendingHandles _, r⟩ =>
    match (r : Except StateStoreError (List TxHandle)) with
    | .ok hs => !putsBackNext past || hs.all fun h => !(h.inFlight && w.log.any (cancelOut h.id))
    | .error _ => true
  | _ => true

/-- What a call puts back was listed for that after the cancel returned. -/
theorem PutsBack.listed {K : TxHandle → Prop} (hS : Call.client.Runs S view)
    (h₀ : Backed.Fresh view p₀) (h₁ : S.Reaches p₀ p₁) (h₂ : S.Reaches p₁ p)
    (hK : ∀ {q i x a hs}, S.Reaches p₁ q → S.allow q i x (.pendingHandles a) (.ok hs) →
      putsBackNext (q.pastOf i) → ∀ g ∈ hs, g.inFlight → K g) {i : Nat}
    (hputs : PutsBack p₁ p i h) : K h := by
  obtain ⟨hlists, hnext⟩ := hputs
  obtain ⟨o, ho, hback⟩ := Option.bind_eq_some_iff.mp hnext
  obtain ⟨th, hth, hprog⟩ := Option.bind_eq_some_iff.mp ho
  obtain ⟨k, hprog⟩ := Prog.exists_call_of_next? hprog
  have hreach : S.Reaches p₀ p := h₁.trans h₂
  have hist := hreach.history (fun c => hS.body ▸ c.body_waits) h₀.1 th (List.mem_of_getElem? hth)
  rw [hprog] at hist
  have hwaiting := (Prog.wp_history_call.mp hist).1 h hback
  obtain ⟨new, hpast, hnew⟩ := h₂.since (K := fun past e => ∀ a hs,
    e = ev (.pendingHandles a) (.ok hs) → putsBackNext past → ∀ g ∈ hs, g.inFlight → K g)
    (fun {q i x o r} hq ha a hs he => by cases he; exact hK hq ha) i
  rw [← Pool.pastOf_of_get hth, hpast] at hwaiting
  rw [hpast, List.drop_left] at hlists
  obtain ⟨hflight, before, a, hs, after, hsplit, hback, hmem⟩ := hwaiting.since hlists
  exact hnew before _ after hsplit a hs rfl hback h hmem hflight

omit [Alloy] in
theorem CancelReturnedAs.stays (hr : CancelReturnedAs id c th) (h : S.Reaches p₁ p)
    (hth : th ∈ p₁.threads) : th ∈ p.threads := by
  obtain ⟨m, -, hret⟩ := hr
  exact h.returned hth hret

/-- In a listing made after a cancel has succeeded, its target is not in flight. -/
theorem CancelReturnedAs.resting (hS : Call.client.Runs S view) (h₀ : Backed.Fresh view p₀)
    (h : S.Reaches p₀ p) (hth : th ∈ p.threads) (hr : CancelReturnedAs id c th) {a : Address}
    {hs : List TxHandle} {past : List PortEvent} (hback : putsBackNext past)
    (hrest : restingTargets (view p.world) past (ev (.pendingHandles a) (.ok hs))) {g : TxHandle}
    (hg : g ∈ hs) (hflight : g.inFlight) (hid : g.id = id) : c.id = id := by
  by_contra hne
  obtain ⟨marked, hmarked, hrecord⟩ := hr.target hS h₀ h hth
  have hout : (view p.world).log.any (cancelOut g.id) := List.any_eq_true.mpr
    ⟨_, hS.mem_log h₀ h hth hrecord, by simp [ev, cancelOut, hid, hmarked, hne, Except.isOk,
      Except.toBool]⟩
  simp only [ev, restingTargets, hback, Bool.not_true, Bool.false_or] at hrest
  have hquiet := List.all_eq_true.mp hrest g hg
  simp [hflight, hout] at hquiet

/-- A cancelled handle is not put back on the wire. -/
theorem Call.not_put_back (hS : client.Runs S view) (h₀ : Backed.Fresh view p₀)
    (hrest : ∀ {p i x o r}, S.allow p i x o r → restingTargets (view p.world) (p.pastOf i) ⟨o, r⟩)
    (h₁ : S.Reaches p₀ p₁) (h₂ : S.Reaches p₁ p) (hth : th ∈ p₁.threads)
    (hr : CancelReturnedAs id c th) {i : Nat} (hputs : PutsBack p₁ p i h) (hid : h.id = id) :
    h.id = c.id := by
  have hresting := hputs.listed (K := fun g => g.id = id → c.id = id) hS h₀ h₁ h₂
    fun hq ha hback g hg hflight => hr.resting hS h₀ (h₁.trans hq) (hr.stays hq hth) hback
      (hrest ha) hg hflight
  rw [hid, hresting hid]

/-- The target of a cancel that has succeeded stays at the cancel's nonce. -/
theorem CancelReturnedAs.kept (hS : Call.client.Orderly S view p₀ Call.errand .tracked)
    (hfresh : ∀ {p i x o r}, S.allow p i x o r → freshCancel ⟨o, r⟩) (h : S.Reaches p₀ p)
    (hth : th ∈ p.threads) (hr : CancelReturnedAs id c th) :
    c.id ≠ id ∧ c.id = .new c.intent.hash c.nonce ∧ ∃ g, (view p.world).store.handle id = some g ∧
      g.cancelShaped = false ∧ SameSpot g c ∧
      c.intent = cancelIntent g.intent.chainId g.account := by
  refine hr.since (J := fun w => c.id ≠ id ∧ c.id = .new c.intent.hash c.nonce ∧
    ∃ g, (view w).store.handle id = some g ∧ g.cancelShaped = false ∧ SameSpot g c ∧
      c.intent = cancelIntent g.intent.chainId g.account) hS.runs hS.sequential hS.fresh
    (fun {p i mover x marked k m} hreach hlast hcall hprog ha => ?_)
    (fun {p i mover x o k r} hreach hth hlast hprog ha hJ => ?_) h hth
  · have hmover : mover ∈ p.threads := List.mem_of_getLast? hlast
    obtain ⟨hmarked, -, hshaped, hstored⟩ :=
      Call.target_marked hS (keepsMarks_of_fresh hS.fresh.1 hfresh) hreach hlast hprog hcall ha
    obtain ⟨role, -, m', approval, now, signed, -, rfl, -, hc, -⟩ :=
      hS.runs.owes hS.fresh hreach hmover hprog
    obtain ⟨target, rfl, -⟩ := hc
    refine ⟨fun hid => ?_, rfl, _, hstored, hshaped, ⟨rfl, rfl⟩, rfl⟩
    -- the cancel would have been written over its marked target
    rw [hS.runs.next ha, ← hid] at hstored
    have hover := (Store.handle_putHandle_self (view p.world).store _).symm.trans hstored
    cases congrArg TxHandle.cancelled (Option.some.inj hover)
  · obtain ⟨hne, hcid, g, hg, hshaped, hspot, hintent⟩ := hJ
    refine ⟨hne, hcid, ?_⟩
    rw [hS.runs.next ha, World.handle_apply]
    cases hw : wrote ⟨o, r⟩ with
    | none => exact ⟨g, hg, hshaped, hspot, hintent⟩
    | some h' =>
      obtain ⟨site, he⟩ := wrote_eq_some hw
      cases he
      by_cases hid : id = h'.id
      swap
      · exact ⟨g, (if_neg hid).trans hg, hshaped, hspot, hintent⟩
      subst hid
      refine ⟨h', if_pos rfl, ?_⟩
      obtain ⟨role, hrole, howes⟩ :=
        hS.runs.owes hS.fresh hreach (List.mem_of_getLast? hlast) hprog
      cases hb : site.basis with
      | some g' =>
        obtain rfl : g' = g :=
          Option.some.inj (((hS.put_current hreach hlast hprog ha).1 g' hb).symm.trans hg)
        have hsame := howes.sameRecord hb
        exact ⟨hsame.cancelShaped.trans hshaped, hsame.spot.trans hspot, by
          rw [hsame.intent, hsame.account, hintent]⟩
      | none =>
        obtain ⟨g', hg', hc, -⟩ := Call.stays_cancelled hS
          (keepsMarks_of_fresh hS.fresh.1 hfresh) hreach hth hr.returned
        cases hg'.symm.trans hg
        exact absurd hc.tracked (hS.put_new hfresh hreach hlast hprog ha hb
          (Call.ne_task hrole howes) hg)

/-- In a listing made after a cancel has succeeded, what is in flight at its nonce is the target
or the cancel. -/
theorem CancelReturnedAs.rivals (hS : Call.client.Orderly S view p₀ Call.errand .tracked)
    (hfresh : ∀ {p i x o r}, S.allow p i x o r → freshCancel ⟨o, r⟩) (h : S.Reaches p₀ p)
    (hth : th ∈ p.threads) (hr : CancelReturnedAs id c th) {a : Address} {hs : List TxHandle}
    (hcan : (view p.world).can (ev (.pendingHandles a) (.ok hs))) {g : TxHandle} (hg : g ∈ hs)
    (hflight : g.inFlight) (hspot : SameSpot g c) : g.id = id ∨ g.id = c.id := by
  obtain ⟨-, hcid, target, htarget, hshaped, htspot, hintent⟩ := hr.kept hS hfresh h hth
  obtain ⟨t, ht, hcancelled, -⟩ :=
    Call.stays_cancelled hS (keepsMarks_of_fresh hS.fresh.1 hfresh) h hth hr.returned
  obtain rfl : target = t := Option.some.inj (htarget.symm.trans ht)
  have htid : target.id = id := Table.key_of_get ht
  have hread : Reads g (ev (.pendingHandles a) (.ok hs)) := ⟨hs, rfl, hg⟩
  have hstored := stored_of_reads hread hcan
  have hlive : g.Is .tracked := by
    refine .inl ?_
    rcases (Bool.or_eq_true _ _).mp hflight with hs | hs <;> rw [of_decide_eq_true hs] <;> rfl
  cases hgs : g.cancelShaped with
  | false =>
    refine .inl ?_
    rw [← htid] at ht ⊢
    exact (hS.one_cancel hfresh h).unique hstored ht hlive hcancelled.tracked hgs hshaped
      (hspot.trans htspot.symm)
  | true =>
    refine .inr ?_
    rw [← htid] at ht
    have hgi := hS.cancel_intent hfresh h ht hstored hcancelled.tracked hlive hshaped hgs
      (htspot.trans hspot.symm)
    rw [((hS.runs.coherent hS.fresh h).1 g hstored).id, hcid, hgi, hintent, hspot.2]

/-- Of what is in flight at the nonce, only the cancel is put back on the wire. -/
theorem Call.only_cancel_put_back (hS : client.Orderly S view p₀ errand .tracked)
    (hfresh : ∀ {p i x o r}, S.allow p i x o r → freshCancel ⟨o, r⟩)
    (hrest : ∀ {p i x o r}, S.allow p i x o r → restingTargets (view p.world) (p.pastOf i) ⟨o, r⟩)
    (h₁ : S.Reaches p₀ p₁) (h₂ : S.Reaches p₁ p) (hth : th ∈ p₁.threads)
    (hr : CancelReturnedAs id c th) {i : Nat} (hputs : PutsBack p₁ p i h) :
    h.id ≠ id ∧ (SameSpot h c → h.id = c.id) := by
  have hne : h.id ≠ id := fun hid => (hr.kept hS hfresh h₁ hth).1
    ((not_put_back hS.runs hS.fresh hrest h₁ h₂ hth hr hputs hid).symm.trans hid)
  refine ⟨hne, fun hspot => ?_⟩
  have hrivals := hputs.listed (K := fun g => SameSpot g c → g.id = id ∨ g.id = c.id) hS.runs
    hS.fresh h₁ h₂ fun hq ha _ g hg hflight => hr.rivals hS hfresh (h₁.trans hq) (hr.stays hq hth)
      (hS.runs.can ha) hg hflight
  exact (hrivals hspot).resolve_left hne

end Law

section Calls

variable [Alloy]

/-- Calls in any interleaving, in which `recover` and `escalate` list no handle in flight that a
cancel is out for. -/
abbrev restingCalls : System ports World Call CallResult :=
  Call.client.system fun p i e => restingTargets p.world (p.pastOf i) e

/-- Such calls one at a time, in which the records of rejections are written, ids do not collide,
and no cancel is of a handle that is marked already or is a cancel itself. -/
abbrev restingSingles : System ports World Call CallResult :=
  restingCalls.given fun p i e => i + 1 = p.threads.length ∧ rejectWritten e ∧
    distinctIds p.world e ∧ freshCancel e

theorem restingSingles_orderly :
    Call.client.Orderly restingSingles id Client.start Call.errand .tracked :=
  Call.orderly ⟨⟨fun ha => ha.1.1, fun _ => rfl⟩, rfl⟩ Client.fresh_start
    (fun _ _ _ _ _ ha => ha.2.1) (fun ha => ha.2.2.1) fun ha => ha.2.2.2.1

/-- **A cancelled payload is not put back on the wire**, as long as no tick lists the target as in
flight: in any interleaving, once `cancel` has returned, what a later `recover` or `escalate`
broadcasts is not for the target, unless the target's record has become the cancel's; and where
calls are made one at a time and handles are cancelled once, it is not for the target, and at the
target's nonce it is for the cancel. -/
theorem cancelled_payload_not_put_back {p₁ p : CallPool} {th : CallThread} {id : HandleId}
    {c h : TxHandle} {i : Nat} (h₁ : restingCalls.Reaches Client.start p₁)
    (h₂ : restingCalls.Reaches p₁ p) (hth : th ∈ p₁.threads) (hr : CancelReturnedAs id c th)
    (hputs : PutsBack p₁ p i h) :
    (h.id = id → h.id = c.id) ∧
      (restingSingles.Reaches Client.start p₁ → restingSingles.Reaches p₁ p →
        h.id ≠ id ∧ (SameSpot h c → h.id = c.id)) := by
  refine ⟨fun hid => ?_, fun h₁' h₂' => ?_⟩
  · exact Call.not_put_back (Client.system_runs _ _) Client.fresh_start (fun ha => ha.2) h₁ h₂ hth
      hr hputs hid
  · exact Call.only_cancel_put_back restingSingles_orderly (fun ha => ha.2.2.2.2)
      (fun ha => ha.1.2) h₁' h₂' hth hr hputs

end Calls

section Rebroadcasts

attribute [local instance] Toy.alloy

/-- Call `j` is a cancel of this handle that has succeeded, and what call `i` puts back since then
stands so to the cancel's handle. -/
def putsBackAs (p₁ p : CallPool) (j i : Nat) (id : HandleId) (as : TxHandle → TxHandle → Bool) :
    Bool :=
  match p₁.threads[j]?, (p.next? i).bind rebroadcasts with
  | some ⟨.cancel _ id', _, .ret (.handle (.ok c))⟩, some h => id' = id && as c h &&
    ((p.pastOf i).drop (p₁.pastOf i).length).any (isListing ·.op)
  | _, _ => false

theorem exists_putsBack {p₁ p : CallPool} {j i : Nat} {id : HandleId}
    {as : TxHandle → TxHandle → Bool} (h : putsBackAs p₁ p j i id as) :
    ∃ th ∈ p₁.threads, ∃ c h, CancelReturnedAs id c th ∧ PutsBack p₁ p i h ∧ as c h := by
  unfold putsBackAs at h
  split at h
  · rename_i m id' past c h' hth hback
    simp only [Bool.and_eq_true, decide_eq_true_eq] at h
    obtain ⟨⟨rfl, has⟩, hlists⟩ := h
    exact ⟨_, List.mem_of_getElem? hth, c, h', ⟨m, rfl, rfl⟩, ⟨hlists, hback⟩, has⟩
  · cases h

/-- A send is cancelled. -/
def sentAndCancelled : CallPool :=
  System.played (S := singleCancels) Client.start
    [.spawn (.send Toy.manager Toy.intent .default none), .moves 0 40 () (World.serve Toy.calm),
      .spawn (.cancel Toy.manager Toy.sentId), .moves 1 40 () (World.serve Toy.calm)]

/-- The next tick starts to put the pending handles back. -/
def recoverAfterCancel : CallPool :=
  System.played (S := singleCancels) sentAndCancelled
    [.spawn (.tick Toy.executor), .moves 2 2 () (World.serve Toy.calm)]

theorem tick_puts_cancelled_back : ∃ (p₁ p : CallPool) (th : CallThread) (id : HandleId)
    (c h : TxHandle) (i : Nat), singleCancels.Reaches Client.start p₁ ∧
      singleCancels.Reaches p₁ p ∧ th ∈ p₁.threads ∧ CancelReturnedAs id c th ∧
      PutsBack p₁ p i h ∧ h.id = id ∧ h.id ≠ c.id := by
  have h₁ : singleCancels.Reaches Client.start sentAndCancelled := System.reaches_played _ _
  have h₂ : singleCancels.Reaches sentAndCancelled recoverAfterCancel := System.reaches_played _ _
  obtain ⟨th, hth, c, h, hr, hputs, has⟩ := exists_putsBack (by decide +kernel :
    putsBackAs sentAndCancelled recoverAfterCancel 1 2 Toy.sentId fun c h =>
      h.id = Toy.sentId && h.id ≠ c.id)
  simp only [Bool.and_eq_true, decide_eq_true_eq] at has
  exact ⟨_, _, th, _, c, h, 2, h₁, h₂, hth, hr, hputs, has.1, has.2⟩

/-- The chain has consumed the nonce, and the store fails to move the cancel on. -/
def targetMovedOn (w : World) : (o : Op) → Option o.Reply
  | .putHandle h (.advance _) =>
    if h.cancelShaped then some (.error (.backend "down")) else some (.ok ())
  | o => World.serve (Toy.chain 10 5 none) w o

/-- A send is cancelled, and its nonce is seen consumed before the next `recover`. -/
def cancelledAndMovedOn : CallPool :=
  System.played (S := restingSingles) Client.start
    [.spawn (.send Toy.manager Toy.intent .default none), .moves 0 40 () (World.serve Toy.calm),
      .spawn (.cancel Toy.manager Toy.sentId), .moves 1 40 () (World.serve Toy.calm),
      .spawn (.confirm Toy.executor), .moves 2 40 () targetMovedOn]

def recoverCancelOnly : CallPool :=
  System.played (S := restingSingles) cancelledAndMovedOn
    [.spawn (.recover Toy.executor), .moves 3 1 () (World.serve Toy.calm)]

theorem cancelled_payload_not_put_back_consumed :
    ∃ th ∈ cancelledAndMovedOn.threads, ∃ c h, CancelReturnedAs Toy.sentId c th ∧
      PutsBack cancelledAndMovedOn recoverCancelOnly 3 h ∧ h.id ≠ Toy.sentId ∧ SameSpot h c ∧
      h.id = c.id := by
  have h₁ : restingSingles.Reaches Client.start cancelledAndMovedOn := System.reaches_played _ _
  have h₂ : restingSingles.Reaches cancelledAndMovedOn recoverCancelOnly :=
    System.reaches_played _ _
  obtain ⟨th, hth, c, h, hr, hputs, hspot⟩ := exists_putsBack (by decide +kernel :
    putsBackAs cancelledAndMovedOn recoverCancelOnly 1 3 Toy.sentId fun c h =>
      h.account = c.account && h.nonce = c.nonce)
  simp only [Bool.and_eq_true, decide_eq_true_eq] at hspot
  obtain ⟨hne, hcancel⟩ :=
    (cancelled_payload_not_put_back h₁.of_given h₂.of_given hth hr hputs).2 h₁ h₂
  exact ⟨th, hth, c, h, hr, hputs, hne, hspot, hcancel hspot⟩

end Rebroadcasts

end WalletKit
