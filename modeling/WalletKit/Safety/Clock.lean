import WalletKit.Provenance.Past

/-!
# The replacement clock

A handle whose nonce was consumed by another transaction is `replacing` from the head of the
cycle that saw it first, and settles once that head is final. The stored head sums up all rounds
since: none of them has found the nonce open or the handle mined, for such a round ends the clock
and the next one that finds the nonce consumed starts it again at its own head.
-/
namespace WalletKit

/-- What one accepted cycle has for a handle: its mark at that time, the distilled event and the
cycle's view. -/
structure Round where
  cancelled : Bool
  event : ChainEvent
  cycle : Cycle

namespace Round

/-- The head of the round's cycle. -/
def head (r : Round) : Nat := r.cycle.view.latest

/-- A round that has found the nonce open, or the handle mined. -/
def contests (r : Round) : Bool :=
  match r.event with
  | .pending | .mined _ _ _ => true
  | .replaced | .unknown => false

/-- The round makes this of a handle. -/
def advance (h : TxHandle) (r : Round) : TxHandle :=
  let marked := { h with cancelled := r.cancelled }
  match transition h.status r.event r.cycle.view r.cycle.finality with
  | none => marked
  | some next => { marked with status := AccountExecutor.settleStatus marked next }

end Round

/-- What a sequence of rounds makes of a handle. -/
def afterRounds (h : TxHandle) (rounds : List Round) : TxHandle := rounds.foldl Round.advance h

section Executor

variable [Alloy]

/-- What `confirm` writes is what the round of its cycle makes of the handle. -/
theorem Evidence.round {past : List PortEvent} {e : AccountExecutor} {h h' : TxHandle}
    (hev : Evidence past e h h') : ∃ r : Round, ∃ before scan, past = before ++ scan ∧
      InCycle before e r.cycle ∧ Scanned h r.cycle.minedNonce scan r.event ∧
      r.cancelled = h.cancelled ∧ h' = r.advance h := by
  obtain ⟨before, scan, cycle, event, next, hpast, hcycle, -, -, hscan, hnext, rfl⟩ := hev
  refine ⟨⟨h.cancelled, event, cycle⟩, before, scan, hpast, hcycle, hscan, rfl, ?_⟩
  simp only [Round.advance, hnext]

end Executor

section Steps

variable {h : TxHandle} {r : Round} {l : Nat}

theorem settleStatus_cases (h : TxHandle) (next : TxStatus) :
    AccountExecutor.settleStatus h next = next ∨
      next = .replaced ∧ AccountExecutor.settleStatus h next = .dropped := by
  unfold AccountExecutor.settleStatus
  split
  · exact .inr ⟨by simp_all, rfl⟩
  · exact .inl rfl

/-- A round that contests a running clock stops it. -/
theorem transition_ne_none_of_contests (hs : h.status = .replacing l) (hr : r.contests) :
    transition h.status r.event r.cycle.view r.cycle.finality ≠ none := by
  unfold Round.contests at hr
  rw [hs]
  cases he : r.event with
  | pending => simp [transition, TxStatus.isTerminal, Option.filter]
  | mined b bh o =>
    by_cases hf : isFinal b r.cycle.view r.cycle.finality
    · rw [transition_mined rfl hf]
      simp
    · simp [transition, TxStatus.isTerminal, Option.filter, hf]
  | replaced => simp [he] at hr
  | unknown => simp [he] at hr

/-- A clock is left running by a round that does not contest it, or is started by one that finds
the nonce consumed. -/
theorem advance_replacing (hl : (r.advance h).status = .replacing l) :
    (h.status = .replacing l ∧ r.contests = false) ∨
      (∀ l', h.status ≠ .replacing l') ∧ r.event = .replaced ∧ l = r.head := by
  unfold Round.advance at hl
  cases hnext : transition h.status r.event r.cycle.view r.cycle.finality with
  | none =>
    rw [hnext] at hl
    refine .inl ⟨hl, ?_⟩
    by_contra hr
    exact transition_ne_none_of_contests hl (by simpa using hr) hnext
  | some next =>
    rw [hnext] at hl
    have hrep : next = .replacing l := by
      rcases settleStatus_cases { h with cancelled := r.cancelled } next with hs | ⟨-, hs⟩
      · exact hs.symm.trans hl
      · cases hs.symm.trans hl
    subst hrep
    obtain ⟨-, -, ⟨-, ht, -⟩ | ⟨b, bh, o, -, ⟨-, ht⟩ | ⟨-, ht⟩⟩ |
      ⟨he, ⟨_, -, -, ht⟩ | ⟨hno, ht⟩⟩⟩ :=
      transition_cases hnext
    · cases ht
    · cases o <;> cases ht
    · cases ht
    · cases ht
    · exact .inr ⟨hno, he, TxStatus.replacing.inj ht⟩

/-- A handle settles as displaced when its clock has run. -/
theorem advance_displaced (hlive : h.status.isTerminal = false)
    (hd : (r.advance h).status = .replaced ∨ (r.advance h).status = .dropped) :
    r.event = .replaced ∧
      ∃ l, h.status = .replacing l ∧ isFinal l r.cycle.view r.cycle.finality := by
  unfold Round.advance at hd
  cases hnext : transition h.status r.event r.cycle.view r.cycle.finality with
  | none =>
    rw [hnext] at hd
    change h.status = _ ∨ h.status = _ at hd
    rcases hd with hd | hd <;> simp [hd, TxStatus.isTerminal] at hlive
  | some next =>
    rw [hnext] at hd
    have hrep : next = .replaced ∨ next = .dropped := by
      rcases settleStatus_cases { h with cancelled := r.cancelled } next with hs | ⟨hs, -⟩
      · exact hd.imp hs.symm.trans hs.symm.trans
      · exact .inl hs
    obtain ⟨-, -, ⟨-, ht, -⟩ | ⟨b, bh, o, -, ⟨-, ht⟩ | ⟨-, ht⟩⟩ |
      ⟨he, ⟨l, hl, hf, ht⟩ | ⟨-, ht⟩⟩⟩ :=
      transition_cases hnext
    · rcases hrep with rfl | rfl <;> cases ht
    · rcases hrep with rfl | rfl <;> cases o <;> cases ht
    · rcases hrep with rfl | rfl <;> cases ht
    · exact ⟨he, l, hl, hf⟩
    · rcases hrep with rfl | rfl <;> cases ht

end Steps

section Runs

variable {h₀ : TxHandle} {rounds : List Round} {l : Nat}

@[simp] theorem afterRounds_snoc (h : TxHandle) (rounds : List Round) (r : Round) :
    afterRounds h (rounds ++ [r]) = r.advance (afterRounds h rounds) := by
  simp [afterRounds]

/-- The clock was started by the round `first` at its head, and no round `since` contested it. -/
structure Started (h₀ : TxHandle) (before : List Round) (first : Round) (since : List Round)
    (l : Nat) : Prop where
  head : first.head = l
  event : first.event = .replaced
  idle : ∀ l', (afterRounds h₀ before).status ≠ .replacing l'
  started : (afterRounds h₀ (before ++ [first])).status = .replacing l
  uncontested : ∀ r ∈ since, r.contests = false

/-- A running clock was started in this run. -/
theorem exists_started (h₀ : TxHandle) (hidle : ∀ l, h₀.status ≠ .replacing l) :
    ∀ {rounds : List Round} {l : Nat}, (afterRounds h₀ rounds).status = .replacing l →
      ∃ before first since, rounds = before ++ first :: since ∧
        Started h₀ before first since l := by
  intro rounds l hl
  induction rounds using List.reverseRecOn with
  | nil => exact absurd hl (hidle l)
  | append_singleton rounds r ih =>
    have hstep := hl
    rw [afterRounds_snoc] at hstep
    rcases advance_replacing hstep with ⟨hrun, hr⟩ | ⟨hno, he, rfl⟩
    · obtain ⟨before, first, since, rfl, hs⟩ := ih hrun
      refine ⟨before, first, since ++ [r], by simp, { hs with uncontested := fun x hx => ?_ }⟩
      rcases List.mem_append.mp hx with hx | hx
      · exact hs.uncontested x hx
      · rw [List.mem_singleton.mp hx]
        exact hr
    · exact ⟨rounds, r, [], rfl, rfl, he, hno, hl, by simp⟩

/-- After a round that contests it, a running clock was started by a later round. -/
theorem started_after_contest (hidle : ∀ l, h₀.status ≠ .replacing l) {before after : List Round}
    {r : Round} (hr : r.contests)
    (hl : (afterRounds h₀ (before ++ r :: after)).status = .replacing l) :
    ∃ first ∈ after, first.head = l := by
  obtain ⟨pre, first, since, hsplit, hs⟩ := exists_started h₀ hidle hl
  refine ⟨first, ?_, hs.head⟩
  rcases List.append_eq_append_iff.mp hsplit with ⟨t, rfl, ht⟩ | ⟨t, rfl, ht⟩
  · -- the contest comes before the start
    cases t with
    | nil =>
      obtain ⟨rfl, -⟩ : r = first ∧ after = since := by simpa using ht
      simp [Round.contests, hs.event] at hr
    | cons x t =>
      obtain ⟨rfl, rfl⟩ : r = x ∧ after = t ++ first :: since := by simpa using ht
      simp
  · -- it would be one of the rounds since
    cases t with
    | nil =>
      obtain ⟨rfl, -⟩ : first = r ∧ since = after := by simpa using ht
      simp [Round.contests, hs.event] at hr
    | cons x t =>
      obtain ⟨rfl, rfl⟩ : first = x ∧ since = t ++ r :: after := by simpa using ht
      simp [hs.uncontested r (by simp)] at hr

/-- **Nothing is taken for displaced on contested evidence.** Over any accepted cycles with heads
that do not fall, a handle becomes `replaced` or `dropped` in a cycle only if an earlier one
started its clock, no cycle in between found the nonce open or the handle mined, the present one
finds the nonce consumed, and the head of the earlier one is final by now. And whenever a cycle
contests a running clock, a clock that runs later was started by a cycle after it, at a head that
is not lower. -/
theorem displaced_only_uncontested (hidle : ∀ l, h₀.status ≠ .replacing l)
    (hheads : rounds.Pairwise fun r r' => r.head ≤ r'.head) :
    (∀ earlier r later, rounds = earlier ++ r :: later →
      (afterRounds h₀ earlier).status.isTerminal = false →
      ((afterRounds h₀ (earlier ++ [r])).status = .replaced ∨
        (afterRounds h₀ (earlier ++ [r])).status = .dropped) →
      r.event = .replaced ∧ ∃ before first since l, earlier = before ++ first :: since ∧
        Started h₀ before first since l ∧ isFinal l r.cycle.view r.cycle.finality) ∧
    ∀ before r after later l l', rounds = before ++ r :: after ++ later → r.contests →
      (afterRounds h₀ before).status = .replacing l →
      (afterRounds h₀ (before ++ r :: after)).status = .replacing l' →
      ∃ first ∈ after, first.head = l' ∧ r.head ≤ l' ∧ l ≤ l' := by
  refine ⟨fun earlier r later _ hlive hd => ?_, ?_⟩
  · rw [afterRounds_snoc] at hd
    obtain ⟨he, l, hl, hf⟩ := advance_displaced hlive hd
    obtain ⟨before, first, since, hsplit, hs⟩ := exists_started h₀ hidle hl
    exact ⟨he, before, first, since, l, hsplit, hs, hf⟩
  · rintro before r after later l l' rfl hr hl hl'
    obtain ⟨first, hfirst, rfl⟩ := started_after_contest hidle hr hl'
    have hsorted := (List.pairwise_append.mp hheads).1
    obtain ⟨-, hafter, hcross⟩ := List.pairwise_append.mp hsorted
    refine ⟨first, hfirst, rfl, (List.pairwise_cons.mp hafter).1 first hfirst, ?_⟩
    obtain ⟨pre, start, since, rfl, hs⟩ := exists_started h₀ hidle hl
    rw [← hs.head]
    exact hcross start (by simp) first (by simp [hfirst])

end Runs

section Example

/-- A transaction is displaced at head 10, found open again at head 11, displaced at head 12, and
settles three blocks later. -/
def contestedRounds : List Round :=
  [(10, .replaced), (11, .pending), (12, .replaced), (13, .unknown), (14, .replaced)].map
    fun (head, event) => ⟨false, event, ⟨⟨head, 0⟩, ⟨.depth, 3⟩, 5⟩⟩

def trackedHandle : TxHandle where
  id := 1
  account := 7
  intent := ⟨1, 7, .call 9, 5, [], none⟩
  intentHash := 2
  nonce := 4
  status := .sent
  envelope := .default
  signed := [1]
  broadcasts := [10]
  lastBroadcastAt := 0
  cancelled := false
  submission := .default
  «meta» := none

theorem displaced_only_uncontested_restart :
    (afterRounds trackedHandle contestedRounds).status = .replaced ∧
    (∀ l, trackedHandle.status ≠ .replacing l) ∧
    contestedRounds.Pairwise (fun r r' => r.head ≤ r'.head) ∧
    ∃ before first since l, contestedRounds.dropLast = before ++ first :: since ∧
      Started trackedHandle before first since l ∧ isFinal l ⟨14, 0⟩ ⟨.depth, 3⟩ := by
  have hidle : ∀ l, trackedHandle.status ≠ .replacing l := by simp [trackedHandle]
  have hheads : contestedRounds.Pairwise (fun r r' => r.head ≤ r'.head) := by decide
  refine ⟨by decide, hidle, hheads, ?_⟩
  exact ((displaced_only_uncontested hidle hheads).1 contestedRounds.dropLast _ [] rfl (by decide)
    (by decide)).2

end Example

end WalletKit
