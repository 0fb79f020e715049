import Mathlib.Data.List.Lex
import Mathlib.Data.List.Nodup
import Mathlib.Data.Prod.Lex
import Mathlib.Tactic

/-!
# Tables of rows with a key

A finite table that holds at most one row a key, as a list. The order of the rows carries
no meaning: readers that list a table see them in any order. Where the keys have an order, a range
of them can be scanned in it. With pairs as keys, compared by the first part and then by the
second, the rows of one first part are such a range.
-/
namespace WalletKit.Machine

variable {α κ : Type} [DecidableEq κ] {key : α → κ}

structure Table (α : Type) {κ : Type} (key : α → κ) where
  rows : List α
  nodup : (rows.map key).Nodup

namespace Table

def empty : Table α key := ⟨[], List.nodup_nil⟩

def get (t : Table α key) (k : κ) : Option α := t.rows.find? (key · = k)

/-- Write a row, in place of the one that had its key. -/
def put (t : Table α key) (a : α) : Table α key where
  rows := a :: t.rows.filter (key · ≠ key a)
  nodup := by
    refine List.nodup_cons.mpr ⟨by simp, ?_⟩
    exact t.nodup.sublist (List.filter_sublist.map key)

theorem get_eq_some {t : Table α key} {k : κ} {a : α} :
    t.get k = some a ↔ a ∈ t.rows ∧ key a = k := by
  constructor
  · intro h
    exact ⟨List.mem_of_find?_eq_some h, by simpa using List.find?_some h⟩
  · rintro ⟨ha, rfl⟩
    obtain ⟨b, hb⟩ := Option.isSome_iff_exists.mp
      (List.find?_isSome.mpr ⟨a, ha, by simp⟩ : (t.rows.find? (key · = key a)).isSome)
    have hk : key b = key a := by simpa using List.find?_some hb
    have : b = a := List.inj_on_of_nodup_map t.nodup (List.mem_of_find?_eq_some hb) ha hk
    rw [get, hb, this]

@[simp] theorem get_empty (k : κ) : (empty : Table α key).get k = none := rfl

theorem key_of_get {t : Table α key} {k : κ} {a : α} (h : t.get k = some a) : key a = k :=
  (get_eq_some.mp h).2

theorem mem_rows {t : Table α key} {a : α} : a ∈ t.rows ↔ t.get (key a) = some a := by
  simp [get_eq_some]

theorem mem_put {t : Table α key} {a b : α} :
    b ∈ (t.put a).rows ↔ b = a ∨ b ∈ t.rows ∧ key b ≠ key a := by
  simp [put]

theorem get_put (t : Table α key) (a : α) (k : κ) :
    (t.put a).get k = if k = key a then some a else t.get k := by
  by_cases h : k = key a
  · rw [if_pos h]
    exact get_eq_some.mpr ⟨mem_put.mpr (.inl rfl), h.symm⟩
  · rw [if_neg h]
    refine Option.ext fun b => ?_
    rw [get_eq_some, get_eq_some, mem_put]
    constructor
    · rintro ⟨rfl | ⟨hb, -⟩, hk⟩
      · exact absurd hk.symm h
      · exact ⟨hb, hk⟩
    · rintro ⟨hb, rfl⟩
      exact ⟨.inr ⟨hb, h⟩, rfl⟩

@[simp] theorem get_put_self (t : Table α key) (a : α) : (t.put a).get (key a) = some a := by
  simp [get_put]

/-- Remove the row that has this key. -/
def remove (t : Table α key) (k : κ) : Table α key where
  rows := t.rows.filter (key · ≠ k)
  nodup := t.nodup.sublist (List.filter_sublist.map key)

theorem mem_remove {t : Table α key} {k : κ} {b : α} :
    b ∈ (t.remove k).rows ↔ b ∈ t.rows ∧ key b ≠ k := by
  simp [remove]

omit [DecidableEq κ] in
theorem rows_nodup (t : Table α key) : t.rows.Nodup := t.nodup.of_map key

section Range

variable {ω : Type} [LinearOrder ω]

/-- The rows with keys from `lo` to `hi`, in the order of the keys. -/
def range (rank : κ → ω) (t : Table α key) (lo hi : κ) : List α :=
  (t.rows.filter fun a => rank lo ≤ rank (key a) ∧ rank (key a) ≤ rank hi).mergeSort
    fun a b => rank (key a) ≤ rank (key b)

omit [DecidableEq κ] in
theorem range_perm (rank : κ → ω) (t : Table α key) (lo hi : κ) :
    (t.range rank lo hi).Perm
      (t.rows.filter fun a => rank lo ≤ rank (key a) ∧ rank (key a) ≤ rank hi) :=
  List.mergeSort_perm _ _

omit [DecidableEq κ] in
theorem mem_range {rank : κ → ω} {t : Table α key} {lo hi : κ} {a : α} :
    a ∈ t.range rank lo hi ↔ a ∈ t.rows ∧ rank lo ≤ rank (key a) ∧ rank (key a) ≤ rank hi := by
  rw [(range_perm rank t lo hi).mem_iff, List.mem_filter, decide_eq_true_eq]

omit [DecidableEq κ] in
theorem nodup_range (rank : κ → ω) (t : Table α key) (lo hi : κ) : (t.range rank lo hi).Nodup :=
  (range_perm rank t lo hi).nodup_iff.mpr (t.rows_nodup.filter _)

end Range

end Table

section Lex

variable {ω υ : Type} [LinearOrder ω] [LinearOrder υ]

theorem lex_between {a b : ω} {lo hi x : υ} :
    toLex (a, lo) ≤ toLex (b, x) ∧ toLex (b, x) ≤ toLex (a, hi) ↔ b = a ∧ lo ≤ x ∧ x ≤ hi := by
  simp only [Prod.Lex.toLex_le_toLex]
  constructor
  · rintro ⟨hlt | ⟨rfl, hlo⟩, hgt | ⟨heq, hhi⟩⟩
    · exact absurd (hlt.trans hgt) (lt_irrefl _)
    · exact absurd heq hlt.ne'
    · exact absurd hgt (lt_irrefl _)
    · exact ⟨rfl, hlo, hhi⟩
  · rintro ⟨rfl, hlo, hhi⟩
    exact ⟨.inr ⟨rfl, hlo⟩, .inr ⟨rfl, hhi⟩⟩

theorem cons_le_cons {a b : ω} {l l' : List ω} (h : a ≤ b) (hl : l ≤ l') : a :: l ≤ b :: l' := by
  rcases h.lt_or_eq with hlt | rfl
  · exact le_of_lt (List.cons_lt_cons_iff.mpr (.inl hlt))
  · rcases hl.lt_or_eq with hlt | rfl
    · exact le_of_lt (List.cons_lt_cons_iff.mpr (.inr ⟨rfl, hlt⟩))
    · exact le_rfl

theorem replicate_le {b : ω} {l : List ω} (h : ∀ x ∈ l, b ≤ x) :
    List.replicate l.length b ≤ l := by
  induction l with
  | nil => exact le_rfl
  | cons x l ih => exact cons_le_cons (h x (by simp)) (ih fun y hy => h y (by simp [hy]))

theorem le_replicate {b : ω} {l : List ω} (h : ∀ x ∈ l, x ≤ b) :
    l ≤ List.replicate l.length b := by
  induction l with
  | nil => exact le_rfl
  | cons x l ih => exact cons_le_cons (h x (by simp)) (ih fun y hy => h y (by simp [hy]))

end Lex

end WalletKit.Machine
