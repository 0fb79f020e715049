import WalletKit.Machine.Document

/-!
# Texts that can be read in one way

A code writes values as strings of symbols. It is readable when a text and whatever follows it
determine the value and where its text ends. The compact text of a document is made of readable
parts, save that a number ends only where no digit follows, which is so inside a document.
How strings are quoted is a parameter.
-/
namespace WalletKit.Machine

variable {α σ : Type}

/-- The value and the rest can be told from the text with its rest. -/
def Readable (f : α → List σ) : Prop :=
  ∀ ⦃a b : α⦄ ⦃r r' : List σ⦄, f a ++ r = f b ++ r' → a = b ∧ r = r'

namespace Readable

variable {f : α → List σ}

/-- A reader that gives back the value and the rest. -/
theorem of_read (read : List σ → Option (α × List σ)) (h : ∀ a r, read (f a ++ r) = some (a, r)) :
    Readable f := by
  intro a b r r' hab
  have hread := h a r
  rw [hab, h b r'] at hread
  exact ⟨(Prod.mk.inj (Option.some.inj hread)).1.symm, (Prod.mk.inj (Option.some.inj hread)).2.symm⟩

/-- A sequence of texts up to a symbol that none of them starts with. -/
theorem sequence (h : Readable f) {stop : σ} (hstart : ∀ a, ∃ c cs, f a = c :: cs ∧ c ≠ stop) :
    Readable fun xs : List α => xs.flatMap f ++ [stop] := by
  intro xs
  induction xs with
  | nil =>
    intro ys r r' heq
    cases ys with
    | nil => exact ⟨rfl, List.append_cancel_left heq⟩
    | cons y ys =>
      obtain ⟨c, cs, hc, hne⟩ := hstart y
      simp only [List.flatMap_cons, hc, List.flatMap_nil, List.nil_append, List.cons_append,
        List.cons.injEq] at heq
      exact absurd heq.1.symm hne
  | cons x xs ih =>
    intro ys r r' heq
    cases ys with
    | nil =>
      obtain ⟨c, cs, hc, hne⟩ := hstart x
      simp only [List.flatMap_cons, hc, List.flatMap_nil, List.nil_append, List.cons_append,
        List.cons.injEq] at heq
      exact absurd heq.1 hne
    | cons y ys =>
      simp only [List.flatMap_cons, List.append_assoc] at heq
      obtain ⟨rfl, hrest⟩ := h heq
      obtain ⟨rfl, hr⟩ := @ih ys r r' (by simpa using hrest)
      exact ⟨rfl, hr⟩

end Readable

section Digits

/-- No digit comes next. -/
def Ends (r : List Char) : Prop := ∀ c ∈ r.head?, c.isDigit = false

theorem takeWhile_digits {ds r : List Char} (hds : ∀ c ∈ ds, c.isDigit) (hr : Ends r) :
    (ds ++ r).takeWhile Char.isDigit = ds := by
  rw [List.takeWhile_append_of_pos hds]
  cases r with
  | nil => simp
  | cons c r =>
    have hc := hr c (by simp)
    simp [hc]

theorem toDigits_append_inj {m n : Nat} {r r' : List Char} (hr : Ends r) (hr' : Ends r')
    (h : Nat.toDigits 10 m ++ r = Nat.toDigits 10 n ++ r') : m = n ∧ r = r' := by
  have hdigits (k : Nat) : ∀ c ∈ Nat.toDigits 10 k, c.isDigit :=
    fun c hc => Nat.isDigit_of_mem_toDigits (by norm_num) (by norm_num) hc
  have hsame : Nat.toDigits 10 m = Nat.toDigits 10 n := by
    rw [← takeWhile_digits (hdigits m) hr, h, takeWhile_digits (hdigits n) hr']
  have hvalue := congrArg (fun ds => Nat.ofDigitChars 10 ds 0) hsame
  simp only [Nat.ofDigitChars_ten_toDigits] at hvalue
  exact ⟨hvalue, List.append_cancel_left (hsame ▸ h)⟩

end Digits

/-- A way to write strings between quotes. -/
structure Quoting where
  quote : String → List Char
  opens (s : String) : ∃ cs, quote s = '"' :: cs
  readable : Readable quote

namespace Document

variable (q : Quoting)

mutual

/-- The text without blanks, members and items in their order. -/
def text : Document → List Char
  | .null => "null".toList
  | .bool true => "true".toList
  | .bool false => "false".toList
  | .num n => Nat.toDigits 10 n
  | .str s => q.quote s
  | .arr [] => ['[', ']']
  | .arr (d :: items) => '[' :: (d.text ++ textOfItems items)
  | .obj [] => ['\x7b', '\x7d']
  | .obj ((name, d) :: members) =>
    '\x7b' :: (q.quote name ++ ':' :: (d.text ++ textOfMembers members))

/-- The items after the first, to the end of the array. -/
def textOfItems : List Document → List Char
  | [] => [']']
  | d :: items => ',' :: (d.text ++ textOfItems items)

/-- The members after the first, to the end of the object. -/
def textOfMembers : List (String × Document) → List Char
  | [] => ['\x7d']
  | (name, d) :: members => ',' :: (q.quote name ++ ':' :: (d.text ++ textOfMembers members))

end

theorem text_null : null.text q = "null".toList := by rw [text]

theorem text_num (n : Nat) : (num n).text q = Nat.toDigits 10 n := by rw [text]

theorem text_str (s : String) : (str s).text q = q.quote s := by rw [text]

theorem text_obj_cons (name : String) (d : Document) (members : List (String × Document)) :
    (obj ((name, d) :: members)).text q =
      '\x7b' :: (q.quote name ++ ':' :: (d.text q ++ textOfMembers q members)) := by
  rw [text]

theorem textOfMembers_nil : textOfMembers q [] = ['\x7d'] := by rw [textOfMembers]

theorem textOfMembers_cons (name : String) (d : Document) (members : List (String × Document)) :
    textOfMembers q ((name, d) :: members) =
      ',' :: (q.quote name ++ ':' :: (d.text q ++ textOfMembers q members)) := by
  rw [textOfMembers]

/-- What the first symbol of a text says about the document. -/
inductive Lead where
  | null
  | bool (b : Bool)
  | num
  | str
  | arr
  | obj

def lead : Document → Lead
  | .null => .null
  | .bool b => .bool b
  | .num _ => .num
  | .str _ => .str
  | .arr _ => .arr
  | .obj _ => .obj

def leadOf (c : Char) : Option Lead :=
  if c.isDigit then some .num
  else match c with
    | 'n' => some .null
    | 't' => some (.bool true)
    | 'f' => some (.bool false)
    | '"' => some .str
    | '[' => some .arr
    | '\x7b' => some .obj
    | _ => none

variable {q}

theorem exists_lead (d : Document) :
    ∃ c cs, d.text q = c :: cs ∧ leadOf c = some d.lead := by
  cases d with
  | null => exact ⟨_, _, rfl, rfl⟩
  | bool b => cases b <;> exact ⟨_, _, rfl, rfl⟩
  | num n =>
    obtain ⟨c, cs, hc⟩ := List.exists_cons_of_ne_nil (@Nat.toDigits_ne_nil n 10)
    have hdigit : c.isDigit :=
      Nat.isDigit_of_mem_toDigits (b := 10) (n := n) (by norm_num) (by norm_num) (by simp [hc])
    exact ⟨c, cs, by rw [text, hc], by simp [leadOf, hdigit, lead]⟩
  | str s =>
    obtain ⟨cs, hcs⟩ := q.opens s
    exact ⟨_, cs, by rw [text, hcs], rfl⟩
  | arr items => cases items <;> exact ⟨_, _, by rw [text], rfl⟩
  | obj members => rcases members with _ | ⟨⟨name, d⟩, members⟩ <;> exact ⟨_, _, by rw [text], rfl⟩

theorem lead_eq {d d' : Document} {r r' : List Char}
    (h : d.text q ++ r = d'.text q ++ r') : d.lead = d'.lead := by
  obtain ⟨c, cs, hc, hd⟩ := exists_lead (q := q) d
  obtain ⟨c', cs', hc', hd'⟩ := exists_lead (q := q) d'
  rw [hc, hc', List.cons_append, List.cons_append, List.cons.injEq] at h
  rw [h.1, hd'] at hd
  exact (Option.some.inj hd).symm

theorem no_item {d : Document} {r r' : List Char} (h : d.text q ++ r = ']' :: r') : False := by
  obtain ⟨c, cs, hc, hd⟩ := exists_lead (q := q) d
  rw [hc, List.cons_append, List.cons.injEq] at h
  rw [h.1] at hd
  cases hd

theorem no_name {name : String} {r r' : List Char} (h : q.quote name ++ r = '\x7d' :: r') :
    False := by
  obtain ⟨cs, hcs⟩ := q.opens name
  rw [hcs, List.cons_append, List.cons.injEq] at h
  exact absurd h.1 (by decide)

theorem ends_items (items : List Document) (r : List Char) :
    Ends (textOfItems q items ++ r) := by
  cases items <;> simp [textOfItems, Ends]

theorem ends_members (members : List (String × Document)) (r : List Char) :
    Ends (textOfMembers q members ++ r) := by
  cases members <;> simp [textOfMembers, Ends]

mutual

theorem text_append_inj (d d' : Document) {r r' : List Char} (hr : Ends r) (hr' : Ends r')
    (h : d.text q ++ r = d'.text q ++ r') : d = d' ∧ r = r' := by
  have hsame := lead_eq h
  cases d with
  | null =>
    cases d' with
    | null => exact ⟨rfl, List.append_cancel_left h⟩
    | _ => cases hsame
  | bool b =>
    cases d' with
    | bool b' =>
      cases hsame
      exact ⟨rfl, List.append_cancel_left h⟩
    | _ => cases hsame
  | num n =>
    cases d' with
    | num n' =>
      rw [text, text] at h
      obtain ⟨rfl, hrest⟩ := toDigits_append_inj hr hr' h
      exact ⟨rfl, hrest⟩
    | _ => cases hsame
  | str s =>
    cases d' with
    | str s' =>
      rw [text, text] at h
      obtain ⟨rfl, hrest⟩ := q.readable h
      exact ⟨rfl, hrest⟩
    | _ => cases hsame
  | arr items =>
    cases d' with
    | arr items' =>
      rcases items with _ | ⟨d, items⟩ <;> rcases items' with _ | ⟨d', items'⟩ <;>
        simp only [text, List.cons_append, List.nil_append, List.append_assoc, List.cons.injEq,
          true_and] at h
      · exact ⟨rfl, h⟩
      · exact (no_item h.symm).elim
      · exact (no_item h).elim
      · -- with a comma before the first, these are the texts of all the items
        have hitems : textOfItems q (d :: items) ++ r = textOfItems q (d' :: items') ++ r' := by
          simpa [textOfItems] using h
        obtain ⟨hlist, hrest⟩ := textOfItems_append_inj (d :: items) (d' :: items') hitems
        exact ⟨congrArg arr hlist, hrest⟩
    | _ => cases hsame
  | obj members =>
    cases d' with
    | obj members' =>
      rcases members with _ | ⟨⟨name, d⟩, members⟩ <;>
        rcases members' with _ | ⟨⟨name', d'⟩, members'⟩ <;>
        simp only [text, List.cons_append, List.nil_append, List.append_assoc, List.cons.injEq,
          true_and] at h
      · exact ⟨rfl, h⟩
      · exact (no_name h.symm).elim
      · exact (no_name h).elim
      · have hmembers : textOfMembers q ((name, d) :: members) ++ r =
            textOfMembers q ((name', d') :: members') ++ r' := by
          simpa [textOfMembers] using h
        obtain ⟨hlist, hrest⟩ :=
          textOfMembers_append_inj ((name, d) :: members) ((name', d') :: members') hmembers
        exact ⟨congrArg obj hlist, hrest⟩
    | _ => cases hsame

theorem textOfItems_append_inj (items items' : List Document) {r r' : List Char}
    (h : textOfItems q items ++ r = textOfItems q items' ++ r') :
    items = items' ∧ r = r' := by
  cases items with
  | nil =>
    cases items' with
    | nil => exact ⟨rfl, List.append_cancel_left h⟩
    | cons d' items' => simp [textOfItems] at h
  | cons d items =>
    cases items' with
    | nil => simp [textOfItems] at h
    | cons d' items' =>
      simp only [textOfItems, List.cons_append, List.append_assoc, List.cons.injEq, true_and] at h
      obtain ⟨rfl, hitems⟩ := text_append_inj d d' (ends_items _ _) (ends_items _ _) h
      obtain ⟨rfl, hrest⟩ := textOfItems_append_inj items items' hitems
      exact ⟨rfl, hrest⟩

theorem textOfMembers_append_inj (members members' : List (String × Document)) {r r' : List Char}
    (h : textOfMembers q members ++ r = textOfMembers q members' ++ r') :
    members = members' ∧ r = r' := by
  rcases members with _ | ⟨⟨name, d⟩, members⟩
  · rcases members' with _ | ⟨⟨name', d'⟩, members'⟩
    · exact ⟨rfl, List.append_cancel_left h⟩
    · simp [textOfMembers] at h
  · rcases members' with _ | ⟨⟨name', d'⟩, members'⟩
    · simp [textOfMembers] at h
    · simp only [textOfMembers, List.cons_append, List.append_assoc, List.cons.injEq, true_and] at h
      obtain ⟨rfl, hvalue⟩ := q.readable h
      simp only [List.cons.injEq, true_and] at hvalue
      obtain ⟨rfl, hmembers⟩ := text_append_inj d d' (ends_members _ _) (ends_members _ _) hvalue
      obtain ⟨rfl, hrest⟩ := textOfMembers_append_inj members members' hmembers
      exact ⟨rfl, hrest⟩

end

end Document

end WalletKit.Machine
