import Mathlib.Tactic

/-!
# Documents and codecs

A JSON document as a tree, and codecs: ways to write a value as a document from which it is
read back. A codec carries the proof of that, so a codec for a record is put together from those
of its fields. Members of an object are read by name; a member may have a default.
-/
namespace WalletKit.Machine

inductive Document where
  | null
  | bool (b : Bool)
  | num (n : Nat)
  | str (s : String)
  | arr (items : List Document)
  | obj (members : List (String × Document))

namespace Document

mutual

/-- The numbers and the texts of a document, in their order. -/
def leaves : Document → List (Nat ⊕ String)
  | .null | .bool _ => []
  | .num n => [.inl n]
  | .str s => [.inr s]
  | .arr items => leavesOfItems items
  | .obj members => leavesOfMembers members

def leavesOfItems : List Document → List (Nat ⊕ String)
  | [] => []
  | d :: items => d.leaves ++ leavesOfItems items

def leavesOfMembers : List (String × Document) → List (Nat ⊕ String)
  | [] => []
  | (_, d) :: members => d.leaves ++ leavesOfMembers members

end

attribute [simp] leaves leavesOfItems leavesOfMembers

/-- All numbers and texts of a document are fine. -/
def all (ok : Nat ⊕ String → Bool) (d : Document) : Bool := d.leaves.all ok

section All

variable {ok : Nat ⊕ String → Bool}

@[simp] theorem all_str (s : String) : (str s).all ok = ok (.inr s) := by simp [all]

@[simp] theorem all_obj_nil : (obj []).all ok = true := rfl

@[simp] theorem all_obj_cons (name : String) (d : Document) (members : List (String × Document)) :
    (obj ((name, d) :: members)).all ok = (d.all ok && (obj members).all ok) := by
  simp [all]

end All

/-- The member of an object that has this name. -/
def member (name : String) : Document → Option Document
  | .obj members => members.lookup name
  | _ => none

@[simp] theorem member_self (name : String) (d : Document) (members : List (String × Document)) :
    (obj ((name, d) :: members)).member name = some d := by
  simp [member]

@[simp] theorem member_ne {name other : String} (h : name ≠ other) (d : Document)
    (members : List (String × Document)) :
    (obj ((other, d) :: members)).member name = (obj members).member name := by
  have hname : (name == other) = false := by simpa using h
  simp [member, List.lookup_cons, hname]

end Document

/-- A way to write values as documents that can be read back. -/
structure Codec (α : Type) where
  encode : α → Document
  decode : Document → Option α
  decode_encode (a : α) : decode (encode a) = some a

namespace Codec

variable {α β : Type}

attribute [simp] decode_encode

theorem encode_injective (c : Codec α) : Function.Injective c.encode := by
  intro a b h
  have hread := congrArg c.decode h
  simpa using hread

def nat : Codec Nat where
  encode := .num
  decode
    | .num n => some n
    | _ => none
  decode_encode _ := rfl

def bool : Codec Bool where
  encode := .bool
  decode
    | .bool b => some b
    | _ => none
  decode_encode _ := rfl

def string : Codec String where
  encode := .str
  decode
    | .str s => some s
    | _ => none
  decode_encode _ := rfl

/-- Values that are written as those of another type. -/
def via (c : Codec β) (write : α → β) (read : β → Option α) (h : ∀ a, read (write a) = some a) :
    Codec α where
  encode a := c.encode (write a)
  decode d := (c.decode d).bind read
  decode_encode a := by simp [h]

def list (c : Codec α) : Codec (List α) where
  encode xs := .arr (xs.map c.encode)
  decode
    | .arr items => items.mapM c.decode
    | _ => none
  decode_encode xs := by
    induction xs with
    | nil => rfl
    | cons x xs ih =>
      simp only [List.map_cons, List.mapM_cons, decode_encode, Option.bind_eq_bind] at ih ⊢
      rw [ih]
      rfl

/-- `null`, or a value that is never written so. -/
def option (c : Codec α) (hnull : ∀ a, c.encode a ≠ .null) : Codec (Option α) where
  encode
    | none => .null
    | some a => c.encode a
  decode
    | .null => some none
    | d => (c.decode d).map some
  decode_encode
    | none => rfl
    | some a => by
      dsimp only
      split
      · exact absurd ‹_› (hnull a)
      · simp

/-- Read the member of this name. -/
def field (c : Codec α) (name : String) (d : Document) : Option α := (d.member name).bind c.decode

/-- Read the member of this name, or take the default where there is none. -/
def fieldOr (c : Codec α) (name : String) (default : α) (d : Document) : Option α :=
  match d.member name with
  | some v => c.decode v
  | none => some default

@[simp] theorem field_self (c : Codec α) (name : String) (a : α)
    (members : List (String × Document)) :
    c.field name (.obj ((name, c.encode a) :: members)) = some a := by
  simp [field]

@[simp] theorem field_ne (c : Codec α) {name other : String} (h : name ≠ other) (d : Document)
    (members : List (String × Document)) :
    c.field name (.obj ((other, d) :: members)) = c.field name (.obj members) := by
  simp [field, h]

@[simp] theorem fieldOr_self (c : Codec α) (name : String) (a default : α)
    (members : List (String × Document)) :
    c.fieldOr name default (.obj ((name, c.encode a) :: members)) = some a := by
  simp [fieldOr]

@[simp] theorem fieldOr_ne (c : Codec α) {name other : String} (h : name ≠ other) (d : Document)
    (default : α) (members : List (String × Document)) :
    c.fieldOr name default (.obj ((other, d) :: members)) =
      c.fieldOr name default (.obj members) := by
  simp [fieldOr, h]

section All

variable {ok : Nat ⊕ String → Bool}

@[simp] theorem all_nat {n : Nat} : (nat.encode n).all ok = ok (.inl n) := by
  simp [nat, Document.all]

@[simp] theorem all_bool {b : Bool} : (bool.encode b).all ok = true := rfl

@[simp] theorem all_string {s : String} : (string.encode s).all ok = ok (.inr s) := by
  simp [string, Document.all]

@[simp] theorem all_list {c : Codec α} {xs : List α} :
    ((list c).encode xs).all ok = xs.all fun a => (c.encode a).all ok := by
  induction xs with
  | nil => rfl
  | cons x xs ih =>
    simp only [list, Document.all, Document.leaves, List.map_cons, Document.leavesOfItems,
      List.all_append, List.all_cons] at ih ⊢
    rw [ih]

@[simp] theorem all_option {c : Codec α} {hnull : ∀ a, c.encode a ≠ .null} {o : Option α} :
    ((option c hnull).encode o).all ok = o.all fun a => (c.encode a).all ok := by
  cases o <;> rfl

end All

end Codec

end WalletKit.Machine
