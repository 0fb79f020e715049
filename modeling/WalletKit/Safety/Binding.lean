import WalletKit.Adapters.Stores
import WalletKit.Machine.Text
import WalletKit.Runtime.Toy

/-!
# What an intent's hash binds

The text that an intent is hashed as is the compact text of the document it is serialized as, so
it can be read in one way and determines every field. Where the hash has no collision among the
texts that are hashed, the hash of an intent and the id of a handle determine them too.
-/
namespace WalletKit

open Machine

namespace Json

section Escapes

/-- Read one character back. -/
def readEscape : List Char → Option (Char × List Char)
  | '\\' :: 'b' :: r => some (Char.ofNat 8, r)
  | '\\' :: 't' :: r => some (Char.ofNat 9, r)
  | '\\' :: 'n' :: r => some (Char.ofNat 10, r)
  | '\\' :: 'f' :: r => some (Char.ofNat 12, r)
  | '\\' :: 'r' :: r => some (Char.ofNat 13, r)
  | '\\' :: 'u' :: '0' :: '0' :: high :: low :: r => do
    let h ← Serde.digit high
    let l ← Serde.digit low
    return (Char.ofNat (16 * h + l), r)
  | '\\' :: c :: r => some (c, r)
  | c :: r => some (c, r)
  | [] => none

theorem readEscape_escape (c : Char) (r : List Char) :
    readEscape (escape c ++ r) = some (c, r) := by
  by_cases hcontrol : c.toNat < 32
  · obtain ⟨n, hn, rfl⟩ : ∃ n < 32, c = Char.ofNat n := ⟨_, hcontrol, (Char.ofNat_toNat c).symm⟩
    interval_cases n <;> rfl
  · by_cases hquote : c = '"'
    · subst hquote
      rfl
    by_cases hback : c = '\\'
    · subst hback
      rfl
    -- any other character stands for itself
    have hself : escape c = [c] := by
      rw [escape, if_neg hquote, if_neg hback, if_neg (by omega), if_neg (by omega),
        if_neg (by omega), if_neg (by omega), if_neg (by omega), if_neg hcontrol]
    rw [hself, List.singleton_append, readEscape.eq_def]
    split <;> simp_all

theorem escape_readable : Readable escape := .of_read readEscape readEscape_escape

/-- No character is written with a quote first. -/
theorem escape_opens (c : Char) : ∃ d ds, escape c = d :: ds ∧ d ≠ '"' := by
  unfold escape
  split_ifs with hquote
  all_goals first | exact ⟨_, _, rfl, by decide⟩ | exact ⟨_, _, rfl, hquote⟩

theorem string_readable : Readable string := by
  intro s t r r' h
  simp only [string, quoted, List.cons_append, List.cons.injEq, true_and] at h
  obtain ⟨hchars, hrest⟩ := escape_readable.sequence escape_opens h
  exact ⟨String.toList_inj.mp hchars, hrest⟩

/-- How `serde_json` writes strings. -/
def quoting : Quoting := ⟨string, fun _ => ⟨_, rfl⟩, string_readable⟩

end Escapes

section Digits

theorem escape_hex {c : Char} (h : IsHex c) : escape c = [c] := by
  obtain ⟨d, hd, rfl⟩ := h
  interval_cases d <;> rfl

/-- Hex texts need no escapes. -/
theorem string_prefixed {cs : List Char} (h : ∀ c ∈ cs, IsHex c) :
    string (Serde.prefixed cs) = quoted ('0' :: 'x' :: cs) := by
  have hplain : cs.flatMap escape = cs := by
    rw [List.flatMap_congr fun c hc => escape_hex (h c hc), List.flatMap_singleton']
  have hx : ('0' :: 'x' :: cs).flatMap escape = '0' :: 'x' :: cs.flatMap escape := rfl
  rw [string, Serde.prefixed, String.toList_ofList, hx, hplain]

theorem string_bytes (bs : Bytes) : string (Serde.prefixed (hex bs)) = bytes bs :=
  string_prefixed fun _ => isHex_hex

theorem string_quantity (n : Nat) : string (Serde.prefixed (Nat.toDigits 16 n)) = quantity n :=
  string_prefixed fun _ => isHex_toDigits

end Digits

end Json

namespace TxIntent

section Text

open Document (text_null text_num text_str text_obj_cons textOfMembers_cons textOfMembers_nil)

theorem text_bytes (bs : Bytes) : (Serde.bytes.encode bs).text Json.quoting = Json.bytes bs :=
  (text_str _ _).trans (Json.string_bytes bs)

theorem text_address (a : Address) :
    (Serde.address.encode a).text Json.quoting = Json.address a :=
  text_bytes _

theorem text_u256 (n : Nat) : (Serde.u256.encode n).text Json.quoting = Json.quantity n :=
  (text_str _ _).trans (Json.string_quantity n)

theorem text_txKind (k : TxKind) :
    (Serde.txKind.encode k).text Json.quoting = Json.orNull Json.address k.toOption := by
  cases k with
  | create => exact text_null _
  | call a => exact text_address a

theorem text_purpose (purpose : Option String) :
    (Serde.text?.encode purpose).text Json.quoting = Json.orNull Json.string purpose := by
  cases purpose with
  | none => exact text_null _
  | some s => exact text_str _ s

theorem quote_key (name : String) (h : name.toList.flatMap Json.escape = name.toList)
    (r : List Char) : Json.quoting.quote name ++ ':' :: r = Json.key name ++ r := by
  rw [Json.key, ← h, List.append_assoc]
  rfl

/-- The text of an intent is that of its document. -/
theorem json_eq_text (i : TxIntent) : i.json = (Serde.txIntent.encode i).text Json.quoting := by
  have hnat : (Codec.nat.encode i.chainId).text Json.quoting = Nat.toDigits 10 i.chainId :=
    text_num _ _
  have hopen : "\x7b".toList = ['\x7b'] := rfl
  have hclose : "\x7d".toList = ['\x7d'] := rfl
  rw [Serde.txIntent, text_obj_cons, hnat, textOfMembers_cons, text_address, textOfMembers_cons,
    text_txKind, textOfMembers_cons, text_u256, textOfMembers_cons, text_bytes, textOfMembers_cons,
    text_purpose, textOfMembers_nil]
  rw [quote_key "chain_id" rfl, quote_key "account" rfl, quote_key "to" rfl, quote_key "value" rfl,
    quote_key "input" rfl, quote_key "purpose" rfl]
  unfold json
  simp only [hopen, hclose, List.append_assoc, List.cons_append, List.nil_append]

end Text

theorem json_injective : Function.Injective json := by
  intro i j h
  rw [json_eq_text, json_eq_text] at h
  have hnil : Ends [] := by simp [Ends]
  have hdoc := (Document.text_append_inj _ _ hnil hnil (congrArg (· ++ []) h)).1
  exact Serde.txIntent.encode_injective hdoc

/-- `serde_json::to_vec`: the bytes that are hashed. -/
def encoding (i : TxIntent) : Bytes := i.json.flatMap String.utf8EncodeChar

theorem encoding_injective : Function.Injective encoding := by
  intro i j h
  have hdecode : i.json.utf8Encode.utf8Decode? = j.json.utf8Encode.utf8Decode? :=
    congrArg (fun bytes : Bytes => bytes.toByteArray.utf8Decode?) h
  rw [List.utf8Decode?_utf8Encode, List.utf8Decode?_utf8Encode, Option.some.injEq] at hdecode
  exact json_injective (List.toArray_inj hdecode)

theorem hash_eq [Alloy] (i : TxIntent) : i.hash = keccak256 i.encoding := rfl

end TxIntent

/-- The forty bytes that an id is the hash of. -/
def HandleId.buffer (intentHash : B256) (nonce : U64) : Bytes :=
  beBytes 32 intentHash.toNat ++ beBytes 8 nonce

theorem HandleId.buffer_inj {h h' : B256} {m n : U64}
    (heq : HandleId.buffer h m = HandleId.buffer h' n) : h = h' ∧ m = n := by
  obtain ⟨hhash, hnonce⟩ := List.append_inj heq (by simp)
  refine ⟨HandleId.asBytes_inj.mp hhash, Subtype.ext ?_⟩
  have hvalue := congrArg beNat hnonce
  have hm : m.val < 256 ^ 8 := m.2.trans_eq (by norm_num)
  have hn : n.val < 256 ^ 8 := n.2.trans_eq (by norm_num)
  rwa [Serde.beNat_beBytes, Serde.beNat_beBytes, Nat.mod_eq_of_lt hm, Nat.mod_eq_of_lt hn] at hvalue

/-- The hash of different inputs among these differs. -/
def CollisionFree [Alloy] (inputs : Set Bytes) : Prop := Set.InjOn keccak256 inputs

namespace CollisionFree

variable [Alloy] {inputs : Set Bytes}

theorem hash_injOn (hfree : CollisionFree inputs) :
    Set.InjOn TxIntent.hash {i | i.encoding ∈ inputs} := by
  intro i hi j hj h
  rw [TxIntent.hash_eq, TxIntent.hash_eq] at h
  exact TxIntent.encoding_injective (hfree hi hj h)

theorem id_inj (hfree : CollisionFree inputs) {i j : TxIntent} {m n : U64}
    (hi : i.encoding ∈ inputs ∧ HandleId.buffer i.hash m ∈ inputs)
    (hj : j.encoding ∈ inputs ∧ HandleId.buffer j.hash n ∈ inputs)
    (h : HandleId.new i.hash m = HandleId.new j.hash n) : i = j ∧ m = n := by
  obtain ⟨hsame, hnonce⟩ := HandleId.buffer_inj (hfree hi.2 hj.2 h)
  exact ⟨hfree.hash_injOn hi.1 hj.1 hsame, hnonce⟩

end CollisionFree

/-- The bytes an intent is hashed as determine it. As far as the hash has no collision, so do its
hash and, with the nonce, the id of a handle for it. -/
theorem hash_binds_intent [Alloy] :
    Function.Injective TxIntent.encoding ∧
      ∀ inputs : Set Bytes, CollisionFree inputs →
        Set.InjOn TxIntent.hash {i | i.encoding ∈ inputs} ∧
        Set.InjOn (fun p : TxIntent × U64 => HandleId.new p.1.hash p.2)
          {p | p.1.encoding ∈ inputs ∧ HandleId.buffer p.1.hash p.2 ∈ inputs} := by
  refine ⟨TxIntent.encoding_injective, fun inputs hfree => ⟨hfree.hash_injOn, ?_⟩⟩
  rintro ⟨i, m⟩ hi ⟨j, n⟩ hj h
  obtain ⟨rfl, rfl⟩ := hfree.id_inj hi hj h
  rfl

section Witness

attribute [local instance] Toy.alloy

/-- A transfer with a label that has to be escaped. -/
def Toy.labelled : TxIntent := { Toy.intent with purpose := some "\"" }

/-- All that is hashed for two intents and their handles. -/
def Toy.hashed : List Bytes :=
  [Toy.intent.encoding, Toy.labelled.encoding,
    HandleId.buffer Toy.intent.hash ⟨0, by norm_num⟩,
    HandleId.buffer Toy.labelled.hash ⟨1, by norm_num⟩]

theorem hash_binds_intent_labelled :
    Toy.intent.encoding ≠ Toy.labelled.encoding ∧
      Set.InjOn TxIntent.hash {i | i.encoding ∈ Toy.hashed} ∧
      Set.InjOn (fun p : TxIntent × U64 => HandleId.new p.1.hash p.2)
        {p | p.1.encoding ∈ Toy.hashed ∧ HandleId.buffer p.1.hash p.2 ∈ Toy.hashed} := by
  have hfree : CollisionFree {bytes | bytes ∈ Toy.hashed} := by
    have h : ∀ a ∈ Toy.hashed, ∀ b ∈ Toy.hashed, Toy.hash a = Toy.hash b → a = b := by
      decide +kernel
    exact fun a ha b hb => h a ha b hb
  refine ⟨fun h => ?_, hash_binds_intent.2 {bytes | bytes ∈ Toy.hashed} hfree⟩
  cases congrArg TxIntent.purpose (hash_binds_intent.1 h)

end Witness

end WalletKit
