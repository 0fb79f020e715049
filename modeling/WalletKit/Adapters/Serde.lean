import WalletKit.Core.Primitives
import WalletKit.Machine.Document

/-!
# How records are serialized

The documents the derived serializers write: structures as objects in the order of their
fields, enumerations under the names of their variants, words and byte strings as hex texts and
`U256` values as quantities. An optional field and a field with a default may be missing when
it is read. Numbers and quantities are read without a bound: the documents that are read were
written from values within their types, which `Typed` names.
-/
namespace WalletKit.Serde

open Machine

section Hex

/-- The value of a hex digit. -/
def digit : Char → Option Nat
  | '0' => some 0 | '1' => some 1 | '2' => some 2 | '3' => some 3
  | '4' => some 4 | '5' => some 5 | '6' => some 6 | '7' => some 7
  | '8' => some 8 | '9' => some 9 | 'a' => some 10 | 'b' => some 11
  | 'c' => some 12 | 'd' => some 13 | 'e' => some 14 | 'f' => some 15
  | _ => none

theorem digit_digitChar {d : Nat} (h : d < 16) : digit (Nat.digitChar d) = some d := by
  interval_cases d <;> rfl

/-- The bytes that pairs of digits spell. -/
def readHex : List Char → Option Bytes
  | [] => some []
  | [_] => none
  | high :: low :: rest => do
    let h ← digit high
    let l ← digit low
    let bytes ← readHex rest
    return UInt8.ofNat (16 * h + l) :: bytes

theorem readHex_hex (bytes : Bytes) : readHex (Json.hex bytes) = some bytes := by
  induction bytes with
  | nil => rfl
  | cons b bytes ih =>
    have hb : b.toNat < 256 := b.toNat_lt
    have hhigh := digit_digitChar (show b.toNat / 16 < 16 by omega)
    have hlow := digit_digitChar (show b.toNat % 16 < 16 by omega)
    have hvalue : UInt8.ofNat (16 * (b.toNat / 16) + b.toNat % 16) = b := by
      rw [Nat.div_add_mod, UInt8.ofNat_toNat]
    simp only [Json.hex, List.flatMap_cons, List.cons_append, List.nil_append] at ih ⊢
    simp only [readHex, hhigh, hlow, ih, Option.bind_eq_bind, Option.bind_some, hvalue]
    rfl

/-- The number that digits spell. -/
def readDigits (digits : List Char) : Option Nat :=
  digits.foldlM (fun n c => (digit c).map fun d => 16 * n + d) 0

theorem readDigits_toDigits (n : Nat) : readDigits (Nat.toDigits 16 n) = some n := by
  induction n using Nat.strong_induction_on with
  | _ n ih =>
    by_cases hn : n < 16
    · rw [Nat.toDigits_of_lt_base hn]
      simp [readDigits, digit_digitChar hn]
    · have hdiv : n / 16 < n := by omega
      rw [Nat.toDigits_of_base_le (by norm_num) (by omega)]
      have hstep := ih (n / 16) hdiv
      unfold readDigits at hstep ⊢
      rw [List.foldlM_append, hstep]
      simp [digit_digitChar (Nat.mod_lt n (by norm_num : 0 < 16)), Nat.div_add_mod]

theorem beBytes_succ (width n : Nat) :
    beBytes (width + 1) n = beBytes width (n / 256) ++ [UInt8.ofNat n] := by
  simp [beBytes, List.range_succ_eq_map, List.map_reverse, Function.comp_def, pow_succ',
    Nat.div_div_eq_div_mul]

@[simp] theorem length_beBytes (width n : Nat) : (beBytes width n).length = width := by
  simp [beBytes]

theorem beNat_beBytes (width n : Nat) : beNat (beBytes width n) = n % 256 ^ width := by
  induction width generalizing n with
  | zero => simp [beBytes, beNat, Nat.mod_one]
  | succ width ih =>
    have hlast : ∀ bytes b, beNat (bytes ++ [b]) = 256 * beNat bytes + b.toNat := by simp [beNat]
    rw [beBytes_succ, hlast, ih, pow_succ', Nat.mod_mul]
    simp only [UInt8.toNat_ofNat']
    omega

theorem toNat_lt_pow {width : Nat} (w : BitVec (8 * width)) : w.toNat < 256 ^ width := by
  have h := w.isLt
  rwa [pow_mul] at h

theorem beNat_beBytes_toNat {width : Nat} (w : BitVec (8 * width)) :
    beNat (beBytes width w.toNat) = w.toNat := by
  rw [beNat_beBytes, Nat.mod_eq_of_lt (toNat_lt_pow w)]

theorem beBytes_toNat_inj {width : Nat} {v w : BitVec (8 * width)} :
    beBytes width v.toNat = beBytes width w.toNat ↔ v = w := by
  refine ⟨fun h => BitVec.eq_of_toNat_eq ?_, fun h => h ▸ rfl⟩
  rw [← beNat_beBytes_toNat v, h, beNat_beBytes_toNat]

theorem hex_inj {bs bs' : Bytes} : Json.hex bs = Json.hex bs' ↔ bs = bs' := by
  refine ⟨fun h => ?_, fun h => h ▸ rfl⟩
  have hread := readHex_hex bs
  rw [h, readHex_hex] at hread
  exact (Option.some.inj hread).symm

/-- `0x` and what follows it. -/
def prefixed (cs : List Char) : String := String.ofList ('0' :: 'x' :: cs)

def unprefixed (s : String) : Option (List Char) :=
  match s.toList with
  | '0' :: 'x' :: cs => some cs
  | _ => none

@[simp] theorem unprefixed_prefixed (cs : List Char) : unprefixed (prefixed cs) = some cs := by
  simp [unprefixed, prefixed]

end Hex

section Words

def bytes : Codec Bytes :=
  Codec.string.via (fun bs => prefixed (Json.hex bs)) (fun s => (unprefixed s).bind readHex)
    fun bs => by simp [readHex_hex]

/-- The words of `width` bytes. -/
def word (width : Nat) : Codec (BitVec (8 * width)) :=
  bytes.via (fun w => beBytes width w.toNat)
    (fun bs => if bs.length = width then some (BitVec.ofNat _ (beNat bs)) else none)
    fun w => by simp [beNat_beBytes_toNat]

def address : Codec Address := word 20
def b256 : Codec B256 := word 32

def u256 : Codec Nat :=
  Codec.string.via (fun n => prefixed (Nat.toDigits 16 n))
    (fun s => (unprefixed s).bind readDigits)
    fun n => by simp [readDigits_toDigits]

def text? : Codec (Option String) := Codec.option Codec.string (by simp [Codec.string])

def number? : Codec (Option Nat) := Codec.option Codec.nat (by simp [Codec.nat])

/-- `null` for a creation. -/
def txKind : Codec TxKind :=
  (Codec.option address (by simp [address, word, bytes, Codec.via, Codec.string])).via
    TxKind.toOption
    (fun
      | none => some .create
      | some a => some (.call a))
    fun k => by cases k <;> rfl

end Words

section Records

def txIntent : Codec TxIntent where
  encode i := .obj [("chain_id", Codec.nat.encode i.chainId),
    ("account", address.encode i.account),
    ("to", txKind.encode i.to),
    ("value", u256.encode i.value),
    ("input", bytes.encode i.input),
    ("purpose", text?.encode i.purpose)]
  decode d := do
    return {
      chainId := ← Codec.nat.field "chain_id" d
      account := ← address.field "account" d
      «to» := ← txKind.field "to" d
      value := ← u256.field "value" d
      input := ← bytes.field "input" d
      purpose := ← text?.fieldOr "purpose" none d }
  decode_encode i := by simp

def txStatus : Codec TxStatus where
  encode
    | .pending => .str "Pending"
    | .sent => .str "Sent"
    | .mined block blockHash => .obj [("Mined", .obj [("block", Codec.nat.encode block),
        ("block_hash", b256.encode blockHash)])]
    | .replacing sinceBlock => .obj [("Replacing",
        .obj [("since_block", Codec.nat.encode sinceBlock)])]
    | .confirmed block => .obj [("Confirmed", .obj [("block", Codec.nat.encode block)])]
    | .failed reason => .obj [("Failed", .obj [("reason", Codec.string.encode reason)])]
    | .replaced => .str "Replaced"
    | .dropped => .str "Dropped"
  decode
    | .str "Pending" => some .pending
    | .str "Sent" => some .sent
    | .str "Replaced" => some .replaced
    | .str "Dropped" => some .dropped
    | .obj [("Mined", d)] => do
      return .mined (← Codec.nat.field "block" d) (← b256.field "block_hash" d)
    | .obj [("Replacing", d)] => .replacing <$> Codec.nat.field "since_block" d
    | .obj [("Confirmed", d)] => .confirmed <$> Codec.nat.field "block" d
    | .obj [("Failed", d)] => .failed <$> Codec.string.field "reason" d
    | _ => none
  decode_encode status := by cases status <;> simp

def gasEnvelope : Codec GasEnvelope where
  encode e := .obj [("max_fee_cap", Codec.nat.encode e.maxFeeCap),
    ("max_priority_cap", Codec.nat.encode e.maxPriorityCap)]
  decode d := do
    return ⟨← Codec.nat.field "max_fee_cap" d, ← Codec.nat.field "max_priority_cap" d⟩
  decode_encode e := by simp

def escalation : Codec Escalation where
  encode
    | .stayPrivate => .str "StayPrivate"
    | .publicAfter cycles => .obj [("PublicAfter", .obj [("cycles", Codec.nat.encode cycles)])]
  decode
    | .str "StayPrivate" => some .stayPrivate
    | .obj [("PublicAfter", d)] => .publicAfter <$> Codec.nat.field "cycles" d
    | _ => none
  decode_encode e := by cases e <;> simp

def hints : Codec Hints where
  encode h := .obj [("calldata", Codec.bool.encode h.calldata),
    ("logs", Codec.bool.encode h.logs),
    ("function_selector", Codec.bool.encode h.functionSelector),
    ("contract_address", Codec.bool.encode h.contractAddress)]
  decode d := do
    return {
      calldata := ← Codec.bool.field "calldata" d
      logs := ← Codec.bool.field "logs" d
      functionSelector := ← Codec.bool.field "function_selector" d
      contractAddress := ← Codec.bool.field "contract_address" d }
  decode_encode h := by simp

def flashbots : Codec Flashbots where
  encode f := .obj [("escalation", escalation.encode f.escalation),
    ("block_window", number?.encode f.blockWindow),
    ("fast", Codec.bool.encode f.fast),
    ("hints", hints.encode f.hints)]
  decode d := do
    return {
      escalation := ← escalation.field "escalation" d
      blockWindow := ← number?.fieldOr "block_window" none d
      fast := ← Codec.bool.field "fast" d
      hints := ← hints.field "hints" d }
  decode_encode f := by simp

def protectRelay : Codec ProtectRelay where
  encode
    | .mevBlocker => .str "MevBlocker"
    | .bloxroute => .str "Bloxroute"
    | .custom url => .obj [("Custom", Codec.string.encode url)]
  decode
    | .str "MevBlocker" => some .mevBlocker
    | .str "Bloxroute" => some .bloxroute
    | .obj [("Custom", d)] => .custom <$> Codec.string.decode d
    | _ => none
  decode_encode r := by cases r <;> simp

def protect : Codec Protect where
  encode p := .obj [("relay", protectRelay.encode p.relay),
    ("escalation", escalation.encode p.escalation)]
  decode d := do
    return ⟨← protectRelay.field "relay" d, ← escalation.field "escalation" d⟩
  decode_encode p := by simp

def privateRoute : Codec PrivateRoute where
  encode
    | .flashbots f => .obj [("Flashbots", flashbots.encode f)]
    | .protect p => .obj [("Protect", protect.encode p)]
  decode
    | .obj [("Flashbots", d)] => .flashbots <$> flashbots.decode d
    | .obj [("Protect", d)] => .protect <$> protect.decode d
    | _ => none
  decode_encode r := by cases r <;> simp

def submissionRoute : Codec SubmissionRoute where
  encode
    | .public => .str "Public"
    | .private route => .obj [("Private", privateRoute.encode route)]
  decode
    | .str "Public" => some .public
    | .obj [("Private", d)] => .private <$> privateRoute.decode d
    | _ => none
  decode_encode r := by cases r <;> simp

def submissionOpts : Codec SubmissionOpts where
  encode o := .obj [("route", submissionRoute.encode o.route)]
  decode d := .mk <$> submissionRoute.field "route" d
  decode_encode o := by simp

def metaContext : Codec MetaContext where
  encode m := .obj [("forwarder", address.encode m.forwarder),
    ("signer", address.encode m.signer),
    ("nonce", u256.encode m.nonce),
    ("task", text?.encode m.task)]
  decode d := do
    return {
      forwarder := ← address.field "forwarder" d
      signer := ← address.field "signer" d
      nonce := ← u256.field "nonce" d
      task := ← text?.fieldOr "task" none d }
  decode_encode m := by simp

def metaContext? : Codec (Option MetaContext) :=
  Codec.option metaContext (by simp [metaContext])

def txHandle : Codec TxHandle where
  encode h := .obj [("id", b256.encode h.id),
    ("account", address.encode h.account),
    ("intent", txIntent.encode h.intent),
    ("intent_hash", b256.encode h.intentHash),
    ("nonce", Codec.nat.encode h.nonce),
    ("status", txStatus.encode h.status),
    ("envelope", gasEnvelope.encode h.envelope),
    ("signed", bytes.encode h.signed),
    ("broadcasts", (Codec.list b256).encode h.broadcasts),
    ("last_broadcast_at", Codec.nat.encode h.lastBroadcastAt),
    ("cancelled", Codec.bool.encode h.cancelled),
    ("submission", submissionOpts.encode h.submission),
    ("meta", metaContext?.encode h.meta)]
  decode d := do
    return {
      id := ← b256.field "id" d
      account := ← address.field "account" d
      intent := ← txIntent.field "intent" d
      intentHash := ← b256.field "intent_hash" d
      nonce := ← Codec.nat.field "nonce" d
      status := ← txStatus.field "status" d
      envelope := ← gasEnvelope.field "envelope" d
      signed := ← bytes.field "signed" d
      broadcasts := ← (Codec.list b256).field "broadcasts" d
      lastBroadcastAt := ← Codec.nat.field "last_broadcast_at" d
      cancelled := ← Codec.bool.fieldOr "cancelled" false d
      submission := ← submissionOpts.fieldOr "submission" .default d
      «meta» := ← metaContext?.fieldOr "meta" none d }
  decode_encode h := by simp

/-- The set of freed nonces is written in its order. -/
def nonceState : Codec NonceState where
  encode s := .obj [("next", Codec.nat.encode s.next),
    ("free", (Codec.list Codec.nat).encode (s.free.sort (· ≤ ·)))]
  decode d := do
    return ⟨← Codec.nat.field "next" d, ((← (Codec.list Codec.nat).field "free" d)).toFinset⟩
  decode_encode s := by simp

end Records

end WalletKit.Serde

namespace WalletKit

open Machine

section Leaves

def TxStatus.numbers : TxStatus → List Nat
  | .mined block _ | .replacing block | .confirmed block => [block]
  | _ => []

def TxStatus.texts : TxStatus → List String
  | .failed reason => [reason]
  | _ => []

def Escalation.numbers : Escalation → List Nat
  | .stayPrivate => []
  | .publicAfter cycles => [cycles]

def SubmissionRoute.numbers : SubmissionRoute → List Nat
  | .public => []
  | .private (.flashbots f) => f.escalation.numbers ++ f.blockWindow.toList
  | .private (.protect p) => p.escalation.numbers

def SubmissionRoute.texts : SubmissionRoute → List String
  | .private (.protect ⟨.custom url, _⟩) => [url]
  | _ => []

/-- The numbers of a record that are written as numbers, its gas caps aside. -/
def TxHandle.numbers (h : TxHandle) : List Nat :=
  h.intent.chainId :: h.nonce :: h.lastBroadcastAt ::
    (h.status.numbers ++ h.submission.route.numbers)

/-- The texts of a record that its makers choose. -/
def TxHandle.texts (h : TxHandle) : List String :=
  h.intent.purpose.toList ++ h.status.texts ++ h.submission.route.texts ++ h.task?.toList

end Leaves

namespace Json

/-- The digits of bytes and of quantities. -/
def IsHex (c : Char) : Prop := ∃ d < 16, c = Nat.digitChar d

theorem isHex_hex {bs : Bytes} {c : Char} (h : c ∈ hex bs) : IsHex c := by
  obtain ⟨b, -, hc⟩ := List.mem_flatMap.mp h
  have hb : b.toNat < 256 := b.toNat_lt
  simp only [List.mem_cons, List.not_mem_nil, or_false] at hc
  obtain rfl | rfl := hc
  · exact ⟨_, by omega, rfl⟩
  · exact ⟨_, by omega, rfl⟩

theorem isHex_toDigits {n : Nat} {c : Char} (h : c ∈ Nat.toDigits 16 n) : IsHex c := by
  induction n using Nat.strong_induction_on with
  | _ n ih =>
    by_cases hn : n < 16
    · rw [Nat.toDigits_of_lt_base hn, List.mem_singleton] at h
      exact ⟨n, hn, h⟩
    · rw [Nat.toDigits_of_base_le (by norm_num) (by omega), List.mem_append,
        List.mem_singleton] at h
      obtain h | rfl := h
      · exact ih (n / 16) (by omega) h
      · exact ⟨_, Nat.mod_lt _ (by norm_num), rfl⟩

end Json

namespace Serde

section Leaves

variable {ok : Nat ⊕ String → Bool}

theorem all_text? (o : Option String) :
    (text?.encode o).all ok = o.toList.all fun t => ok (.inr t) := by
  cases o with
  | none => rfl
  | some t => exact Codec.all_string.trans (by simp)

theorem all_number? (o : Option Nat) :
    (number?.encode o).all ok = o.toList.all fun n => ok (.inl n) := by
  cases o with
  | none => rfl
  | some n => exact Codec.all_nat.trans (by simp)

/-- The names of variants that are written as texts. -/
def tags : List String :=
  ["Pending", "Sent", "Replaced", "Dropped", "StayPrivate", "MevBlocker", "Bloxroute", "Public"]

/-- The texts that are not of anyone's choosing are fine. -/
structure Plain (ok : Nat ⊕ String → Bool) : Prop where
  bytes (bs : Bytes) : (bytes.encode bs).all ok
  u256 (n : Nat) : (u256.encode n).all ok
  tag : ∀ t ∈ tags, ok (.inr t)

namespace Plain

variable (plain : Plain ok)
include plain

theorem word {width : Nat} (w : BitVec (8 * width)) : ((word width).encode w).all ok :=
  plain.bytes _

theorem address (a : Address) : (address.encode a).all ok := @word _ plain 20 a

theorem b256 (w : B256) : (b256.encode w).all ok := @word _ plain 32 w

theorem txKind (k : TxKind) : (txKind.encode k).all ok := by
  cases k with
  | create => rfl
  | call a => exact plain.address a

theorem txStatus (status : TxStatus) :
    (txStatus.encode status).all ok =
      (status.numbers.all (fun n => ok (.inl n)) && status.texts.all fun t => ok (.inr t)) := by
  have htag := plain.tag
  cases status <;>
    simp_all [Serde.txStatus, TxStatus.numbers, TxStatus.texts, plain.b256, tags]

theorem escalation (e : Escalation) :
    (escalation.encode e).all ok = e.numbers.all fun n => ok (.inl n) := by
  have htag := plain.tag
  cases e <;> simp_all [Serde.escalation, Escalation.numbers, tags]

theorem flashbots (f : Flashbots) :
    (flashbots.encode f).all ok =
      (f.escalation.numbers ++ f.blockWindow.toList).all fun n => ok (.inl n) := by
  obtain ⟨e, window, fast, ⟨_, _, _, _⟩⟩ := f
  simp only [Serde.flashbots, Document.all_obj_cons, plain.escalation, hints, all_number?,
    Codec.all_bool, Document.all_obj_nil, List.all_append, Bool.and_true]

theorem protect (p : Protect) :
    (protect.encode p).all ok =
      (p.escalation.numbers.all (fun n => ok (.inl n)) &&
        (SubmissionRoute.private (.protect p)).texts.all fun t => ok (.inr t)) := by
  have htag := plain.tag
  obtain ⟨relay, e⟩ := p
  simp only [Serde.protect, Document.all_obj_cons, plain.escalation, Document.all_obj_nil,
    Bool.and_true]
  rw [Bool.and_comm]
  congr 1
  cases relay <;> simp_all [protectRelay, SubmissionRoute.texts, tags]

theorem submissionOpts (o : SubmissionOpts) :
    (submissionOpts.encode o).all ok =
      (o.route.numbers.all (fun n => ok (.inl n)) && o.route.texts.all fun t => ok (.inr t)) := by
  have htag : ok (.inr "Public") := plain.tag _ (by decide)
  obtain ⟨_ | ⟨f | p⟩⟩ := o <;>
    simp only [Serde.submissionOpts, Document.all_obj_cons, Document.all_obj_nil, submissionRoute,
      privateRoute, Document.all_str, htag, plain.flashbots, plain.protect, Bool.and_true] <;>
    simp [SubmissionRoute.numbers, SubmissionRoute.texts]

theorem metaContext? (m : Option MetaContext) :
    (metaContext?.encode m).all ok = (m.bind (·.task)).toList.all fun t => ok (.inr t) := by
  cases m with
  | none => rfl
  | some m =>
    simp only [Serde.metaContext?, Codec.all_option, Option.all_some, metaContext,
      Document.all_obj_cons, plain.address, plain.u256, all_text?, Document.all_obj_nil,
      Option.bind_some, Bool.and_true, Bool.true_and]

theorem txIntent (i : TxIntent) :
    (txIntent.encode i).all ok =
      (ok (.inl i.chainId) && i.purpose.toList.all fun t => ok (.inr t)) := by
  simp only [Serde.txIntent, Document.all_obj_cons, plain.address, plain.u256, plain.txKind,
    plain.bytes, all_text?, Codec.all_nat, Document.all_obj_nil, Bool.and_true, Bool.true_and]

/-- Whether a record can be written is a question of its numbers, gas caps and texts. -/
theorem txHandle (h : TxHandle) :
    (txHandle.encode h).all ok =
      ((h.envelope.maxFeeCap :: h.envelope.maxPriorityCap :: h.numbers).all
        (fun n => ok (.inl n)) &&
        h.texts.all fun t => ok (.inr t)) := by
  simp only [Serde.txHandle, Document.all_obj_cons, plain.address, plain.b256, plain.bytes,
    plain.txIntent, plain.txStatus, plain.submissionOpts, plain.metaContext?, gasEnvelope,
    Codec.all_list, Codec.all_nat, Codec.all_bool, Document.all_obj_nil, TxHandle.numbers,
    TxHandle.texts, TxHandle.task?, List.all_cons, List.all_append, Bool.and_true, Bool.true_and]
  have hbroadcasts : (h.broadcasts.all fun _ => true) = true := by simp
  rw [hbroadcasts]
  ac_rfl

end Plain

end Leaves

section Limits

/-- What the serializer into a `Value` takes: integers of at most 64 bits. -/
def fits : Nat ⊕ String → Bool
  | .inl n => n < 2 ^ 64
  | .inr _ => true

/-- What a `JSONB` column takes: texts without the character `U+0000`. -/
def storable : Nat ⊕ String → Bool
  | .inl _ => true
  | .inr s => !s.toList.contains '\x00'

theorem plain_fits : Plain fits where
  bytes _ := Codec.all_string
  u256 _ := Codec.all_string
  tag _ _ := rfl

theorem not_isHex_nul : ¬ Json.IsHex '\x00' := by
  rintro ⟨d, hd, he⟩
  have hdigit := digit_digitChar hd
  rw [← he] at hdigit
  cases hdigit

theorem storable_prefixed {cs : List Char} (h : ∀ c ∈ cs, Json.IsHex c) :
    storable (.inr (prefixed cs)) := by
  have hnul : '\x00' ∉ cs := fun hmem => not_isHex_nul (h _ hmem)
  simpa [storable, prefixed] using hnul

theorem plain_storable : Plain storable where
  bytes _ := Codec.all_string.trans (storable_prefixed fun _ => Json.isHex_hex)
  u256 _ := Codec.all_string.trans (storable_prefixed fun _ => Json.isHex_toDigits)
  tag := by decide

end Limits

end Serde

section Typed

def Escalation.Typed (e : Escalation) : Prop := ∀ n ∈ e.numbers, n < 2 ^ 8

def SubmissionRoute.Typed : SubmissionRoute → Prop
  | .public => True
  | .private (.flashbots f) => f.escalation.Typed ∧ ∀ n ∈ f.blockWindow, n < 2 ^ 64
  | .private (.protect p) => p.escalation.Typed

/-- A record whose numbers are within their types in the source. -/
structure TxHandle.Typed (h : TxHandle) : Prop where
  chainId : h.intent.chainId < 2 ^ 64
  value : h.intent.value < 2 ^ 256
  nonce : h.nonce < 2 ^ 64
  status : ∀ n ∈ h.status.numbers, n < 2 ^ 64
  maxFeeCap : h.envelope.maxFeeCap < 2 ^ 128
  maxPriorityCap : h.envelope.maxPriorityCap < 2 ^ 128
  lastBroadcastAt : h.lastBroadcastAt < 2 ^ 64
  route : h.submission.route.Typed
  metaNonce : ∀ m ∈ h.meta, m.nonce < 2 ^ 256

structure NonceState.Typed (s : NonceState) : Prop where
  next : s.next < 2 ^ 64
  free : ∀ n ∈ s.free, n < 2 ^ 64

theorem SubmissionRoute.Typed.numbers {r : SubmissionRoute} (h : r.Typed) :
    ∀ n ∈ r.numbers, n < 2 ^ 64 := by
  have hcycles : ∀ {e : Escalation}, e.Typed → ∀ n ∈ e.numbers, n < 2 ^ 64 :=
    fun he n hn => (he n hn).trans (by norm_num)
  obtain _ | ⟨f | p⟩ := r
  · simp [SubmissionRoute.numbers]
  · intro n hn
    obtain hn | hn := List.mem_append.mp hn
    · exact hcycles h.1 n hn
    · exact h.2 n (Option.mem_toList.mp hn)
  · exact hcycles h

/-- A record as its type allows it is taken by the `Value` serializer iff its gas caps are. -/
theorem TxHandle.Typed.fits_iff {h : TxHandle} (ht : h.Typed) :
    (Serde.txHandle.encode h).all Serde.fits = true ↔
      h.envelope.maxFeeCap < 2 ^ 64 ∧ h.envelope.maxPriorityCap < 2 ^ 64 := by
  have hnumbers : ∀ n ∈ h.numbers, n < 2 ^ 64 := by
    simp only [TxHandle.numbers, List.mem_cons, List.mem_append]
    rintro n (rfl | rfl | rfl | hn | hn)
    · exact ht.chainId
    · exact ht.nonce
    · exact ht.lastBroadcastAt
    · exact ht.status n hn
    · exact ht.route.numbers n hn
  rw [Serde.plain_fits.txHandle]
  simp only [Serde.fits, List.all_cons, Bool.and_eq_true, decide_eq_true_eq, List.all_eq_true]
  exact ⟨fun k => ⟨k.1.1, k.1.2.1⟩, fun k => ⟨⟨k.1, k.2, hnumbers⟩, fun _ _ => trivial⟩⟩

theorem TxHandle.storable_iff {h : TxHandle} :
    (Serde.txHandle.encode h).all Serde.storable = true ↔ ∀ t ∈ h.texts, '\x00' ∉ t.toList := by
  rw [Serde.plain_storable.txHandle]
  simp [Serde.storable]

theorem NonceState.Typed.fits {s : NonceState} (h : s.Typed) :
    (Serde.nonceState.encode s).all Serde.fits = true := by
  simp only [Serde.nonceState, Document.all_obj_cons, Codec.all_nat, Codec.all_list,
    Document.all_obj_nil, Serde.fits, Bool.and_eq_true, decide_eq_true_eq, List.all_eq_true]
  exact ⟨h.next, fun n hn => h.free n ((Finset.mem_sort _).mp hn), trivial⟩

theorem NonceState.storable (s : NonceState) :
    (Serde.nonceState.encode s).all Serde.storable = true := by
  simp only [Serde.nonceState, Document.all_obj_cons, Codec.all_nat, Codec.all_list,
    Document.all_obj_nil, Serde.storable, Bool.and_eq_true, List.all_eq_true]
  exact ⟨trivial, fun _ _ => trivial, trivial⟩

end Typed

end WalletKit
