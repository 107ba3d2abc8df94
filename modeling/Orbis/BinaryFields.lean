import Orbis.ByteCodec
import Orbis.FaultState

/-!
# Binary fields of a document

A field of a fixed size is written in hexadecimal digits in a JSON text and
as it is in a binary message. Both are read from the same tree of values. The
reader of messages compares the size; the one of texts only refuses more
digits than the target has room for.
-/

set_option autoImplicit false

namespace Orbis.BinaryFields

open FaultState ByteCodec

inductive JsonValue where
  | nil
  | bool (value : Bool)
  | integer (value : Int64)
  /-- A floating point number by its eight bytes. -/
  | real (word : ℕ)
  | string (value : Bytes)
  | array (items : List JsonValue)
  | object (members : List (Bytes × JsonValue))

inductive Refusal where
  | notObject
  | notString
  | outOfRange
  | invalidCharacter
  | invalidStringSize
  | invalidBufferSize
  | sizeMismatch

def getValue (val : JsonValue) (idx : ℕ) (name : Bytes) : Except Refusal (Option JsonValue) :=
  match val with
  | .array items =>
    match items[idx]? with
    | some item => .ok (some item)
    | none => .error .outOfRange
  | .object members => .ok (members.lookup name)
  | _ => .error .notObject

def getString : JsonValue → Except Refusal Bytes
  | .string value => .ok value
  | _ => .error .notString

def fromHexDigit (c : UInt8) : Except Refusal UInt8 :=
  if 48 ≤ c ∧ c ≤ 57 then .ok (c - 48)
  else if 65 ≤ c ∧ c ≤ 70 then .ok (c - 55)
  else if 97 ≤ c ∧ c ≤ 102 then .ok (c - 87)
  else .error .invalidCharacter

def hexBytes : Bytes → Except Refusal Bytes
  | high :: low :: text => do
    let high ← fromHexDigit high
    let low ← fromHexDigit low
    let rest ← hexBytes text
    pure ((high <<< 4 ||| low) :: rest)
  | _ => pure []

def fromHex (text data : Bytes) : Except Refusal Bytes :=
  if text.length % 2 ≠ 0 then .error .invalidStringSize
  else if text.length / 2 > data.length then .error .invalidBufferSize
  else do
    let bytes ← hexBytes text
    pure (bytes ++ data.drop bytes.length)

variable (val : JsonValue) (idx : ℕ) (name value : Bytes)

def getText : Except Refusal (Option Bytes) := do
  match ← getValue val idx name with
  | none => pure none
  | some v =>
    let text ← getString v
    pure (some text)

/-- `JsonInputValueSerializer::binary`: whether there is the field, and the target. -/
def jsonBinary : Except Refusal (Bool × Bytes) := do
  match ← getText val idx name with
  | none => pure (false, value)
  | some text =>
    let data ← fromHex text value
    pure (true, data)

def kvBinary : Except Refusal (Bool × Bytes) := do
  match ← getText val idx name with
  | none => pure (false, value)
  | some str => if str.length ≠ value.length then throw .sizeMismatch else pure (true, str)

theorem hexBytes_length {text bs : Bytes} (h : hexBytes text = .ok bs) :
    bs.length = text.length / 2 := by
  induction text using hexBytes.induct generalizing bs with
  | case1 high low text ih =>
    rw [hexBytes] at h
    simp only [except_bind_ok] at h
    obtain ⟨_,-,_,-,rest,hr,h⟩ := h
    cases h
    simp [ih hr]
    omega
  | case2 text hno =>
    have hlt : text.length < 2 := by
      rcases text with _ | ⟨_,_ | ⟨_,_⟩⟩
      · simp
      · simp
      · exact absurd rfl (hno _ _ _)
    rw [hexBytes.eq_2 _ hno] at h
    cases h
    simp
    omega

theorem jsonBinary_true {out : Bytes} : jsonBinary val idx name value = .ok (true, out) ↔
    ∃ text bs, getText val idx name = .ok (some text) ∧ text.length = 2 * bs.length ∧
      bs.length ≤ value.length ∧ hexBytes text = .ok bs ∧ out = bs ++ value.drop bs.length := by
  unfold jsonBinary
  rw [except_bind_ok]
  constructor
  · rintro ⟨_ | text,ht,h⟩
    · cases h
    · obtain ⟨data,hd,h⟩ := except_bind_ok.mp h
      cases h
      unfold fromHex at hd
      split_ifs at hd with hodd hroom
      obtain ⟨bs,hb,h⟩ := except_bind_ok.mp hd
      cases h
      have hl := hexBytes_length hb
      exact ⟨text,bs,ht,by omega,by omega,hb,rfl⟩
  · rintro ⟨text,bs,ht,hl,hle,hb,rfl⟩
    refine ⟨some text,ht,except_bind_ok.mpr ⟨_,?_,rfl⟩⟩
    rw [fromHex, if_neg (by omega), if_neg (by omega), hb]
    rfl

theorem kvBinary_true {out : Bytes} : kvBinary val idx name value = .ok (true, out) ↔
    getText val idx name = .ok (some out) ∧ out.length = value.length := by
  unfold kvBinary
  rw [except_bind_ok]
  constructor
  · rintro ⟨_ | str,ht,h⟩
    · cases h
    · dsimp only at h
      split_ifs at h with hne
      cases h
      exact ⟨ht,not_not.mp hne⟩
  · rintro ⟨ht,hl⟩
    exact ⟨some out,ht,if_neg (not_not.mpr hl)⟩

/-- A message sets a field from exactly its bytes. A text does so unless its
digits denote fewer bytes than the field has. -/
theorem binary_exact_iff : (∀ out, kvBinary val idx name value = .ok (true, out) →
      getText val idx name = .ok (some out) ∧ out.length = value.length) ∧
    ((∀ out, jsonBinary val idx name value = .ok (true, out) →
      ∃ text, getText val idx name = .ok (some text) ∧ text.length = 2 * value.length ∧
        hexBytes text = .ok out) ↔
      ¬ ∃ text bytes, getText val idx name = .ok (some text) ∧ text.length = 2 * bytes.length ∧
        hexBytes text = .ok bytes ∧ bytes.length < value.length) := by
  refine ⟨fun out => (kvBinary_true ..).mp,?_⟩
  simp only [jsonBinary_true]
  constructor
  · rintro h ⟨text,bytes,ht,hl,hb,hlt⟩
    obtain ⟨text',ht',hl',hb'⟩ := h _ ⟨text,bytes,ht,hl,hlt.le,hb,rfl⟩
    cases ht.symm.trans ht'
    omega
  · rintro h out ⟨text,bytes,ht,hl,hle,hb,rfl⟩
    have hge := not_lt.mp fun hlt => h ⟨text,bytes,ht,hl,hb,hlt⟩
    have heq := Nat.le_antisymm hle hge
    refine ⟨text,ht,heq ▸ hl,?_⟩
    rw [heq, List.drop_length, List.append_nil, hb]

/-- The digits of one byte are taken for a field of two, whose second byte
keeps what was there. -/
theorem short_digits_accepted :
    jsonBinary (.object [([107], .string [48, 97])]) 0 [107] [7, 7] = .ok (true, [10, 7]) ∧
      getText (.object [([107], .string [48, 97])]) 0 [107] = .ok (some [48, 97]) := ⟨rfl,rfl⟩

end Orbis.BinaryFields
