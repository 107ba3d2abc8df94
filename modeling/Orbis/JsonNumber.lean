import Orbis.ByteCodec

/-!
# Numbers in a JSON text

The characters of a number are collected first and converted by a string
stream then. The stream's failure is not looked at: a text without digits
gives zero, and one out of range the nearest value.
-/

set_option autoImplicit false

namespace Orbis.JsonNumber

open ByteCodec

inductive Number where
  | integer (value : Int64)
  /-- The text from which the floating point number is converted. -/
  | real (text : Bytes)

def isDigit (c : UInt8) : Bool := 48 ≤ c && c ≤ 57

def digits (text : Bytes) : Bytes := if text.head? = some 45 then text.tail else text

def decimal (text : Bytes) : ℕ := text.foldl (fun value c => 10 * value + (c.toNat - 48)) 0

def written (text : Bytes) : ℤ :=
  if text.head? = some 45 then -decimal (digits text) else decimal (digits text)

/-- `std::istringstream(text) >> value` for a signed integer. -/
def extract (text : Bytes) : Int64 :=
  if digits text = [] then 0
  else if written text < -2 ^ 63 then Int64.minValue
  else if 2 ^ 63 ≤ written text then Int64.maxValue
  else Int64.ofInt (written text)

def readExponent : Bytes → Option (Bytes × Bytes)
  | 101 :: rest =>
    let (sign, rest) : Bytes × Bytes := match rest with
      | 43 :: rest => ([43], rest)
      | 45 :: rest => ([45], rest)
      | rest => ([], rest)
    if rest.takeWhile isDigit = [] then none
    else some (101 :: sign ++ rest.takeWhile isDigit, rest.dropWhile isDigit)
  | rest => some ([], rest)

def token (c : UInt8) (rest : Bytes) : Bytes := c :: rest.takeWhile fun c => isDigit c || c == 46

def leadingZero (text : Bytes) : Bool :=
  1 < text.length &&
    (text.head? == some 48 || text.head? == some 45 && text.tail.head? == some 48)

def readNumber (c : UInt8) (rest : Bytes) : Option (Number × Bytes) :=
  let text := token c rest
  let dots := text.count 46
  let rest := rest.dropWhile fun c => isDigit c || c == 46
  if 0 < dots then
    if 1 < dots then none
    else (readExponent rest).map fun e => (.real (text ++ e.1), e.2)
  else if leadingZero text then none
  else some (.integer (extract text), rest)

def ReadsWritten (c : UInt8) (rest : Bytes) : Prop :=
  ∀ value left, readNumber c rest = some (.integer value, left) →
    digits (token c rest) ≠ [] ∧ value.toInt = written (token c rest)

theorem readNumber_integer {c : UInt8} {rest left : Bytes} {value : Int64} :
    readNumber c rest = some (.integer value, left) ↔
      46 ∉ token c rest ∧ leadingZero (token c rest) = false ∧ value = extract (token c rest) ∧
        left = rest.dropWhile fun c => isDigit c || c == 46 := by
  unfold readNumber
  dsimp only
  split_ifs with hdot hdots hz
  · simp [List.count_pos_iff.mp hdot]
  · simp [List.count_pos_iff.mp hdot]
  · simp [hz]
  · rw [List.count_pos_iff] at hdot
    simp [hdot, hz, eq_comm]

theorem extract_eq_iff (text : Bytes) : digits text ≠ [] ∧ (extract text).toInt = written text ↔
    digits text ≠ [] ∧ -2 ^ 63 ≤ written text ∧ written text < 2 ^ 63 := by
  refine and_congr_right fun hd => ⟨fun h => ?_,fun h => ?_⟩
  · rw [← h]
    exact ⟨Int64.le_toInt _,Int64.toInt_lt _⟩
  · rw [extract, if_neg hd, if_neg (by omega), if_neg (by omega), Int64.toInt_ofInt_of_le h.1 h.2]

/-- Integers are exact but for a lone minus sign and those out of range. -/
theorem integer_exact_iff (c : UInt8) (rest : Bytes) : ReadsWritten c rest ↔
    46 ∈ token c rest ∨ leadingZero (token c rest) = true ∨ token c rest ≠ [45] ∧
      -2 ^ 63 ≤ written (token c rest) ∧ written (token c rest) < 2 ^ 63 := by
  have hd : digits (token c rest) ≠ [] ↔ token c rest ≠ [45] := by
    unfold digits token
    split_ifs <;> simp_all
  rw [← hd, ← extract_eq_iff]
  unfold ReadsWritten
  simp only [readNumber_integer]
  by_cases hdot : 46 ∈ token c rest
  · simp [hdot]
  · cases hz : leadingZero (token c rest) with
    | true => simp
    | false => simp [hdot]

theorem minus_read_as_zero : readNumber 45 [] = some (.integer 0, []) ∧ ¬ ReadsWritten 45 [] := by
  refine ⟨rfl,fun h => ?_⟩
  exact (h 0 [] rfl).1 rfl

end Orbis.JsonNumber
