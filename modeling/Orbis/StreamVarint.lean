import Orbis.ByteCodec
import Orbis.FaultState

/-!
# Varints from an input stream

`readVarint` takes one byte at a time from an input stream that may end at any
point. The four overloads differ only in the width of the result: the words
are cut to it, the position of a piece is an 8-bit counter, and a shift by the
width or more would have no defined meaning. On every stream the accepted
bytes are those that `writeVarint` gives for a value of the width.
-/

set_option autoImplicit false

namespace Orbis.StreamVarint

open ByteCodec FaultState

inductive Width where
  | u8
  | u16
  | u32
  | u64
  deriving DecidableEq

def Width.bits : Width → ℕ
  | .u8 => 8
  | .u16 => 16
  | .u32 => 32
  | .u64 => 64

theorem Width.bits_le (w : Width) : w.bits ≤ 64 := by cases w <;> decide

theorem Width.bits_pos (w : Width) : 0 < w.bits := by cases w <;> decide

inductive Failure where
  | thrown (text : String)
  | wideShift
  deriving DecidableEq

variable {σ : Type} (next : σ → Option (UInt8 × σ))

def readPieces (w : Width) (shift temp : ℕ) : EStateM Failure σ ℕ := fun s =>
  match next s with
  | none => .error (.thrown "Failed to read from IInputStream") s
  | some (piece, s) =>
    if hover : w.bits - 7 ≤ shift ∧ 1 <<< (w.bits - shift) ≤ piece.toNat then
      .error (.thrown "readVarint, value overflow") s
    else if hwide : w.bits ≤ shift then .error .wideShift s
    else
      let temp := (temp ||| ((piece.toNat &&& 0x7f) <<< shift)) % 2 ^ w.bits
      if hlast : piece &&& 0x80 = 0 then
        if piece = 0 ∧ shift ≠ 0 then
          .error (.thrown "readVarint, invalid value representation") s
        else .ok temp s
      else readPieces w ((shift + 7) % 256) temp s
termination_by w.bits - shift
decreasing_by
  have hbits := w.bits_le
  rw [Nat.mod_eq_of_lt (by omega)]
  omega

def readVarint (w : Width) : EStateM Failure σ ℕ := readPieces next w 0 0

def Takes : σ → Bytes → σ → Prop
  | s, [], s' => s' = s
  | s, byte :: rest, s' => ∃ between, next s = some (byte, between) ∧ Takes between rest s'

variable {next} {w : Width} {shift temp : ℕ}

theorem piece_fits {piece : ℕ} (hs : shift < w.bits) (ht : temp < 2 ^ shift)
    (ho : ¬(w.bits - 7 ≤ shift ∧ 1 <<< (w.bits - shift) ≤ piece)) :
    (temp ||| ((piece &&& 0x7f) <<< shift)) % 2 ^ w.bits = temp ||| ((piece &&& 0x7f) <<< shift) ∧
      (128 ≤ piece → shift + 7 < w.bits ∧
        temp ||| ((piece &&& 0x7f) <<< shift) < 2 ^ (shift + 7)) := by
  rw [Nat.one_shiftLeft] at ho
  rw [low_bits ht]
  have hlow : piece % 128 * 2 ^ shift ≤ 127 * 2 ^ shift := Nat.mul_le_mul_right _ (by omega)
  have hst : 2 ^ (shift + 7) = 2 ^ shift * 128 := pow_add 2 shift 7
  by_cases hn : w.bits - 7 ≤ shift
  · have hp : piece < 2 ^ (w.bits - shift) := not_le.mp fun h => ho ⟨hn,h⟩
    have hf : 2 ^ (w.bits - shift) ≤ 2 ^ 7 := Nat.pow_le_pow_right (by norm_num) (by omega)
    have hwh : 2 ^ w.bits = 2 ^ (w.bits - shift) * 2 ^ shift := by
      rw [← pow_add, Nat.sub_add_cancel hs.le]
    have hpa : (piece % 128 + 1) * 2 ^ shift ≤ 2 ^ (w.bits - shift) * 2 ^ shift :=
      Nat.mul_le_mul_right _ (by omega)
    refine ⟨Nat.mod_eq_of_lt ?_,fun hm => by omega⟩
    rw [hwh]
    linarith
  · have hw : 2 ^ (shift + 7) ≤ 2 ^ w.bits := Nat.pow_le_pow_right (by norm_num) (by omega)
    exact ⟨Nat.mod_eq_of_lt (by omega),fun _ => ⟨by omega,by omega⟩⟩

theorem readPieces_of_list {bs : Bytes} {value : ℕ} {s s' : σ} (hs : shift < w.bits)
    (ht : temp < 2 ^ shift) (hta : Takes next s bs s')
    (hr : readVarintFrom w.bits shift temp bs = some (value, [])) :
    readPieces next w shift temp s = .ok value s' := by
  induction bs generalizing shift temp s with
  | nil => cases hr
  | cons _ _ ih =>
    obtain ⟨_,hn,hre⟩ := hta
    rw [readVarintFrom] at hr
    unfold readPieces
    rw [hn]
    dsimp only
    split_ifs at hr with ho hl hemp
    · obtain ⟨hmod,-⟩ := piece_fits hs ht ho
      cases hr
      cases hre
      rw [dif_neg ho, dif_neg (not_le.mpr hs), dif_pos hl, if_neg hemp, hmod]
    · obtain ⟨hmod,hm⟩ := piece_fits hs ht ho
      rw [high_bit_clear, not_lt] at hl
      have hro := hm hl
      have hb := w.bits_le
      rw [dif_neg ho, dif_neg (not_le.mpr hs), dif_neg (by rwa [high_bit_clear, not_lt]),
        hmod, Nat.mod_eq_of_lt (by omega)]
      exact ih hro.1 hro.2 hre hr

theorem readPieces_takes (hs : shift < w.bits) (ht : temp < 2 ^ shift) (s : σ) :
    ∃ bs, 7 * bs.length < w.bits - shift + 7 ∧
      Takes next s bs (left (readPieces next w shift temp s)) ∧
      (∀ value s', readPieces next w shift temp s = .ok value s' →
        readVarintFrom w.bits shift temp bs = some (value, [])) ∧
      ∀ fault s', readPieces next w shift temp s = .error fault s' → fault ≠ .wideShift := by
  induction hn : w.bits - shift using Nat.strong_induction_on generalizing shift temp s with
  | _ _ ih =>
    unfold readPieces
    cases hne : next s with
    | none => exact ⟨[],by simp,rfl,by simp,by simp⟩
    | some taken =>
      obtain ⟨piece,between⟩ := taken
      have hone : Takes next s [piece] between := ⟨between,hne,rfl⟩
      dsimp only
      split_ifs with ho hw hl hemp
      · exact ⟨[piece],by simp; omega,hone,by simp,by simp⟩
      · omega
      · exact ⟨[piece],by simp; omega,hone,by simp,by simp⟩
      · refine ⟨[piece],by simp; omega,hone,?_,by simp⟩
        intro value s' h
        cases h
        rw [(piece_fits hs ht ho).1, readVarintFrom, if_neg ho]
        exact (if_pos hl).trans (if_neg hemp)
      · obtain ⟨hmod,hm⟩ := piece_fits hs ht ho
        have hr := hm (by rwa [high_bit_clear, not_lt] at hl)
        have hb := w.bits_le
        rw [hmod, Nat.mod_eq_of_lt (by omega)]
        obtain ⟨bs,_,hta,hval,hflt⟩ := ih _ (by omega) hr.1 hr.2 between rfl
        refine ⟨piece :: bs,by simp; omega,⟨between,hne,hta⟩,?_,hflt⟩
        intro value s' h
        rw [readVarintFrom, if_neg ho]
        exact (if_neg hl).trans (hval value s' h)

/-- On every stream `readVarint` accepts the bytes that `writeVarint` gives for
a value of the width and takes no others; it throws in all other cases. It
never shifts by the width or more, and never takes more bytes than there are
groups of seven bits in a word. -/
theorem readVarint_accepts (next : σ → Option (UInt8 × σ)) (w : Width) (s : σ) :
    (∀ value s', readVarint next w s = .ok value s' ↔
      value < 2 ^ w.bits ∧ Takes next s (writeVarint value) s') ∧
    (∀ fault s', readVarint next w s = .error fault s' → ∃ text, fault = .thrown text) ∧
    ∃ bytes, bytes.length ≤ (w.bits + 6) / 7 ∧ Takes next s bytes (left (readVarint next w s)) := by
  have hex := readVarint_exact w.bits_pos
  obtain ⟨bytes,_,ht,hval,hflt⟩ := @readPieces_takes σ next w 0 0 w.bits_pos (by norm_num) s
  refine ⟨?_,?_,bytes,by omega,ht⟩
  · intro value s'
    constructor
    · intro h
      obtain ⟨hf,rfl⟩ := (hex bytes value []).mp (hval value s' h)
      rw [← readVarint, h, List.append_nil] at ht
      exact ⟨hf,ht⟩
    · rintro ⟨hf,hwr⟩
      refine readPieces_of_list w.bits_pos (by norm_num) hwr ?_
      exact (hex _ _ []).mpr ⟨hf,(List.append_nil _).symm⟩
  · intro fault s' h
    cases fault with
    | thrown text => exact ⟨text,rfl⟩
    | wideShift => exact absurd rfl (hflt _ _ h)

end Orbis.StreamVarint
