import Mathlib.Data.UInt
import Mathlib.Tactic

/-!
# Readers that accept exactly what is written

A reader takes a value from the front of a byte string and leaves the rest.
It is exact for a writer when it succeeds on nothing but written values, so a
value has one binary form and every form that is accepted is written again
byte for byte. Exactness is one equivalence, and it is kept by reading the
fields of a record one after the other, by checks, by lists with a count and
by varints and little-endian words.
-/

set_option autoImplicit false

namespace Orbis.ByteCodec

abbrev Bytes := List UInt8

abbrev Reader (α : Type) := StateT Bytes Option α

variable {α β γ : Type}

def Exact (r : Reader α) (w : α → Bytes) (P : α → Prop) : Prop :=
  ∀ bytes a rest, r.run bytes = some (a, rest) ↔ P a ∧ bytes = w a ++ rest

variable {r : Reader α} {w : α → Bytes} {P : α → Prop}

section Records

variable {v : γ → Bytes} {C Q : γ → Prop}

theorem exact_field {f : α → Reader γ} (field : γ → α) (hr : Exact r w P)
    (hf : ∀ a, Exact (f a) v fun c => (C c ∧ field c = a) ∧ Q c) :
    Exact (r >>= f) (fun c => w (field c) ++ v c) fun c => C c ∧ P (field c) ∧ Q c := by
  intro bs c rest
  rw [StateT.run_bind]
  simp only [Option.bind_eq_bind, Option.bind_eq_some_iff, Prod.exists]
  constructor
  · rintro ⟨a,_,hfst,hsnd⟩
    obtain ⟨ha,rfl⟩ := (hr _ _ _).mp hfst
    obtain ⟨⟨⟨hC,rfl⟩,hQ⟩,rfl⟩ := (hf _ _ _ _).mp hsnd
    exact ⟨⟨hC,ha,hQ⟩,(List.append_assoc _ _ _).symm⟩
  · rintro ⟨⟨hC,ha,hQ⟩,rfl⟩
    refine ⟨field c,v c ++ rest,(hr _ _ _).mpr ⟨ha,List.append_assoc _ _ _⟩,?_⟩
    exact (hf _ _ _ _).mpr ⟨⟨⟨hC,rfl⟩,hQ⟩,rfl⟩

theorem exact_done {c : γ} (h : ∀ c', C c' ↔ c' = c) :
    Exact (pure c) (fun _ => []) fun c' => C c' ∧ True := by
  intro bs c' rest
  rw [StateT.run_pure]
  simp only [h, and_true, List.nil_append]
  constructor
  · intro hr
    cases hr
    exact ⟨rfl,rfl⟩
  · rintro ⟨rfl,rfl⟩
    rfl

theorem exact_check {p : Prop} [Decidable p] {f : Reader γ} (D : γ → Prop)
    (hp : ∀ c, C c → (D c ↔ ¬p)) (hf : Exact f v fun c => C c ∧ Q c) :
    Exact (if p then failure else f) v fun c => C c ∧ D c ∧ Q c := by
  intro bs c rest
  by_cases h : p
  · rw [if_pos h]
    constructor
    · intro hr
      cases hr
    · rintro ⟨⟨hC,hD,-⟩,-⟩
      exact absurd h ((hp c hC).mp hD)
  · rw [if_neg h, hf]
    constructor
    · rintro ⟨⟨hC,hQ⟩,hbys⟩
      exact ⟨⟨hC,(hp c hC).mpr h,hQ⟩,hbys⟩
    · rintro ⟨⟨hC,-,hQ⟩,hbys⟩
      exact ⟨⟨hC,hQ⟩,hbys⟩

theorem exact_failure (h : ∀ c, ¬ Q c) : Exact (failure : Reader γ) v Q := by
  intro bs c rest
  constructor
  · intro hr
    cases hr
  · rintro ⟨hQ,-⟩
    exact absurd hQ (h c)

theorem Exact.congr {P' : α → Prop} {w' : α → Bytes} (h : Exact r w P) (hP : ∀ a, P a ↔ P' a)
    (hw : ∀ a, P a → w a = w' a) : Exact r w' P' := by
  intro bs a rest
  rw [h, ← hP]
  constructor
  · rintro ⟨ha,rfl⟩
    exact ⟨ha,by rw [hw a ha]⟩
  · rintro ⟨ha,rfl⟩
    exact ⟨ha,by rw [hw a ha]⟩

theorem exact_map {f : α → γ} (hr : Exact r w P) (hw : ∀ a, P a → v (f a) = w a)
    (hQ : ∀ c, Q c ↔ ∃ a, P a ∧ f a = c) : Exact (f <$> r) v Q := by
  intro bs c rest
  rw [StateT.run_map]
  simp only [Option.map_eq_map, Option.map_eq_some_iff, Prod.exists, Prod.mk.injEq]
  constructor
  · rintro ⟨a,_,hre,rfl,rfl⟩
    obtain ⟨ha,rfl⟩ := (hr _ _ _).mp hre
    exact ⟨(hQ _).mpr ⟨a,ha,rfl⟩,by rw [hw a ha]⟩
  · rintro ⟨hc,rfl⟩
    obtain ⟨a,ha,rfl⟩ := (hQ c).mp hc
    exact ⟨a,rest,(hr _ _ _).mpr ⟨ha,by rw [hw a ha]⟩,rfl,rfl⟩

def Reads (r : Reader α) (w : α → Bytes) : Prop := ∀ a rest, r.run (w a ++ rest) = some (a, rest)

theorem Exact.reads (h : Exact r w fun _ => True) : Reads r w :=
  fun a rest => (h _ a rest).mpr ⟨trivial,rfl⟩

theorem Reads.bind (h : Reads r w) (f : α → Reader γ) (a : α) (rest : Bytes) :
    (r >>= f).run (w a ++ rest) = (f a).run rest := by
  rw [StateT.run_bind, h]
  rfl

end Records

def readByte : Reader UInt8
  | [] => none
  | byte :: rest => some (byte, rest)

theorem readByte_exact : Exact readByte (fun byte => [byte]) fun _ => True := by
  intro bs byte rest
  rw [true_and, List.singleton_append]
  cases bs with
  | nil => exact iff_of_false (fun h => by cases h) (fun h => by cases h)
  | cons _ _ =>
    rw [List.cons.injEq]
    constructor
    · intro h
      cases h
      exact ⟨rfl,rfl⟩
    · rintro ⟨rfl,rfl⟩
      rfl

def readMany (r : Reader α) : ℕ → Reader (List α)
  | 0 => pure []
  | count + 1 => do
    let a ← r
    let others ← readMany r count
    pure (a :: others)

theorem exact_nil : Exact (pure []) (fun l => l.flatMap w) fun l : List α => l = [] := by
  apply (exact_done (C := fun l : List α => l = []) fun l => Iff.rfl).congr
  · exact fun l => iff_of_eq (and_true _)
  · rintro l ⟨rfl,-⟩
    rfl

theorem exact_cons {s : Reader (List α)} {Q : List α → Prop} (hr : Exact r w P)
    (hs : Exact s (fun l => l.flatMap w) Q) :
    Exact (do let a ← r; let os ← s; pure (a :: os)) (fun l => l.flatMap w)
      fun l => ∃ a os, l = a :: os ∧ P a ∧ Q os := by
  intro bs l rest
  simp only [StateT.run_bind, StateT.run_pure, Option.bind_eq_bind, Option.bind_eq_some_iff,
    Prod.exists, Option.pure_def, Option.some.injEq, Prod.mk.injEq]
  constructor
  · rintro ⟨a,_,hfst,os,_,ho,rfl,rfl⟩
    obtain ⟨ha,rfl⟩ := (hr _ _ _).mp hfst
    obtain ⟨hQ,rfl⟩ := (hs _ _ _).mp ho
    exact ⟨⟨a,os,rfl,ha,hQ⟩,by rw [List.flatMap_cons, List.append_assoc]⟩
  · rintro ⟨⟨a,os,rfl,ha,hQ⟩,rfl⟩
    refine ⟨a,os.flatMap w ++ rest,(hr _ _ _).mpr ⟨ha,?_⟩,os,rest,?_,rfl,rfl⟩
    · rw [List.flatMap_cons, List.append_assoc]
    · exact (hs _ _ _).mpr ⟨hQ,rfl⟩

theorem readMany_exact (hr : Exact r w P) (cnt : ℕ) :
    Exact (readMany r cnt) (fun l => l.flatMap w) fun l => l.length = cnt ∧ ∀ a ∈ l, P a := by
  induction cnt with
  | zero =>
    apply exact_nil.congr _ fun _ _ => rfl
    intro l
    constructor
    · rintro rfl
      exact ⟨rfl,by simp⟩
    · exact fun h => List.length_eq_zero_iff.mp h.1
  | succ _ ih =>
    apply (exact_cons hr ih).congr _ fun _ _ => rfl
    intro l
    cases l with
    | nil => simp
    | cons _ _ => simp [and_left_comm]

theorem Reads.many (h : Reads r w) (l : List α) (rest : Bytes) :
    (readMany r l.length).run (l.flatMap w ++ rest) = some (l, rest) := by
  induction l with
  | nil => rfl
  | cons _ _ ih =>
    rw [List.length_cons, readMany, List.flatMap_cons, List.append_assoc, h.bind,
      StateT.run_bind, ih]
    rfl

theorem counted_exact {n : Reader ℕ} {size : ℕ → Bytes} {N : ℕ → Prop} (hn : Exact n size N)
    (hr : Exact r w P) : Exact (n >>= readMany r) (fun l => size l.length ++ l.flatMap w)
      fun l => N l.length ∧ ∀ a ∈ l, P a := by
  have hf := exact_field (C := fun _ => True) List.length hn (f := readMany r)
    (v := fun l => l.flatMap w) (Q := fun l => ∀ a ∈ l, P a)
    fun cnt => (readMany_exact hr cnt).congr (fun l => by rw [true_and]) fun _ _ => rfl
  exact hf.congr (fun l => by rw [true_and]) fun _ _ => rfl

def writeWord : ℕ → ℕ → Bytes
  | 0, _ => []
  | size + 1, value => UInt8.ofNat value :: writeWord size (value / 256)

def readWord : ℕ → Reader ℕ
  | 0 => pure 0
  | size + 1 => do
    let byte ← readByte
    let high ← readWord size
    pure (byte.toNat + 256 * high)

theorem readWord_exact (size : ℕ) :
    Exact (readWord size) (writeWord size) fun value => value < 256 ^ size := by
  induction size with
  | zero =>
    refine (exact_done (C := fun value : ℕ => value = 0) fun value => Iff.rfl).congr
      (fun value => ?_) fun _ _ => rfl
    rw [and_true, pow_zero, Nat.lt_one_iff]
  | succ size ih =>
    intro bs value rest
    simp only [readWord, StateT.run_bind, StateT.run_pure, Option.bind_eq_bind,
      Option.bind_eq_some_iff, Prod.exists, Option.pure_def, Option.some.injEq, Prod.mk.injEq]
    constructor
    · rintro ⟨byte,_,hb,high,_,hh,rfl,rfl⟩
      obtain ⟨-,rfl⟩ := (readByte_exact _ _ _).mp hb
      obtain ⟨hlt,rfl⟩ := (ih _ _ _).mp hh
      have hsm := byte.toNat_lt
      have hdiv : (byte.toNat + 256 * high) / 256 = high := by omega
      have hmod : UInt8.ofNat (byte.toNat + 256 * high) = byte := by
        apply UInt8.toNat_inj.mp
        rw [UInt8.toNat_ofNat']
        omega
      refine ⟨?_,?_⟩
      · rw [pow_succ]
        omega
      · rw [writeWord, hdiv, hmod]
        rfl
    · rintro ⟨hlt,rfl⟩
      rw [pow_succ] at hlt
      refine ⟨UInt8.ofNat value,writeWord size (value / 256) ++ rest,?_,value / 256,rest,?_,?_,rfl⟩
      · exact (readByte_exact _ _ _).mpr ⟨trivial,rfl⟩
      · exact (ih _ _ _).mpr ⟨by omega,rfl⟩
      · rw [UInt8.toNat_ofNat']
        omega

theorem writeWord_length (size value : ℕ) : (writeWord size value).length = size := by
  induction size generalizing value with
  | zero => rfl
  | succ _ ih => rw [writeWord, List.length_cons, ih]

def overwrite (file : Bytes) (position : ℕ) (bytes : Bytes) : Bytes :=
  file.take position ++ List.replicate (position - file.length) 0 ++ bytes ++
    file.drop (position + bytes.length)

theorem overwrite_append (front tail bs : Bytes) : overwrite (front ++ tail) front.length bs =
      front ++ (bs ++ tail.drop bs.length) := by
  have hgap : front.length - (front ++ tail).length = 0 := by
    rw [List.length_append]
    omega
  rw [overwrite, hgap, List.take_left, List.drop_append, List.drop_eq_nil_of_le (by omega),
    Nat.add_sub_cancel_left]
  simp

theorem overwrite_start {front tail bs : Bytes} (h : bs.length = front.length) :
    overwrite (front ++ tail) 0 bs = bs ++ tail := by
  rw [← List.nil_append (front ++ tail), ← List.length_nil, overwrite_append, h, List.drop_left]
  rfl

/-- Seven bits to a byte, lowest first; the high bit says that more follow. -/
def writeVarint (value : ℕ) : Bytes :=
  if value < 0x80 then [UInt8.ofNat value]
  else UInt8.ofNat (value ||| 0x80) :: writeVarint (value >>> 7)
termination_by value
decreasing_by
  rw [Nat.shiftRight_eq_div_pow]
  omega

/-- The pieces from a position on; `temp` holds the bits below it. A piece that
does not fit the word is refused, and so is a last piece without bits. -/
def readVarintFrom (width : ℕ) : ℕ → ℕ → Reader ℕ
  | _, _, [] => none
  | shift, temp, piece :: rest =>
    if width - 7 ≤ shift ∧ 1 <<< (width - shift) ≤ piece.toNat then none
    else
      let temp := temp ||| ((piece.toNat &&& 0x7f) <<< shift)
      if piece &&& 0x80 = 0 then
        if piece = 0 ∧ shift ≠ 0 then none else some (temp, rest)
      else readVarintFrom width (shift + 7) temp rest

def readVarint (width : ℕ) : Reader ℕ := readVarintFrom width 0 0

theorem or_high_bit (value : ℕ) :
    UInt8.ofNat (value ||| 0x80) = UInt8.ofNat (value % 128 + 128) := by
  have hsm : ∀ n : Fin 256, n.val ||| 128 = n.val % 128 + 128 := by decide +kernel
  have hval := hsm ⟨value % 256,Nat.mod_lt _ (by norm_num)⟩
  apply UInt8.toNat_inj.mp
  rw [UInt8.toNat_ofNat', UInt8.toNat_ofNat', Nat.or_mod_two_pow]
  change value % 256 ||| 128 = _
  refine hval.trans ?_
  change value % 256 % 128 + 128 = _
  omega

theorem cons_eq_writeVarint {piece : UInt8} {os rest : Bytes} {x : ℕ} :
    piece :: os = writeVarint x ++ rest ↔ (x < 128 ∧ piece.toNat = x ∧ os = rest) ∨
      (128 ≤ x ∧ piece.toNat = x % 128 + 128 ∧ os = writeVarint (x / 128) ++ rest) := by
  have hb : ∀ n < 256, (piece = UInt8.ofNat n ↔ piece.toNat = n) := by
    intro n hn
    rw [← UInt8.toNat_inj, UInt8.toNat_ofNat', Nat.mod_eq_of_lt hn]
  rw [writeVarint]
  by_cases hx : x < 128
  · rw [if_pos hx, List.singleton_append, List.cons.injEq, hb x (by omega)]
    constructor
    · exact fun h => .inl ⟨hx,h⟩
    · rintro (h | h)
      · exact h.2
      · omega
  · rw [if_neg hx, List.cons_append, List.cons.injEq, or_high_bit, hb _ (by omega),
      Nat.shiftRight_eq_div_pow]
    constructor
    · exact fun h => .inr ⟨by omega,h⟩
    · rintro (h | h)
      · omega
      · exact h.2

theorem high_bit_clear (piece : UInt8) : piece &&& 0x80 = 0 ↔ piece.toNat < 128 := by
  have hall : ∀ n : Fin 256, UInt8.ofNat n.val &&& 0x80 = 0 ↔ n.val < 128 := by decide +kernel
  have hp := hall ⟨piece.toNat,piece.toNat_lt⟩
  rwa [UInt8.ofNat_toNat] at hp

variable {temp shift width : ℕ}

theorem low_bits (h : temp < 2 ^ shift) (piece : ℕ) :
    temp ||| ((piece &&& 0x7f) <<< shift) = temp + piece % 128 * 2 ^ shift := by
  have hm : piece &&& 0x7f = piece % 128 := Nat.and_two_pow_sub_one_eq_mod piece 7
  rw [hm, Nat.or_comm, ← Nat.shiftLeft_add_eq_or_of_lt h, Nat.shiftLeft_eq, add_comm]

theorem readVarintFrom_iff (hsh : shift < width) (ht : temp < 2 ^ shift) (bs : Bytes) (value : ℕ)
    (rest : Bytes) : readVarintFrom width shift temp bs = some (value, rest) ↔
      ∃ x, x < 2 ^ (width - shift) ∧ (shift ≠ 0 → x ≠ 0) ∧ value = temp + x * 2 ^ shift ∧
        bs = writeVarint x ++ rest := by
  induction bs generalizing shift temp with
  | nil =>
    refine iff_of_false (fun h => by cases h) ?_
    rintro ⟨x,-,-,-,hbys⟩
    rw [writeVarint] at hbys
    split_ifs at hbys <;> cases hbys
  | cons piece _ ih =>
    have hpi := piece.toNat_lt
    have hpow : 1 <<< (width - shift) = 2 ^ (width - shift) := Nat.one_shiftLeft _
    simp only [readVarintFrom, hpow, low_bits ht, high_bit_clear, cons_eq_writeVarint]
    by_cases hl : piece.toNat < 128
    · have hf : ¬(width - 7 ≤ shift ∧ 2 ^ (width - shift) ≤ piece.toNat) ↔
          piece.toNat < 2 ^ (width - shift) := by
        by_cases hn : width - 7 ≤ shift
        · rw [and_iff_right hn, not_le]
        · have hw : 2 ^ 7 ≤ 2 ^ (width - shift) := Nat.pow_le_pow_right (by norm_num) (by omega)
          exact iff_of_true (fun h => hn h.1) (by omega)
      have hz : piece = 0 ↔ piece.toNat = 0 := UInt8.toNat_inj.symm
      rw [if_pos hl, Nat.mod_eq_of_lt hl]
      constructor
      · intro h
        split_ifs at h with ho hemp
        cases h
        exact ⟨piece.toNat,hf.mp ho,fun hs hp => hemp ⟨hz.mpr hp,hs⟩,rfl, Or.inl ⟨hl,rfl,rfl⟩⟩
      · rintro ⟨x,hx,hne,rfl,⟨-,rfl,rfl⟩ | ⟨-,hlow,-⟩⟩
        · rw [if_neg (hf.mpr hx), if_neg fun h => hne h.2 (hz.mp h.1)]
        · omega
    · rw [if_neg hl]
      by_cases hr : shift + 7 < width
      · have hlow : piece.toNat % 128 * 2 ^ shift ≤ 127 * 2 ^ shift :=
          Nat.mul_le_mul_right _ (by omega)
        have hst : 2 ^ (shift + 7) = 2 ^ shift * 128 := pow_add 2 shift 7
        have hw : 2 ^ (width - shift) = 2 ^ (width - (shift + 7)) * 128 := by
          rw [show width - shift = width - (shift + 7) + 7 by omega, pow_add]
          rfl
        rw [if_neg (by omega), ih hr (by omega)]
        constructor
        · rintro ⟨high,_,hne,rfl,rfl⟩
          have hpos := hne (by omega)
          refine ⟨piece.toNat % 128 + 128 * high,by omega,fun _ => by omega,?_,.inr ?_⟩
          · rw [hst]
            ring
          · rw [show (piece.toNat % 128 + 128 * high) / 128 = high by omega]
            exact ⟨by omega,by omega,rfl⟩
        · rintro ⟨x,hx,-,rfl,⟨_,_,-⟩ | ⟨hlg,_,rfl⟩⟩
          · omega
          · refine ⟨x / 128,by omega,fun _ => by omega,?_,rfl⟩
            have hspl : x = piece.toNat % 128 + 128 * (x / 128) := by omega
            rw [hst]
            nth_rewrite 1 [hspl]
            ring
      · -- no bits are left for a piece that says that more follow
        have hfu : 2 ^ (width - shift) ≤ 2 ^ 7 := Nat.pow_le_pow_right (by norm_num) (by omega)
        rw [if_pos ⟨by omega,by omega⟩]
        refine iff_of_false (fun h => by cases h) ?_
        rintro ⟨x,hx,-,-,⟨-,hlow,-⟩ | ⟨hlg,-⟩⟩ <;> omega

theorem readVarint_exact (hw : 0 < width) :
    Exact (readVarint width) writeVarint fun value => value < 2 ^ width := by
  intro bs value rest
  refine (readVarintFrom_iff hw (by norm_num) bs value rest).trans ?_
  constructor
  · rintro ⟨_,hx,-,rfl,rfl⟩
    exact ⟨by simpa using hx,by simp⟩
  · rintro ⟨hval,rfl⟩
    exact ⟨value,by simpa using hval,fun h => absurd rfl h,by simp,rfl⟩

end Orbis.ByteCodec
