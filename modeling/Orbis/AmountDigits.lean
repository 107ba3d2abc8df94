import Mathlib.Data.List.TakeWhile
import Orbis.ChainSemantic

/-!
# Amounts in decimal digits

A reward is split into dust and one piece for every further digit, and the
pieces of a coinbase are merged from the end until they are few enough. On
its way to the user an amount is written with a decimal point and read back.
All of this is computed with 64-bit words whose last power of ten wraps.
-/

set_option autoImplicit false

namespace Orbis.AmountDigits

open ChainSemantic

variable {pieces outAmounts outs : List UInt64} {fraction frac whole text : List Char}

section Decompose

inductive Chunks : ℕ → List UInt64 → Prop
  | nil (i : ℕ) : Chunks i []
  | cons {i k digit : ℕ} {piece : UInt64} {rest : List UInt64} (order : i ≤ k)
      (digit_pos : 1 ≤ digit) (digit_le : digit ≤ 9) (value : piece.toNat = digit * 10 ^ k)
      (above : Chunks (k + 1) rest) : Chunks i (piece :: rest)

theorem Chunks.mono {i j : ℕ} (h : Chunks j pieces) (hij : i ≤ j) : Chunks i pieces := by
  cases h with
  | nil => exact .nil i
  | cons order digit_pos digit_le value above =>
    exact .cons (hij.trans order) digit_pos digit_le value above

def WithDust (dustThreshold : UInt64) (i : ℕ) (pieces : List UInt64) : Prop :=
  Chunks i pieces ∨
    ∃ dust rest, pieces = dust :: rest ∧ dust ≠ 0 ∧ dust ≤ dustThreshold ∧ Chunks i rest

theorem WithDust.mono {dustThreshold : UInt64} {i : ℕ}
    (h : WithDust dustThreshold (i + 1) pieces) : WithDust dustThreshold i pieces := by
  rcases h with h | ⟨dust,rest,heq,hne,hle,h⟩
  · exact .inl (h.mono (Nat.le_succ i))
  · exact .inr ⟨dust,rest,heq,hne,hle,h.mono (Nat.le_succ i)⟩

variable {dustThreshold amount dust order : UInt64} {i digits : ℕ}

theorem digit_round (ham : amount ≠ 0) (ho : order.toNat = 10 ^ i % 2 ^ 64)
    (hf : dust.toNat + amount.toNat * 10 ^ i < 2 ^ 64) (hdig : amount.toNat < 10 ^ (digits + 1)) :
    (amount % 10 * order).toNat = amount.toNat % 10 * 10 ^ i ∧
    (dust + amount % 10 * order).toNat = dust.toNat + amount.toNat % 10 * 10 ^ i ∧
    (order * 10).toNat = 10 ^ (i + 1) % 2 ^ 64 ∧ (amount / 10).toNat < 10 ^ digits ∧
    amount.toNat * 10 ^ i = amount.toNat % 10 * 10 ^ i + (amount / 10).toNat * 10 ^ (i + 1) := by
  have hpos : amount.toNat ≠ 0 := fun h => ham (UInt64.toNat_inj.mp h)
  have hten : UInt64.toNat 10 = 10 := rfl
  have hle : 1 * 10 ^ i ≤ amount.toNat * 10 ^ i := Nat.mul_le_mul_right _ (by omega)
  have hex : order.toNat = 10 ^ i := by
    rw [ho]
    exact Nat.mod_eq_of_lt (by omega)
  have hspl : amount.toNat * 10 ^ i =
      amount.toNat % 10 * 10 ^ i + amount.toNat / 10 * 10 ^ (i + 1) := by
    conv_lhs => rw [← Nat.mod_add_div amount.toNat 10]
    ring
  have hck : (amount % 10 * order).toNat = amount.toNat % 10 * 10 ^ i := by
    rw [UInt64.toNat_mul, UInt64.toNat_mod, hex, hten, Nat.mod_eq_of_lt (by omega)]
  refine ⟨hck,?_,?_,?_,?_⟩
  · rw [UInt64.toNat_add, hck, Nat.mod_eq_of_lt (by omega)]
  · rw [UInt64.toNat_mul, ho, hten, Nat.mod_mul_mod, pow_succ 10 i]
  · rw [UInt64.toNat_div, hten]
    rw [pow_succ] at hdig
    omega
  · rw [UInt64.toNat_div, hten]
    exact hspl

theorem decomposeDigits_chunks {idh : Bool} (hfls : (!idh && dust != 0) = false)
    (hdig : amount.toNat < 10 ^ digits) (ho : order.toNat = 10 ^ i % 2 ^ 64)
    (hf : dust.toNat + amount.toNat * 10 ^ i < 2 ^ 64)
    (hp : dustThreshold.toNat < dust.toNat + 10 ^ i) :
    Chunks i (decomposeDigits dustThreshold (digits + 1) amount order dust idh) ∧
      exactSum (decomposeDigits dustThreshold (digits + 1) amount order dust idh) =
        amount.toNat * 10 ^ i := by
  induction digits generalizing amount order i with
  | zero =>
    have hz : amount = 0 := UInt64.toNat_inj.mp (Nat.lt_one_iff.mp hdig)
    rw [decomposeDigits, if_pos hz, hfls, hz, UInt64.toNat_zero, Nat.zero_mul]
    exact ⟨.nil i,rfl⟩
  | succ _ ih =>
    rw [decomposeDigits]
    by_cases hz : amount = 0
    · rw [if_pos hz, hfls, hz, UInt64.toNat_zero, Nat.zero_mul]
      exact ⟨.nil i,rfl⟩
    rw [if_neg hz]
    obtain ⟨hck,hsum,hn,hl,hspl⟩ := digit_round hz ho hf hdig
    have hh : 10 ^ (i + 1) = 10 ^ i * 10 := pow_succ 10 i
    obtain ⟨hr,htot⟩ := ih hl hn (by omega) (by omega)
    by_cases hd : amount.toNat % 10 = 0
    · have hno : amount % 10 * order = 0 := by
        apply UInt64.toNat_inj.mp
        rw [hck, hd, Nat.zero_mul, UInt64.toNat_zero]
      simp only [hno, UInt64.add_zero, hfls, bne_self_eq_false, Bool.false_eq_true, if_false,
        List.nil_append, Bool.or_false, ite_self]
      rw [hspl, hd, Nat.zero_mul, Nat.zero_add]
      exact ⟨hr.mono (Nat.le_succ i),htot⟩
    · have hle : 1 * 10 ^ i ≤ amount.toNat % 10 * 10 ^ i := Nat.mul_le_mul_right _ (by omega)
      have hpos : 0 < 10 ^ i := by positivity
      have habv : ¬ dust + amount % 10 * order ≤ dustThreshold := by
        rw [UInt64.le_iff_toNat_le, hsum]
        omega
      have hs : (amount % 10 * order != 0) = true := by
        rw [bne_iff_ne, ne_eq, ← UInt64.toNat_inj, hck, UInt64.toNat_zero]
        omega
      simp only [if_neg habv, hfls, Bool.false_eq_true, if_false, List.nil_append, hs,
        if_true, Bool.or_false, List.singleton_append]
      constructor
      · exact .cons le_rfl (by omega) (by omega) hck hr
      · rw [hspl, ← hck, ← htot]
        rfl

theorem decomposeDigits_end (hd : dust ≤ dustThreshold) (i digits : ℕ) :
    WithDust dustThreshold i (decomposeDigits dustThreshold (digits + 1) 0 order dust false) ∧
      exactSum (decomposeDigits dustThreshold (digits + 1) 0 order dust false) =
        dust.toNat + UInt64.toNat 0 * 10 ^ i := by
  rw [UInt64.toNat_zero, Nat.zero_mul, Nat.add_zero]
  by_cases hn : dust = 0
  · simp [decomposeDigits, hn, exactSum, WithDust, Chunks.nil]
  · simp only [decomposeDigits, if_true, Bool.not_false, Bool.true_and, bne_iff_ne, ne_eq, hn,
      not_false_eq_true]
    exact ⟨.inr ⟨dust,[],rfl,hn,hd,.nil i⟩,rfl⟩

theorem decomposeDigits_dust (hdig : amount.toNat < 10 ^ digits)
    (ho : order.toNat = 10 ^ i % 2 ^ 64) (hf : dust.toNat + amount.toNat * 10 ^ i < 2 ^ 64)
    (hd : dust ≤ dustThreshold) : WithDust dustThreshold i
        (decomposeDigits dustThreshold (digits + 1) amount order dust false) ∧
      exactSum (decomposeDigits dustThreshold (digits + 1) amount order dust false) =
        dust.toNat + amount.toNat * 10 ^ i := by
  induction digits generalizing amount dust order i with
  | zero =>
    have hz : amount = 0 := UInt64.toNat_inj.mp (Nat.lt_one_iff.mp hdig)
    rw [hz]
    exact decomposeDigits_end hd i 0
  | succ _ ih =>
    by_cases hz : amount = 0
    · rw [hz]
      exact decomposeDigits_end hd i _
    rw [decomposeDigits, if_neg hz]
    obtain ⟨hck,hsum,hne,hl,hspl⟩ := digit_round hz ho hf hdig
    have hh : 10 ^ (i + 1) = 10 ^ i * 10 := pow_succ 10 i
    by_cases hw : dust + amount % 10 * order ≤ dustThreshold
    · obtain ⟨hr,htot⟩ := ih hl hne (by omega) hw
      simp only [if_pos hw]
      rw [htot, hsum, hspl, Nat.add_assoc]
      exact ⟨hr.mono,rfl⟩
    · have hbel := UInt64.le_iff_toNat_le.mp hd
      have hex : ¬ dust.toNat + amount.toNat % 10 * 10 ^ i ≤ dustThreshold.toNat := by
        rwa [UInt64.le_iff_toNat_le, hsum] at hw
      have hle : amount.toNat % 10 * 10 ^ i ≤ 9 * 10 ^ i := Nat.mul_le_mul_right _ (by omega)
      have hs : (amount % 10 * order != 0) = true := by
        rw [bne_iff_ne, ne_eq, ← UInt64.toNat_inj, hck, UInt64.toNat_zero]
        omega
      have hdi : amount.toNat % 10 ≠ 0 := by
        intro h
        rw [h] at hex
        omega
      -- the dust is flushed now, unless there is none
      have hfls : (!(dust != 0) && dust != 0) = false := by cases dust != 0 <;> rfl
      obtain ⟨hr,htot⟩ := decomposeDigits_chunks hfls hl hne
        (show dust.toNat + (amount / 10).toNat * 10 ^ (i + 1) < 2 ^ 64 by omega)
        (show dustThreshold.toNat < _ by omega)
      have hc := Chunks.cons le_rfl (by omega) (by omega) hck hr
      simp only [if_neg hw, Bool.not_false, Bool.true_and, Bool.false_or, hs, if_true]
      by_cases hn : dust = 0
      · simp only [hn, bne_self_eq_false, Bool.false_eq_true, if_false, List.nil_append,
          List.singleton_append, UInt64.toNat_zero, Nat.zero_add] at *
        refine ⟨.inl hc,?_⟩
        rw [hspl, ← hck, ← htot]
        rfl
      · simp only [bne_iff_ne.mpr hn, if_true, List.cons_append, List.nil_append] at hc htot ⊢
        refine ⟨.inr ⟨dust,_,rfl,hn,hd,hc⟩,?_⟩
        rw [hspl, ← hck, ← htot]
        rfl

theorem decomposeAmount_spec (amt dustThreshold : UInt64) :
    WithDust dustThreshold 0 (decomposeAmount amt dustThreshold) ∧
      exactSum (decomposeAmount amt dustThreshold) = amt.toNat := by
  have hlt := amt.toNat_lt
  simpa [decomposeAmount] using @decomposeDigits_dust dustThreshold amt 0 1 0 20 (by omega) rfl
    (by simpa using hlt) UInt64.zero_le

end Decompose

section Merge

variable {maxOuts : ℕ}

def mergeLast (outAmounts : List UInt64) : List UInt64 :=
  match outAmounts.reverse with
  | back :: previous :: rest => ((previous + back) :: rest).reverse
  | _ => outAmounts

def mergeLoop (maxOuts : ℕ) : ℕ → List UInt64 → List UInt64
  | 0, outAmounts => outAmounts
  | rounds + 1, outAmounts =>
    if maxOuts < outAmounts.length then mergeLoop maxOuts rounds (mergeLast outAmounts)
    else outAmounts

/-- The amounts of the outputs of `constructMinerTx`, with the two checks that
it makes on them. -/
def minerAmounts (defaultDustThreshold blockReward : UInt64) (maxOuts : ℕ) :
    Option (List UInt64) :=
  let outAmounts := decomposeAmount blockReward defaultDustThreshold
  if !(1 ≤ maxOuts) then none
  else
    let outAmounts := mergeLoop maxOuts outAmounts.length outAmounts
    if outAmounts.sum = blockReward then some outAmounts else none

theorem exactSum_reverse (amts : List UInt64) : exactSum amts.reverse = exactSum amts := by
  rw [exactSum, List.map_reverse, List.sum_reverse, exactSum]

theorem sum_toNat {amts : List UInt64} (h : exactSum amts < 2 ^ 64) :
    amts.sum.toNat = exactSum amts := by
  induction amts with
  | nil => rfl
  | cons amt rest ih =>
    have hc : exactSum (amt :: rest) = amt.toNat + exactSum rest := rfl
    rw [List.sum_cons, UInt64.toNat_add, ih (by omega), hc, Nat.mod_eq_of_lt (by omega)]

theorem mergeLast_spec (hlen : 2 ≤ outs.length) (hf : exactSum outs < 2 ^ 64) :
    (mergeLast outs).length + 1 = outs.length ∧ exactSum (mergeLast outs) = exactSum outs := by
  have hr := exactSum_reverse outs
  have hcnt := outs.length_reverse
  unfold mergeLast
  generalize outs.reverse = reversed at *
  rw [← hcnt] at hlen
  match reversed, hlen with
  | back :: prev :: rest, _ =>
    have hsum : exactSum (back :: prev :: rest) = back.toNat + (prev.toNat + exactSum rest) := rfl
    have hm : exactSum ((prev + back) :: rest) = (prev + back).toNat + exactSum rest := rfl
    change ((prev + back) :: rest).reverse.length + 1 = _ ∧
      exactSum ((prev + back) :: rest).reverse = _
    rw [List.length_reverse, exactSum_reverse, hm, UInt64.toNat_add, Nat.mod_eq_of_lt (by omega)]
    exact ⟨hcnt,by omega⟩

theorem mergeLoop_spec (hmax : 1 ≤ maxOuts) {rs : ℕ} (hrds : outs.length ≤ rs + 1)
    (hf : exactSum outs < 2 ^ 64) : (mergeLoop maxOuts rs outs).length ≤ maxOuts ∧
      exactSum (mergeLoop maxOuts rs outs) = exactSum outs := by
  induction rs generalizing outs with
  | zero => exact ⟨hrds.trans hmax,rfl⟩
  | succ _ ih =>
    rw [mergeLoop]
    by_cases hm : maxOuts < outs.length
    · obtain ⟨_,hsum⟩ := mergeLast_spec (by omega) hf
      rw [if_pos hm, ← hsum]
      exact ih (by omega) (by omega)
    · rw [if_neg hm]
      exact ⟨by omega,rfl⟩

theorem minerAmounts_pays (defaultDustThreshold br : UInt64) (hmax : 1 ≤ maxOuts) :
    ∃ outs, minerAmounts defaultDustThreshold br maxOuts = some outs ∧
      outs.length ≤ maxOuts ∧ exactSum outs = br.toNat := by
  have htot := (decomposeAmount_spec br defaultDustThreshold).2
  have hlt := br.toNat_lt
  obtain ⟨hlen,hsum⟩ := mergeLoop_spec hmax (Nat.le_succ _) (htot ▸ hlt)
  have hw := sum_toNat ((hsum.trans htot).trans_lt hlt)
  rw [hsum, htot, UInt64.toNat_inj] at hw
  refine ⟨_,?_,hlen,hsum.trans htot⟩
  simp only [minerAmounts, hmax, decide_true, Bool.not_true, Bool.false_eq_true, if_false,
    if_pos hw]

/-- An amount is split into dust within the threshold and single digits of
growing orders that add up to it, and merged into any positive number of
outputs the pieces of a reward still pay it, so that `constructMinerTx` never
refuses them. -/
theorem amounts_split_and_merged (amount dustThreshold blockReward : UInt64) (hmax : 1 ≤ maxOuts) :
    (WithDust dustThreshold 0 (decomposeAmount amount dustThreshold) ∧
      exactSum (decomposeAmount amount dustThreshold) = amount.toNat) ∧
    ∃ outAmounts, minerAmounts dustThreshold blockReward maxOuts = some outAmounts ∧
      outAmounts.length ≤ maxOuts ∧ exactSum outAmounts = blockReward.toNat :=
  ⟨decomposeAmount_spec amount dustThreshold, minerAmounts_pays dustThreshold blockReward hmax⟩

theorem amounts_split_and_merged_sample : (WithDust 1000 0 (decomposeAmount 62387455827 1000) ∧
      exactSum (decomposeAmount 62387455827 1000) = UInt64.toNat 62387455827) ∧
    ∃ outAmounts, minerAmounts 1000 62387455827 5 = some outAmounts ∧
      outAmounts.length ≤ 5 ∧ exactSum outAmounts = UInt64.toNat 62387455827 :=
  amounts_split_and_merged 62387455827 1000 62387455827 (by decide)

end Merge

section Text

variable (numberOfDecimalPlaces : ℕ)

def isSpace (c : Char) : Bool := c.toNat = 32 || (9 ≤ c.toNat && c.toNat ≤ 13)

def trim (text : List Char) : List Char :=
  ((text.dropWhile isSpace).reverse.dropWhile isSpace).reverse

def paddedDigits (amount : UInt64) : List Char :=
  let s := Nat.toDigits 10 amount.toNat
  List.replicate (numberOfDecimalPlaces + 1 - s.length) '0' ++ s

def formatAmount (amount : UInt64) : List Char :=
  let s := paddedDigits numberOfDecimalPlaces amount
  s.take (s.length - numberOfDecimalPlaces) ++ '.' :: s.drop (s.length - numberOfDecimalPlaces)

def stripZeros : ℕ → List Char → ℕ × List Char
  | fractionSize + 1, back :: rest =>
    if numberOfDecimalPlaces < fractionSize + 1 ∧ back = '0' then stripZeros fractionSize rest
    else (fractionSize + 1, back :: rest)
  | fractionSize, text => (fractionSize, text)

def fromString (digits : List Char) : Option UInt64 :=
  if Nat.ofDigitChars 10 digits 0 < 2 ^ 64 then
    some (UInt64.ofNat (Nat.ofDigitChars 10 digits 0))
  else none

def parseDigits (fractionSize : ℕ) (strAmount : List Char) : Option UInt64 :=
  if strAmount.isEmpty then none
  else if !strAmount.all Char.isDigit then none
  else fromString (strAmount ++ List.replicate (numberOfDecimalPlaces - fractionSize) '0')

def parseTrimmed (strAmount : List Char) : Option UInt64 :=
  if '.' ∈ strAmount then
    let pointIndex := strAmount.idxOf '.'
    let stripped := stripZeros numberOfDecimalPlaces (strAmount.length - pointIndex - 1)
      strAmount.reverse
    if numberOfDecimalPlaces < stripped.1 then none
    else parseDigits numberOfDecimalPlaces stripped.1 (stripped.2.reverse.eraseIdx pointIndex)
  else parseDigits numberOfDecimalPlaces 0 strAmount

def parseAmount (str : List Char) : Option UInt64 :=
  parseTrimmed numberOfDecimalPlaces (trim str)

variable {numberOfDecimalPlaces} {amount : UInt64}

theorem fromString_eq_some {digits : List Char} :
    fromString digits = some amount ↔ amount.toNat = Nat.ofDigitChars 10 digits 0 := by
  unfold fromString
  have hlt := amount.toNat_lt
  by_cases hf : Nat.ofDigitChars 10 digits 0 < 2 ^ 64
  · rw [if_pos hf, Option.some_inj, ← UInt64.toNat_inj, UInt64.toNat_ofNat_of_lt' hf, eq_comm]
  · rw [if_neg hf]
    constructor
    · intro h
      cases h
    · omega

theorem parseDigits_eq_some {fractionSize : ℕ} {digits : List Char} :
    parseDigits numberOfDecimalPlaces fractionSize digits = some amount ↔
      digits ≠ [] ∧ (∀ c ∈ digits, c.isDigit = true) ∧ amount.toNat =
        Nat.ofDigitChars 10 digits 0 * 10 ^ (numberOfDecimalPlaces - fractionSize) := by
  unfold parseDigits
  by_cases hemp : digits = []
  · simp [hemp]
  by_cases hdig : ∀ c ∈ digits, c.isDigit = true
  · rw [if_neg (by simpa using hemp), if_neg (by simpa using hdig), fromString_eq_some,
      Nat.ofDigitChars_append, Nat.ofDigitChars_replicate_zero, Nat.mul_comm]
    exact ⟨fun h => ⟨hemp,hdig,h⟩,fun h => h.2.2⟩
  · rw [if_neg (by simpa using hemp), if_pos (by simpa using hdig)]
    simp [hdig]

def kept (numberOfDecimalPlaces : ℕ) (fraction : List Char) : List Char :=
  (fraction.take (fraction.length - numberOfDecimalPlaces)).dropWhile (· == '0') ++
    fraction.drop (fraction.length - numberOfDecimalPlaces)

theorem stripZeros_append (frac rest : List Char) :
    stripZeros numberOfDecimalPlaces frac.length (frac ++ rest) =
      ((kept numberOfDecimalPlaces frac).length, kept numberOfDecimalPlaces frac ++ rest) := by
  induction frac with
  | nil => simp [stripZeros, kept]
  | cons back frac ih =>
    by_cases hm : numberOfDecimalPlaces < frac.length + 1
    · have hex : frac.length + 1 - numberOfDecimalPlaces =
          frac.length - numberOfDecimalPlaces + 1 := by omega
      by_cases hz : back = '0'
      · simpa [hex, stripZeros, hm, hz, kept] using ih
      · simp [hex, stripZeros, hz, kept]
    · have hex : frac.length + 1 - numberOfDecimalPlaces = 0 := by omega
      simp [hex, stripZeros, hm, kept]

theorem kept_reverse (frac : List Char) : kept numberOfDecimalPlaces frac.reverse =
    (frac.drop numberOfDecimalPlaces).reverse.dropWhile (· == '0') ++
      (frac.take numberOfDecimalPlaces).reverse := by
  rw [kept, List.length_reverse, List.take_reverse, List.drop_reverse]
  by_cases hl : numberOfDecimalPlaces ≤ frac.length
  · rw [Nat.sub_sub_self hl]
  · rw [List.drop_of_length_le (show frac.length ≤ numberOfDecimalPlaces by omega),
      List.take_of_length_le (show frac.length ≤ numberOfDecimalPlaces by omega)]
    simp [show frac.length - (frac.length - numberOfDecimalPlaces) = frac.length by
      omega]

theorem dropWhile_excess : (frac.drop numberOfDecimalPlaces).reverse.dropWhile (· == '0') = [] ↔
      ∀ c ∈ frac.drop numberOfDecimalPlaces, c = '0' := by
  simp [List.dropWhile_eq_nil_iff]

theorem kept_length_le : (kept numberOfDecimalPlaces frac.reverse).length ≤ numberOfDecimalPlaces ↔
      ∀ c ∈ frac.drop numberOfDecimalPlaces, c = '0' := by
  rw [← dropWhile_excess, kept_reverse, List.length_append, List.length_reverse,
    List.length_take, ← List.length_eq_zero_iff]
  by_cases hl : numberOfDecimalPlaces ≤ frac.length
  · omega
  · simp [List.drop_of_length_le (show frac.length ≤ numberOfDecimalPlaces by omega)]

theorem parseTrimmed_point [Decidable (∀ c ∈ frac.drop numberOfDecimalPlaces, c = '0')]
    (hwh : '.' ∉ whole) :
    parseTrimmed numberOfDecimalPlaces (whole ++ '.' :: frac) =
      if ∀ c ∈ frac.drop numberOfDecimalPlaces, c = '0' then
        parseDigits numberOfDecimalPlaces frac.length
          (whole ++ frac.take numberOfDecimalPlaces)
      else none := by
  have hix : (whole ++ '.' :: frac).idxOf '.' = whole.length := by
    rw [List.idxOf_append_of_notMem hwh, List.idxOf_cons_self, Nat.add_zero]
  have hf : (whole ++ '.' :: frac).length - whole.length - 1 = frac.reverse.length := by simp
  have hr : (whole ++ '.' :: frac).reverse = frac.reverse ++ ('.' :: whole.reverse) := by simp
  simp only [parseTrimmed, hix, hf, hr, stripZeros_append]
  rw [if_pos (by simp)]
  by_cases hzs : ∀ c ∈ frac.drop numberOfDecimalPlaces, c = '0'
  · rw [if_neg (Nat.not_lt.mpr (kept_length_le.mpr hzs)), if_pos hzs, kept_reverse,
      dropWhile_excess.mpr hzs]
    have hs : numberOfDecimalPlaces - min numberOfDecimalPlaces frac.length =
        numberOfDecimalPlaces - frac.length := by omega
    simp [List.eraseIdx_append_of_length_le, parseDigits, hs]
  · rw [if_pos (Nat.not_le.mp (hzs ∘ kept_length_le.mp)), if_neg hzs]

/-- Decimal digits with at most one point, of which `whole` stands before and
`fraction` behind the point. -/
def Written (text whole fraction : List Char) : Prop :=
  (text = whole ∧ fraction = [] ∨ text = whole ++ '.' :: fraction) ∧
    ∀ c ∈ whole ++ fraction, c.isDigit = true

theorem Written.point_not_mem (h : Written text whole frac) : '.' ∉ whole := by
  intro hmem
  have hd := h.2 '.' (List.mem_append_left _ hmem)
  revert hd
  decide

theorem parseTrimmed_eq_some (hpls : 1 ≤ numberOfDecimalPlaces) :
    parseTrimmed numberOfDecimalPlaces text = some amount ↔
      ∃ whole frac, Written text whole frac ∧ whole ++ frac ≠ [] ∧
        (∀ c ∈ frac.drop numberOfDecimalPlaces, c = '0') ∧
        amount.toNat = Nat.ofDigitChars 10 (whole ++ frac.take numberOfDecimalPlaces) 0 *
          10 ^ (numberOfDecimalPlaces - frac.length) := by
  constructor
  · intro h
    by_cases hpt : '.' ∈ text
    · obtain ⟨whole,frac,rfl,hwh⟩ := List.eq_append_cons_of_mem hpt
      rw [parseTrimmed_point hwh] at h
      by_cases hzs : ∀ c ∈ frac.drop numberOfDecimalPlaces, c = '0'
      · rw [if_pos hzs, parseDigits_eq_some] at h
        obtain ⟨hne,hdig,hval⟩ := h
        refine ⟨whole,frac,⟨.inr rfl,?_⟩,?_,hzs,hval⟩
        · intro c hc
          rw [← List.take_append_drop numberOfDecimalPlaces frac, ← List.append_assoc] at hc
          rcases List.mem_append.mp hc with hc | hc
          · exact hdig c hc
          · rw [hzs c hc]
            decide
        · intro hnil
          simp_all
      · rw [if_neg hzs] at h
        cases h
    · rw [parseTrimmed, if_neg hpt, parseDigits_eq_some] at h
      refine ⟨text,[],⟨.inl ⟨rfl,rfl⟩,?_⟩,?_,?_,?_⟩ <;> simp_all
  · rintro ⟨whole,frac,hwr,hne,hzs,hval⟩
    have hwh := hwr.point_not_mem
    obtain ⟨⟨rfl,rfl⟩ | rfl,hdig⟩ := hwr
    · rw [parseTrimmed, if_neg hwh, parseDigits_eq_some]
      simp_all
    · rw [parseTrimmed_point hwh, if_pos hzs, parseDigits_eq_some]
      refine ⟨?_,?_,hval⟩
      · -- with one decimal place or more, not all digits are cut off
        intro hnil
        simp_all
      · intro c hc
        apply hdig c
        simp only [List.mem_append] at hc ⊢
        exact hc.imp_right List.mem_of_mem_take

theorem trim_eq_self (h : ∀ c ∈ text, isSpace c = false) : trim text = text := by
  have hk : ∀ l : List Char, (∀ c ∈ l, isSpace c = false) → l.dropWhile isSpace = l := by
    intro l hl
    rw [List.dropWhile_eq_self_iff]
    intro hpos
    simp [hl _ (List.getElem_mem hpos)]
  rw [trim, hk text h, hk _ (by simpa using h), List.reverse_reverse]

theorem isSpace_of_isDigit {c : Char} (h : c.isDigit = true) : isSpace c = false := by
  have hle : 48 ≤ c.toNat := by
    simp only [Char.isDigit, Bool.and_eq_true, decide_eq_true_iff] at h
    exact UInt32.le_iff_toNat_le.mp h.1
  simp [isSpace]
  omega

theorem paddedDigits_spec (amt : UInt64) :
    (∀ c ∈ paddedDigits numberOfDecimalPlaces amt, c.isDigit = true) ∧
      numberOfDecimalPlaces < (paddedDigits numberOfDecimalPlaces amt).length ∧
      Nat.ofDigitChars 10 (paddedDigits numberOfDecimalPlaces amt) 0 = amt.toNat := by
  refine ⟨?_,?_,?_⟩
  · intro c hc
    rcases List.mem_append.mp hc with hc | hc
    · rw [List.eq_of_mem_replicate hc]
      decide
    · exact Nat.isDigit_of_mem_toDigits (by decide) (by decide) hc
  · rw [paddedDigits, List.length_append, List.length_replicate]
    omega
  · rw [paddedDigits, Nat.ofDigitChars_append, Nat.ofDigitChars_replicate_zero, Nat.mul_zero,
      Nat.ofDigitChars_ten_toDigits]

theorem parseAmount_formatAmount (hpls : 1 ≤ numberOfDecimalPlaces) (amt : UInt64) :
    parseAmount numberOfDecimalPlaces (formatAmount numberOfDecimalPlaces amt) = some amt := by
  obtain ⟨hdig,_,hval⟩ := @paddedDigits_spec numberOfDecimalPlaces amt
  simp only [parseAmount, formatAmount]
  generalize paddedDigits numberOfDecimalPlaces amt = s at *
  have hj := List.take_append_drop (s.length - numberOfDecimalPlaces) s
  have hf : (s.drop (s.length - numberOfDecimalPlaces)).length = numberOfDecimalPlaces := by
    rw [List.length_drop]
    omega
  generalize s.take (s.length - numberOfDecimalPlaces) = whole at *
  generalize s.drop (s.length - numberOfDecimalPlaces) = frac at *
  subst hj
  rw [trim_eq_self, parseTrimmed_eq_some hpls]
  · refine ⟨whole,frac,⟨.inr rfl,hdig⟩,?_,?_,?_⟩
    · exact List.ne_nil_of_length_pos (by omega)
    · simp [List.drop_of_length_le hf.le]
    · rw [List.take_of_length_le hf.le, hval, hf, Nat.sub_self, Nat.pow_zero, Nat.mul_one]
  · intro c hc
    rcases List.mem_append.mp hc with hc | hc
    · exact isSpace_of_isDigit (hdig c (List.mem_append_left _ hc))
    · rcases List.mem_cons.mp hc with rfl | hc
      · decide
      · exact isSpace_of_isDigit (hdig c (List.mem_append_right _ hc))

/-- An amount is read exactly from decimal digits with at most one point, at
least one digit and nothing but zeros behind the last decimal place, and then
it is the value of the digits. What is written is read back. -/
theorem parseAmount_exact (hplaces : 1 ≤ numberOfDecimalPlaces) :
    (∀ (str : List Char) (amount : UInt64), parseAmount numberOfDecimalPlaces str = some amount ↔
      ∃ whole fraction, Written (trim str) whole fraction ∧ whole ++ fraction ≠ [] ∧
        (∀ c ∈ fraction.drop numberOfDecimalPlaces, c = '0') ∧
        amount.toNat = Nat.ofDigitChars 10 (whole ++ fraction.take numberOfDecimalPlaces) 0 *
          10 ^ (numberOfDecimalPlaces - fraction.length)) ∧
    ∀ amount : UInt64, parseAmount numberOfDecimalPlaces
      (formatAmount numberOfDecimalPlaces amount) = some amount :=
  ⟨fun _ _ => parseTrimmed_eq_some hplaces,parseAmount_formatAmount hplaces⟩

theorem parseAmount_exact_sample : parseAmount 12 (formatAmount 12 (2 ^ 64 - 1)) =
    some (2 ^ 64 - 1) :=
  (parseAmount_exact (by decide)).2 (2 ^ 64 - 1)

end Text

end Orbis.AmountDigits
