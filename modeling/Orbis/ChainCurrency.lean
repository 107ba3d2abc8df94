import Mathlib.Data.List.GetD
import Mathlib.Data.List.Sort
import Orbis.WideArithmetic
import Orbis.ChainTypes

/-!
# Currency parameters and the rules computed from them

Sizes, rewards and difficulties are 64-bit words, as in the source. The
parameters are left open; the two bounds that the builder enforces are part
of the record. The emission change of a block is computed as an unsigned
word and stored as a signed one.
-/

set_option autoImplicit false

namespace Orbis.ChainCurrency

open ChainTypes WideArithmetic

structure Currency where
  maxBlockHeight : UInt64
  minedMoneyUnlockWindow : UInt64
  timestampCheckWindow : ℕ
  blockFutureTimeLimit : UInt64
  moneySupply : UInt64
  emissionSpeedFactor : UInt64
  rewardBlocksWindow : ℕ
  blockGrantedFullRewardZone : UInt64
  minerTxBlobReservedSize : UInt64
  minimumFee : UInt64
  defaultDustThreshold : UInt64
  difficultyTarget : UInt64
  difficultyWindow : ℕ
  difficultyLag : ℕ
  difficultyCut : ℕ
  maxBlockSizeInitial : UInt64
  maxBlockSizeGrowthSpeedNumerator : UInt64
  maxBlockSizeGrowthSpeedDenominator : UInt64
  lockedTxAllowedDeltaSeconds : UInt64
  lockedTxAllowedDeltaBlocks : UInt64
  mempoolTxLiveTime : UInt64
  mempoolTxFromAltBlockLiveTime : UInt64
  numberOfPeriodsToForgetTxDeletedFromPool : UInt64
  fusionTxMaxSize : UInt64
  fusionTxMinInputCount : ℕ
  fusionTxMinInOutCountRatio : ℕ
  genesisBlock : Block
  emissionSpeedFactor_valid : 0 < emissionSpeedFactor ∧ emissionSpeedFactor ≤ 64
  difficultyWindow_valid : 2 ≤ difficultyWindow

def Currency.configured (minimumFee : UInt64) (genesisBlock : Block) : Currency where
  maxBlockHeight := 500000000
  minedMoneyUnlockWindow := 60
  timestampCheckWindow := 60
  blockFutureTimeLimit := 60 * 60 * 2
  moneySupply := 11110000000000000000
  emissionSpeedFactor := 21
  rewardBlocksWindow := 100
  blockGrantedFullRewardZone := 10000
  minerTxBlobReservedSize := 600
  minimumFee := minimumFee
  defaultDustThreshold := minimumFee
  difficultyTarget := 111
  difficultyWindow := 24 * 60 * 60 / 111
  difficultyLag := 15
  difficultyCut := 60
  maxBlockSizeInitial := 20 * 1024
  maxBlockSizeGrowthSpeedNumerator := 100 * 1024
  maxBlockSizeGrowthSpeedDenominator := 365 * 24 * 60 * 60 / 111
  lockedTxAllowedDeltaSeconds := 111
  lockedTxAllowedDeltaBlocks := 1
  mempoolTxLiveTime := 60 * 60 * 24
  mempoolTxFromAltBlockLiveTime := 60 * 60 * 24 * 7
  numberOfPeriodsToForgetTxDeletedFromPool := 7
  fusionTxMaxSize := 10000 * 30 / 100
  fusionTxMinInputCount := 12
  fusionTxMinInOutCountRatio := 4
  genesisBlock := genesisBlock
  emissionSpeedFactor_valid := by decide
  difficultyWindow_valid := by decide

def medianValue (v : List UInt64) : UInt64 :=
  match v with
  | [] => 0
  | [x] => x
  | _ =>
    let n := v.length / 2
    let sorted := v.insertionSort (· ≤ ·)
    if v.length % 2 = 1 then sorted.getD n 0
    else (sorted.getD (n - 1) 0 + sorted.getD n 0) / 2

def getPenalizedAmount (amount medianSize currentBlockSize : UInt64) : UInt64 :=
  if amount = 0 then 0
  else if currentBlockSize ≤ medianSize then amount
  else
    let product := mul128 amount (currentBlockSize * (2 * medianSize - currentBlockSize))
    let quotient := div128_32 product.1 product.2 medianSize.toUInt32
    (div128_32 quotient.1 quotient.2 medianSize.toUInt32).2

namespace Currency

variable (currency : Currency)

def getBlockReward (medianSize currentBlockSize alreadyGeneratedCoins fee : UInt64) :
    Option (UInt64 × Int64) :=
  let baseReward := (currency.moneySupply - alreadyGeneratedCoins) >>>
    currency.emissionSpeedFactor
  let medianSize := max medianSize currency.blockGrantedFullRewardZone
  if currentBlockSize > 2 * medianSize then none
  else
    let penalizedBaseReward := getPenalizedAmount baseReward medianSize currentBlockSize
    let penalizedFee := getPenalizedAmount fee medianSize currentBlockSize
    some (penalizedBaseReward + penalizedFee,
      (penalizedBaseReward - (fee - penalizedFee)).toInt64)

def maxBlockCumulativeSize (height : ℕ) : UInt64 :=
  currency.maxBlockSizeInitial +
    (UInt64.ofNat height * currency.maxBlockSizeGrowthSpeedNumerator) /
      currency.maxBlockSizeGrowthSpeedDenominator

def difficultyBlocksCount : ℕ := currency.difficultyWindow + currency.difficultyLag

def nextDifficulty (timestamps cumulativeDifficulties : List UInt64) : UInt64 :=
  let timestamps := timestamps.take currency.difficultyWindow
  let cumulativeDifficulties := cumulativeDifficulties.take currency.difficultyWindow
  let length := timestamps.length
  if length ≤ 1 then 1
  else
    let sorted := timestamps.insertionSort (· ≤ ·)
    let kept := currency.difficultyWindow - 2 * currency.difficultyCut
    let cutBegin := if length ≤ kept then 0 else (length - kept + 1) / 2
    let cutEnd := if length ≤ kept then length else cutBegin + kept
    let span := sorted.getD (cutEnd - 1) 0 - sorted.getD cutBegin 0
    let timeSpan := if span = 0 then 1 else span
    let totalWork := cumulativeDifficulties.getD (cutEnd - 1) 0 -
      cumulativeDifficulties.getD cutBegin 0
    let product := mul128 totalWork currency.difficultyTarget
    if product.1 ≠ 0 ∨ product.2 + timeSpan - 1 < product.2 then 0
    else (product.2 + timeSpan - 1) / timeSpan

end Currency

variable {ms cbs bound : UInt64} {i : ℕ}

theorem getPenalizedAmount_of_le (amt : UInt64) (h : cbs ≤ ms) :
    getPenalizedAmount amt ms cbs = amt := by
  unfold getPenalizedAmount
  by_cases hz : amt = 0
  · rw [if_pos hz, hz]
  · rw [if_neg hz, if_pos h]

def Currency.baseReward (currency : Currency) (alreadyGeneratedCoins : UInt64) : UInt64 :=
  (currency.moneySupply - alreadyGeneratedCoins) >>> currency.emissionSpeedFactor

theorem getBlockReward_granted (cy : Currency) (coins : UInt64)
    (hmed : ms ≤ cy.blockGrantedFullRewardZone) (hs : cbs ≤ cy.blockGrantedFullRewardZone)
    (hz : cy.blockGrantedFullRewardZone.toNat < 2 ^ 63) :
    cy.getBlockReward ms cbs coins 0 = some (cy.baseReward coins,
        (cy.baseReward coins).toInt64) := by
  have hmax : max ms cy.blockGrantedFullRewardZone = cy.blockGrantedFullRewardZone := if_pos hmed
  have hlg : ¬ cbs > 2 * cy.blockGrantedFullRewardZone := by
    rw [UInt64.le_iff_toNat_le] at hs
    rw [gt_iff_lt, UInt64.lt_iff_toNat_lt, UInt64.toNat_mul, show UInt64.toNat 2 = 2 from rfl,
      Nat.mod_eq_of_lt (by omega)]
    omega
  unfold Currency.getBlockReward
  simp only [hmax, if_neg hlg, getPenalizedAmount_of_le _ hs, UInt64.add_zero, UInt64.sub_zero]
  rfl

theorem insertionSort_perm {l r : List UInt64} (h : l.Perm r) :
    l.insertionSort (· ≤ ·) = r.insertionSort (· ≤ ·) := by
  have hp := ((List.perm_insertionSort (· ≤ ·) l).trans h).trans
    (List.perm_insertionSort (· ≤ ·) r).symm
  apply hp.eq_of_pairwise _ (List.pairwise_insertionSort (· ≤ ·) l)
    (List.pairwise_insertionSort (· ≤ ·) r)
  intro a b _ _ hab hba
  exact UInt64.le_antisymm hab hba

variable {v : List UInt64} {tgt : UInt64} {first cnt : ℕ}

theorem getD_insertionSort_mono {j : ℕ} (hij : i < j) (hj : j < v.length) :
    (v.insertionSort (· ≤ ·)).getD i 0 ≤ (v.insertionSort (· ≤ ·)).getD j 0 := by
  have hsrt : (v.insertionSort (· ≤ ·)).Pairwise (· ≤ ·) := List.pairwise_insertionSort _ v
  have hlen := List.length_insertionSort (· ≤ ·) v
  rw [List.getD_eq_getElem _ _ (by omega), List.getD_eq_getElem _ _ (by omega)]
  exact List.pairwise_iff_getElem.mp hsrt i j (by omega) (by omega) hij

theorem getD_insertionSort_le (h : ∀ x ∈ v, x ≤ bound) (i : ℕ) :
    (v.insertionSort (· ≤ ·)).getD i 0 ≤ bound := by
  rw [List.getD_eq_getElem?_getD]
  cases hget : (v.insertionSort (· ≤ ·))[i]? with
  | none => exact UInt64.zero_le
  | some x => exact h x ((List.perm_insertionSort _ v).mem_iff.mp (List.mem_of_getElem? hget))

theorem medianValue_le (hbd : bound.toNat < 2 ^ 63) (h : ∀ x ∈ v, x ≤ bound) :
    medianValue v ≤ bound := by
  unfold medianValue
  split
  · exact UInt64.zero_le
  · exact h _ List.mem_cons_self
  · split_ifs with hodd
    · exact getD_insertionSort_le h _
    · have hlow := UInt64.le_iff_toNat_le.mp (getD_insertionSort_le h (v.length / 2 - 1))
      have hh := UInt64.le_iff_toNat_le.mp (getD_insertionSort_le h (v.length / 2))
      rw [UInt64.le_iff_toNat_le, UInt64.toNat_div, UInt64.toNat_add,
        Nat.mod_eq_of_lt (by omega), show UInt64.toNat 2 = 2 from rfl]
      omega

def paced (target : UInt64) (first count : ℕ) : List UInt64 :=
  (List.range' first count).map fun i => UInt64.ofNat (i * target.toNat)

def piled (first count : ℕ) : List UInt64 :=
  (List.range' first count).map fun i => UInt64.ofNat (i + 1)

theorem paced_succ : paced tgt first (cnt + 1) =
    paced tgt first cnt ++ [UInt64.ofNat ((first + cnt) * tgt.toNat)] := by
  rw [paced, List.range'_concat, List.map_append, Nat.one_mul]
  rfl

theorem piled_succ (first ct : ℕ) :
    piled first (ct + 1) = piled first ct ++ [UInt64.ofNat (first + ct + 1)] := by
  rw [piled, List.range'_concat, List.map_append, Nat.one_mul]
  rfl

theorem getD_paced {first : ℕ} {ct : ℕ} (hi : i < ct) :
    (paced tgt first ct).getD i 0 = UInt64.ofNat ((first + i) * tgt.toNat) := by
  rw [List.getD_eq_getElem?_getD, paced, List.getElem?_map, List.getElem?_range' hi]
  simp

theorem getD_piled (first : ℕ) {ct : ℕ} (hi : i < ct) :
    (piled first ct).getD i 0 = UInt64.ofNat (first + i + 1) := by
  rw [List.getD_eq_getElem?_getD, piled, List.getElem?_map, List.getElem?_range' hi]
  simp

theorem sort_paced (hsm : (first + cnt) * tgt.toNat < 2 ^ 64) :
    (paced tgt first cnt).insertionSort (· ≤ ·) = paced tgt first cnt := by
  apply List.Pairwise.insertionSort_eq
  rw [paced, List.pairwise_map]
  apply (List.pairwise_lt_range').imp_of_mem
  intro i j hi hj hij
  have hj' := (List.mem_range'_1.mp hj).2
  have hle : i * tgt.toNat ≤ j * tgt.toNat := Nat.mul_le_mul_right _ hij.le
  have hlt : j * tgt.toNat ≤ (first + cnt) * tgt.toNat := Nat.mul_le_mul_right _ hj'.le
  have hlow := UInt64.toNat_ofNat_of_lt' (lt_of_le_of_lt (hle.trans hlt) hsm)
  have hh := UInt64.toNat_ofNat_of_lt' (lt_of_le_of_lt hlt hsm)
  rw [UInt64.le_iff_toNat_le, hlow, hh]
  exact hle

theorem take_steps (first ct n : ℕ) :
    (List.range' first ct).take n = List.range' first (min n ct) := by
  apply List.ext_getElem
  · simp
  · intro i hl hr
    simp

theorem work_over_time {target span : UInt64} {steps : ℕ} (hst : 0 < steps)
    (htgt : 0 < target.toNat) (hs : span.toNat = steps * target.toNat)
    (hsm : 2 * (steps * target.toNat) < 2 ^ 64) :
    (if (mul128 (UInt64.ofNat steps) target).1 ≠ 0 ∨
        (mul128 (UInt64.ofNat steps) target).2 + (if span = 0 then 1 else span) - 1 <
          (mul128 (UInt64.ofNat steps) target).2 then 0
      else ((mul128 (UInt64.ofNat steps) target).2 + (if span = 0 then 1 else span) - 1) /
        (if span = 0 then 1 else span)) = 1 := by
  have hpos : 0 < steps * target.toNat := Nat.mul_pos hst htgt
  have hle : steps ≤ steps * target.toNat := Nat.le_mul_of_pos_right _ htgt
  have hnat : (UInt64.ofNat steps).toNat = steps := UInt64.toNat_ofNat_of_lt' (by
    exact lt_of_le_of_lt hle (show _ < 2 ^ 64 by omega))
  have hne : span ≠ 0 := by
    rintro rfl
    rw [UInt64.toNat_zero] at hs
    omega
  have hpr : mul128 (UInt64.ofNat steps) target = (0, span) := by
    rw [mul128_small (by rw [hnat]; omega), hnat, ← hs, UInt64.ofNat_toNat]
  have hd : (span + span - 1).toNat = 2 * span.toNat - 1 := by
    rw [UInt64.toNat_sub_of_le, UInt64.toNat_add, Nat.mod_eq_of_lt (by omega), UInt64.toNat_one]
    · omega
    · rw [UInt64.le_iff_toNat_le, UInt64.toNat_add, Nat.mod_eq_of_lt (by omega), UInt64.toNat_one]
      omega
  rw [hpr, if_neg hne, if_neg]
  · apply UInt64.toNat_inj.mp
    rw [UInt64.toNat_div, hd, UInt64.toNat_one]
    exact Nat.div_eq_of_lt_le (by omega) (by omega)
  · rw [not_or, not_not, UInt64.not_lt, UInt64.le_iff_toNat_le]
    exact ⟨rfl,by change span.toNat ≤ (span + span - 1).toNat; omega⟩

theorem sub_ofNat {a b : ℕ} (hle : a ≤ b) (hb : b < 2 ^ 64) :
    UInt64.ofNat b - UInt64.ofNat a = UInt64.ofNat (b - a) := by
  apply UInt64.toNat_inj.mp
  have ha := UInt64.toNat_ofNat_of_lt' (show a < UInt64.size from lt_of_le_of_lt hle hb)
  have hb' := UInt64.toNat_ofNat_of_lt' (show b < UInt64.size from hb)
  rw [UInt64.toNat_sub_of_le, ha, hb', UInt64.toNat_ofNat_of_lt']
  · exact lt_of_le_of_lt (Nat.sub_le b a) hb
  · rw [UInt64.le_iff_toNat_le, ha, hb']
    exact hle

theorem nextDifficulty_paced (cy : Currency) (hke : 2 + 2 * cy.difficultyCut ≤ cy.difficultyWindow)
    (htgt : 0 < cy.difficultyTarget.toNat)
    (hsm : 2 * ((first + cnt + 1) * cy.difficultyTarget.toNat) < 2 ^ 64) :
    cy.nextDifficulty (paced cy.difficultyTarget first cnt) (piled first cnt) = 1 := by
  have ht : (paced cy.difficultyTarget first cnt).take cy.difficultyWindow =
      paced cy.difficultyTarget first (min cy.difficultyWindow cnt) := by
    rw [paced, ← List.map_take, take_steps, paced]
  have hp : (piled first cnt).take cy.difficultyWindow =
      piled first (min cy.difficultyWindow cnt) := by
    rw [piled, ← List.map_take, take_steps, piled]
  have hlen : ∀ k, (paced cy.difficultyTarget first k).length = k := by
    intro k
    rw [paced, List.length_map, List.length_range']
  generalize hk : min cy.difficultyWindow cnt = k at ht hp
  have hkc : k ≤ cnt := by omega
  have hbd : ∀ i, i ≤ first + k → 2 * ((i + 1) * cy.difficultyTarget.toNat) < 2 ^ 64 := by
    intro i hi
    have := Nat.mul_le_mul_right cy.difficultyTarget.toNat (show i + 1 ≤ first + cnt + 1 by omega)
    omega
  unfold Currency.nextDifficulty
  simp only [ht, hp, hlen, sort_paced (show (first + k) * cy.difficultyTarget.toNat <
    2 ^ 64 by have := hbd (first + k) le_rfl; rw [Nat.add_mul] at this; omega)]
  by_cases hone : k ≤ 1
  · rw [if_pos hone]
  · rw [if_neg hone]
    generalize hf : (if k ≤ cy.difficultyWindow - 2 * cy.difficultyCut then 0
      else (k - (cy.difficultyWindow - 2 * cy.difficultyCut) + 1) / 2) = low
    generalize hto : (if k ≤ cy.difficultyWindow - 2 * cy.difficultyCut then k
      else low + (cy.difficultyWindow - 2 * cy.difficultyCut)) = high
    have hlow : low + 2 ≤ high ∧ high ≤ k := by
      split_ifs at hf hto with hall <;> omega
    have hpa : ∀ i < k, (paced cy.difficultyTarget first k).getD i 0 =
        UInt64.ofNat ((first + i) * cy.difficultyTarget.toNat) :=
      fun i hi => getD_paced hi
    rw [hpa _ (by omega), hpa _ (by omega), getD_piled _ (by omega), getD_piled _ (by omega)]
    have hl := hbd (first + (high - 1)) (by omega)
    have hs : (first + (high - 1)) * cy.difficultyTarget.toNat =
        (first + low) * cy.difficultyTarget.toNat +
          (high - 1 - low) * cy.difficultyTarget.toNat := by
      rw [← Nat.add_mul]
      congr 1
      omega
    rw [Nat.add_mul] at hl
    have hw : UInt64.ofNat (first + (high - 1) + 1) - UInt64.ofNat (first + low + 1) =
        UInt64.ofNat (high - 1 - low) := by
      rw [sub_ofNat (by omega) (by
        have := Nat.le_mul_of_pos_right (first + (high - 1)) htgt
        omega)]
      congr 1
      omega
    rw [hw, sub_ofNat (by omega) (by omega), hs, Nat.add_sub_cancel_left]
    apply work_over_time (by omega) htgt
    · apply UInt64.toNat_ofNat_of_lt'
      change _ < 2 ^ 64
      omega
    · omega
end Orbis.ChainCurrency
