import Orbis.ChainCurrency
import Orbis.ChainSignature

/-!
# Checks of a single transaction

Everything a transaction is tested for on its own, before it meets the
chain: amounts and their sums, output keys, distinct inputs, and the size of
its serialised form. The environment collects what the node takes from
outside: the currency, the checkpoints, the hashes and the curve.
-/

set_option autoImplicit false

namespace Orbis.ChainSemantic

open ChainTypes ChainCurrency ChainSignature

structure Checkpoints where
  points : List (ℕ × Hash)
  increasing : (points.map Prod.fst).Pairwise (· < ·)

namespace Checkpoints

variable (checkpoints : Checkpoints)

def isInCheckpointZone (height : ℕ) : Bool :=
  match checkpoints.points.getLast? with
  | none => false
  | some point => height ≤ point.1

def isCheckpoint (height : ℕ) : Bool := checkpoints.points.any fun point => point.1 == height

def checkBlock (height : ℕ) (h : Hash) : Bool :=
  match checkpoints.points.find? fun point => point.1 == height with
  | none => true
  | some point => point.2 == h

def isAlternativeBlockAllowed (blockchainHeight blockHeight : ℕ) : Bool :=
  if blockHeight = 0 then false
  else
    match (checkpoints.points.filter fun point => point.1 ≤ blockchainHeight).getLast? with
    | none => true
    | some point => point.1 < blockHeight

end Checkpoints

structure Env where
  ops : CurveOps
  getObjectHash : Transaction → Hash
  getPrefixHash : TransactionPrefix → Hash
  getBlockHash : Block → Hash
  getPaymentId : List UInt8 → Option Hash
  checkProofOfWork : Block → UInt64 → Bool
  currency : Currency
  checkpoints : Checkpoints

abbrev TxInj (env : Env) (U : Set Transaction) : Prop := Set.InjOn env.getObjectHash U

/-- Moreover none of them stores a key that the sparse tables reserve: once a
place is deleted, such an entry counts as deleted too. -/
structure Storable (env : Env) (U : Set Transaction) : Prop where
  injective : TxInj env U
  amounts : ∀ tx ∈ U, ∀ out ∈ tx.outputs, isKey out.target = true → out.amount ≠ deletedAmount
  images : ∀ tx ∈ U, nullImage ∉ keyImages tx.inputs

abbrev BlockInj (env : Env) (P : Block → Prop) : Prop := Set.InjOn env.getBlockHash {b | P b}

def getInputsAmounts (tx : TransactionPrefix) : List UInt64 :=
  tx.inputs.filterMap fun input => match input with
    | .base _ => none
    | .key amount _ _ => some amount
    | .multisignature amount _ _ => some amount

def getInputAmount (tx : TransactionPrefix) : UInt64 := (getInputsAmounts tx).foldl (· + ·) 0

def getOutputAmount (tx : TransactionPrefix) : UInt64 :=
  (tx.outputs.map TransactionOutput.amount).foldl (· + ·) 0

def inputMoney : TransactionInput → UInt64
  | .base _ => 0
  | .key amount _ _ => amount
  | .multisignature amount _ _ => amount

def getInputsMoneyAmount (tx : TransactionPrefix) : UInt64 :=
  (tx.inputs.map inputMoney).foldl (· + ·) 0

def getOutsMoneyAmount (tx : TransactionPrefix) : UInt64 :=
  (tx.outputs.map TransactionOutput.amount).foldl (· + ·) 0

def getBlockHeight (b : Block) : ℕ :=
  match b.baseTransaction.inputs with
  | [.base blockIndex] => blockIndex
  | _ => 0

theorem getBlockHeight_of_inputs {b : Block} {ht : ℕ}
    (h : b.baseTransaction.inputs = [.base ht]) : getBlockHeight b = ht := by
  simp [getBlockHeight, h]

def isSupported : TransactionInput → Bool
  | .base _ => false
  | .key _ _ _ => true
  | .multisignature _ _ _ => true

def checkInputsTypesSupported (tx : TransactionPrefix) : Bool := tx.inputs.all isSupported

def checkTargetValid (ops : CurveOps) (out : TransactionOutput) : Bool :=
  match out.target with
  | .key key => out.amount != 0 && ops.checkKey key
  | .multisignature keys requiredSignatureCount =>
    requiredSignatureCount.toNat ≤ keys.length && keys.all ops.checkKey

def checkOutsValid (ops : CurveOps) (tx : TransactionPrefix) : Bool :=
  tx.outputs.all (checkTargetValid ops)

def checkMultisignatureInputsDiff (tx : TransactionPrefix) : Bool :=
  (multisignatureSpends tx.inputs).Nodup

def checkTxInputsKeyimagesDiff (tx : TransactionPrefix) : Bool := (keyImages tx.inputs).Nodup

def checkAmountsOverflow : UInt64 → List UInt64 → Bool
  | _, [] => true
  | money, amount :: rest =>
    if money > amount + money then false else checkAmountsOverflow (money + amount) rest

def exactSum (amounts : List UInt64) : ℕ := (amounts.map UInt64.toNat).sum

theorem checkAmountsOverflow_iff {money : UInt64} {amts : List UInt64} :
    checkAmountsOverflow money amts = true ↔ money.toNat + exactSum amts < 2 ^ 64 := by
  induction amts generalizing money with
  | nil => simpa [checkAmountsOverflow, exactSum] using money.toNat_lt
  | cons amt rest ih =>
    have hc : exactSum (amt :: rest) = amt.toNat + exactSum rest := rfl
    have hm := money.toNat_lt
    have ham := amt.toNat_lt
    rw [checkAmountsOverflow, hc]
    by_cases hw : money > amt + money
    · rw [if_pos hw]
      rw [gt_iff_lt, UInt64.lt_iff_toNat_lt, UInt64.toNat_add] at hw
      simp only [Bool.false_eq_true, false_iff]
      omega
    · rw [if_neg hw, ih, UInt64.toNat_add]
      rw [gt_iff_lt, UInt64.lt_iff_toNat_lt, UInt64.toNat_add] at hw
      omega

theorem checkAmountsOverflow_zeros {money : UInt64} {cnt : ℕ} :
    checkAmountsOverflow money (List.replicate cnt 0) = true := by
  have hf := money.toNat_lt
  rw [checkAmountsOverflow_iff]
  simpa [exactSum] using hf

def checkInputsOverflow (tx : TransactionPrefix) : Bool :=
  checkAmountsOverflow 0 (tx.inputs.map inputMoney)

def checkOutsOverflow (tx : TransactionPrefix) : Bool :=
  checkAmountsOverflow 0 (tx.outputs.map TransactionOutput.amount)

def checkMoneyOverflow (tx : TransactionPrefix) : Bool :=
  checkInputsOverflow tx && checkOutsOverflow tx

def checkTxSemantic (ops : CurveOps) (tx : TransactionPrefix) : Bool :=
  !tx.inputs.isEmpty && checkInputsTypesSupported tx && checkOutsValid ops tx &&
    checkMoneyOverflow tx && !(getInputsMoneyAmount tx < getOutsMoneyAmount tx) &&
    checkTxInputsKeyimagesDiff tx && checkMultisignatureInputsDiff tx

def relativeOutputOffsetsToAbsolute (offsets : List UInt32) : List UInt32 :=
  (offsets.scanl (· + ·) 0).tail

def varintSize : ℕ → ℕ → ℕ
  | 0, _ => 0
  | bytes + 1, value => if value < 128 then 1 else 1 + varintSize bytes (value / 128)

def varint (value : ℕ) : ℕ := varintSize 10 value

theorem varintSize_le (bs value : ℕ) : varintSize bs value ≤ bs := by
  induction bs generalizing value with
  | zero => exact le_rfl
  | succ _ ih =>
    have := ih (value / 128)
    rw [varintSize]
    split_ifs <;> omega

def inputBinarySize : TransactionInput → ℕ
  | .base blockIndex => 1 + varint blockIndex
  | .key amount outputIndexes _ =>
    1 + varint amount.toNat + varint outputIndexes.length +
      (outputIndexes.map fun index => varint index.toNat).sum + 32
  | .multisignature amount signatureCount outputIndex =>
    1 + varint amount.toNat + varint signatureCount.toNat + varint outputIndex.toNat

def outputBinarySize (out : TransactionOutput) : ℕ :=
  varint out.amount.toNat + 1 + match out.target with
    | .key _ => 32
    | .multisignature keys requiredSignatureCount =>
      varint keys.length + 32 * keys.length + varint requiredSignatureCount.toNat

def getObjectBinarySize (tx : Transaction) : UInt64 :=
  UInt64.ofNat (varint tx.version.toNat + varint tx.unlockTime.toNat +
    varint tx.inputs.length + (tx.inputs.map inputBinarySize).sum +
    varint tx.outputs.length + (tx.outputs.map outputBinarySize).sum +
    varint tx.extra.length + tx.extra.length +
    64 * (tx.signatures.map List.length).sum)

def decomposeDigits (dustThreshold : UInt64) :
    ℕ → UInt64 → UInt64 → UInt64 → Bool → List UInt64
  | 0, _, _, _, _ => []
  | digits + 1, amount, order, dust, isDustHandled =>
    if amount = 0 then (if !isDustHandled && dust != 0 then [dust] else [])
    else
      let chunk := amount % 10 * order
      if dust + chunk ≤ dustThreshold then
        decomposeDigits dustThreshold digits (amount / 10) (order * 10) (dust + chunk)
          isDustHandled
      else
        let handled := !isDustHandled && dust != 0
        (if handled then [dust] else []) ++ (if chunk != 0 then [chunk] else []) ++
          decomposeDigits dustThreshold digits (amount / 10) (order * 10) dust
            (isDustHandled || handled)

def decomposeAmount (amount dustThreshold : UInt64) : List UInt64 :=
  decomposeDigits dustThreshold 21 amount 1 0 false

def isFusionTransaction (currency : Currency) (tx : Transaction) (size : UInt64) : Bool :=
  let inputsAmounts := getInputsAmounts tx.toTransactionPrefix
  let outputsAmounts := tx.outputs.map TransactionOutput.amount
  if size > currency.fusionTxMaxSize then false
  else if inputsAmounts.length < currency.fusionTxMinInputCount then false
  else if inputsAmounts.length <
      outputsAmounts.length * currency.fusionTxMinInOutCountRatio then false
  else if inputsAmounts.any (· < currency.defaultDustThreshold) then false
  else
    (decomposeAmount (getInputAmount tx.toTransactionPrefix)
      currency.defaultDustThreshold).insertionSort (· ≤ ·) == outputsAmounts

structure Semantic (ops : CurveOps) (tx : TransactionPrefix) : Prop where
  inputs_ne : tx.inputs ≠ []
  supported : ∀ input ∈ tx.inputs, isSupported input = true
  targets : ∀ out ∈ tx.outputs, checkTargetValid ops out = true
  money : checkMoneyOverflow tx = true
  funded : ¬ getInputsMoneyAmount tx < getOutsMoneyAmount tx
  images : (keyImages tx.inputs).Nodup
  spends : (multisignatureSpends tx.inputs).Nodup

theorem checkTxSemantic_iff (ops : CurveOps) (tx : TransactionPrefix) :
    checkTxSemantic ops tx = true ↔ Semantic ops tx := by
  simp only [checkTxSemantic, checkInputsTypesSupported, checkOutsValid,
    checkTxInputsKeyimagesDiff, checkMultisignatureInputsDiff, Bool.and_eq_true,
    Bool.not_eq_true', List.isEmpty_eq_false_iff, List.all_eq_true, decide_eq_true_eq,
    decide_eq_false_iff_not, and_assoc]
  constructor
  · rintro ⟨hne,hsup,ht,hm,hfun,hims,hsps⟩
    exact ⟨hne,hsup,ht,hm,hfun,hims,hsps⟩
  · rintro ⟨hne,hsup,ht,hm,hfun,hims,hsps⟩
    exact ⟨hne,hsup,ht,hm,hfun,hims,hsps⟩

end Orbis.ChainSemantic
