import Orbis.ChainTables

/-!
# Checking the inputs of a transaction against the chain

The checks look an output up in the tables and then read the block that the
table names. The block store throws for a position outside it; a read
outside a plain vector has no defined meaning. A table may already hold
outputs of the block that is being added, and that block is not in the store
yet.
-/

set_option autoImplicit false

namespace Orbis.ChainInputs

open FaultState VectorTable ChainTypes ChainSemantic ChainTables

variable (env : Env) (now : UInt64) (blocks : List BlockEntry)

variable {t : Tables} {input : TransactionInput} {maxUsed : ℕ}

def transactionByIndex (index : TransactionIndex) : Except Fault TransactionEntry :=
  match blocks[index.block]? with
  | none => .error .outOfRange
  | some block =>
    match block.transactions[index.transaction.toNat]? with
    | none => .error .undefined
    | some entry => .ok entry

def isTxSpendtimeUnlocked (unlockTime : UInt64) : Bool :=
  if unlockTime < env.currency.maxBlockHeight then
    (UInt32.ofNat blocks.length - 1).toUInt64 + env.currency.lockedTxAllowedDeltaBlocks ≥
      unlockTime
  else now + env.currency.lockedTxAllowedDeltaSeconds ≥ unlockTime

/-- The visitor of `check_tx_input`: the key of an unlocked key output. -/
def handleOutput (tx : Transaction) (out : TransactionOutput) : Option PublicKey :=
  if !isTxSpendtimeUnlocked env now blocks tx.unlockTime then none
  else
    match out.target with
    | .key key => some key
    | .multisignature _ _ => none

def scanOffsets (amountOuts : List (TransactionIndex × UInt16)) :
    List UInt32 → Except Fault (Option (List PublicKey × ℕ))
  | [] => .ok (some ([], 0))
  | i :: rest =>
    match amountOuts[i.toNat]? with
    | none => .ok none
    | some (index, output) => do
      let entry ← transactionByIndex blocks index
      match entry.tx.outputs[output.toNat]? with
      | none => .ok none
      | some out =>
        match handleOutput env now blocks entry.tx out with
        | none => .ok none
        | some key =>
          match ← scanOffsets amountOuts rest with
          | none => .ok none
          | some (keys, last) => .ok (some (key :: keys, if rest = [] then index.block else last))

def scanOutputKeysForIndexes (t : Tables) (amount : UInt64) (outputIndexes : List UInt32) :
    Except Fault (Option (List PublicKey × ℕ)) :=
  match t.outputs.lookup amount with
  | none => .ok none
  | some amountOuts =>
    if outputIndexes = [] then .ok none
    else scanOffsets env now blocks amountOuts (relativeOutputOffsetsToAbsolute outputIndexes)

def blockCacheSize : ℕ := 1024

/-- Whether the cache of `m_blocks` still has every block of the ring when
the last one was read. The keys are kept as pointers into that cache, which
drops the block used least recently. -/
def ringCached (t : Tables) (amount : UInt64) (outputIndexes : List UInt32) : Bool :=
  let places := (relativeOutputOffsetsToAbsolute outputIndexes).filterMap fun i =>
    (bucket t.outputs amount)[i.toNat]?
  (places.map fun place => place.1.block).dedup.length ≤ blockCacheSize

def checkTxInput (t : Tables) (prefixHash : Hash) (amount : UInt64)
    (outputIndexes : List UInt32) (keyImage : KeyImage) (sig : List Signature)
    (maxUsed : ℕ) : Except Fault (Bool × ℕ) := do
  match ← scanOutputKeysForIndexes env now blocks t amount outputIndexes with
  | none => .ok (false, maxUsed)
  | some (keys, last) =>
    if outputIndexes.length ≠ keys.length then .ok (false, max maxUsed last)
    else if sig.length ≠ keys.length then .ok (false, max maxUsed last)
    else if !ringCached t amount outputIndexes then .error .dangling
    else
      let valid ← env.ops.checkRingSignature prefixHash keyImage keys sig
      .ok (valid, max maxUsed last)

def checkMultisignatures (prefixHash : Hash) :
    List PublicKey → List Signature → Except Fault Bool
  | _, [] => .ok true
  | [], _ :: _ => .ok false
  | key :: keys, sig :: sigs => do
    if ← env.ops.checkSignature prefixHash key sig then checkMultisignatures prefixHash keys sigs
    else checkMultisignatures prefixHash keys (sig :: sigs)

def validateInput (t : Tables) (prefixHash : Hash) (amount : UInt64) (signatureCount : UInt8)
    (outputIndex : UInt32) (sigs : List Signature) : Except Fault Bool :=
  match (bucket t.multisignatureOutputs amount)[outputIndex.toNat]? with
  | none => .ok false
  | some usage =>
    if usage.isUsed then .ok false
    else do
      let entry ← transactionByIndex blocks usage.transactionIndex
      if !isTxSpendtimeUnlocked env now blocks entry.tx.unlockTime then .ok false
      else
        match entry.tx.outputs[usage.outputIndex.toNat]? with
        | none => .error .undefined
        | some out =>
          match out.target with
          | .key _ => .error .badGet
          | .multisignature keys requiredSignatureCount =>
            if signatureCount ≠ requiredSignatureCount then .ok false
            else checkMultisignatures env prefixHash keys sigs

def checkInput (t : Tables) (prefixHash : Hash) (input : TransactionInput)
    (sig : List Signature) (maxUsed : ℕ) : Except Fault (Bool × ℕ) :=
  match input with
  | .base _ => .ok (false, maxUsed)
  | .key amount outputIndexes keyImage =>
    if outputIndexes = [] then .ok (false, maxUsed)
    else if keyImage ∈ t.spentKeys then .ok (false, maxUsed)
    else checkTxInput env now blocks t prefixHash amount outputIndexes keyImage sig maxUsed
  | .multisignature amount signatureCount outputIndex => do
    let valid ← validateInput env now blocks t prefixHash amount signatureCount outputIndex sig
    .ok (valid, maxUsed)

def checkInputs (t : Tables) (prefixHash : Hash) :
    List (TransactionInput × List Signature) → ℕ → Except Fault (Bool × ℕ)
  | [], maxUsed => .ok (true, maxUsed)
  | (input, sig) :: rest, maxUsed => do
    let (valid, maxUsed) ← checkInput env now blocks t prefixHash input sig maxUsed
    if valid then checkInputs t prefixHash rest maxUsed else .ok (false, maxUsed)

def checkTransactionInputs (t : Tables) (tx : Transaction) : Except Fault (Bool × ℕ) :=
  checkInputs env now blocks t (env.getPrefixHash tx.toTransactionPrefix)
    (tx.inputs.zip tx.signatures) 0

def FreeInput (t : Tables) : TransactionInput → Prop
  | .base _ => False
  | .key _ _ image => image ∉ t.spentKeys
  | .multisignature amount _ outputIndex => ∃ usage,
      (bucket t.multisignatureOutputs amount)[outputIndex.toNat]? = some usage ∧
        usage.isUsed = false

variable {env now blocks}

variable {tx : Transaction} {ph : Hash} {sig : List Signature} {maxUsed' : ℕ}

theorem ringCached_of_length {amount : UInt64} {offsets : List UInt32}
    (h : offsets.length ≤ blockCacheSize) : ringCached t amount offsets = true := by
  have hlen : (relativeOutputOffsetsToAbsolute offsets).length = offsets.length := by
    simp [relativeOutputOffsetsToAbsolute]
  simp only [ringCached, decide_eq_true_eq]
  calc _ ≤ _ := (List.dedup_sublist _).length_le
    _ = _ := List.length_map _
    _ ≤ _ := List.length_filterMap_le _ _
    _ ≤ _ := hlen.trans_le h

theorem handleOutput_key {out : TransactionOutput} {key : PublicKey}
    (h : handleOutput env now blocks tx out = some key) : out.target = .key key := by
  unfold handleOutput at h
  split at h
  · cases h
  · cases htgt : out.target with
    | key _ =>
      rw [htgt] at h
      cases h
      rfl
    | multisignature _ _ =>
      rw [htgt] at h
      cases h

theorem free_of_checkInput
    (h : checkInput env now blocks t ph input sig maxUsed = .ok (true, maxUsed')) :
    FreeInput t input := by
  cases input with
  | base _ => simp [checkInput] at h
  | key _ _ _ =>
    intro hsp
    simp only [checkInput, hsp, if_true] at h
    split_ifs at h <;> simp at h
  | multisignature amt _ oi =>
    simp only [checkInput, except_bind_ok, validateInput] at h
    obtain ⟨_,hvd,_⟩ := h
    cases hus : (bucket t.multisignatureOutputs amt)[oi.toNat]? with
    | none =>
      simp only [hus] at hvd
      simp_all
    | some usage =>
      refine ⟨usage,hus,?_⟩
      cases hu : usage.isUsed with
      | false => rfl
      | true =>
        simp only [hus, hu, if_true] at hvd
        simp_all

theorem checkInput_of_checkInputs {l : List (TransactionInput × List Signature)}
    (h : checkInputs env now blocks t ph l maxUsed = .ok (true, maxUsed'))
    (hmem : (input, sig) ∈ l) :
    ∃ a b, checkInput env now blocks t ph input sig a = .ok (true, b) := by
  induction l generalizing maxUsed with
  | nil => cases hmem
  | cons head _ ih =>
    obtain ⟨_,_⟩ := head
    simp only [checkInputs, except_bind_ok] at h
    obtain ⟨⟨valid,used⟩,hh,hr⟩ := h
    cases valid with
    | false => simp at hr
    | true =>
      rcases List.mem_cons.mp hmem with heq | ht
      · cases heq
        exact ⟨maxUsed,used,hh⟩
      · exact ih hr ht

theorem mem_zip_signatures (tx : Transaction) (h : input ∈ tx.inputs)
    : ∃ sig, (input, sig) ∈ tx.inputs.zip tx.signatures := by
  have hlen : tx.inputs.length = tx.signatures.length := by
    have := congrArg List.length tx.signed
    simpa using this.symm
  obtain ⟨i,_,rfl⟩ := List.mem_iff_getElem.mp h
  refine ⟨tx.signatures[i],List.mem_iff_getElem.mpr ⟨i,by simp; omega,by simp⟩⟩

theorem free_of_checkTransactionInputs
    (h : checkTransactionInputs env now blocks t tx = .ok (true, maxUsed))
    (hin : input ∈ tx.inputs) : FreeInput t input := by
  obtain ⟨_,hsig⟩ := mem_zip_signatures tx hin
  obtain ⟨_,_,hchk⟩ := checkInput_of_checkInputs h hsig
  exact free_of_checkInput hchk

end Orbis.ChainInputs
