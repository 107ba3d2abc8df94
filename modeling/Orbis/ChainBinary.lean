import Orbis.ChainSemantic
import Orbis.ByteCodec
import Orbis.FaultState

/-!
# The binary form of transactions and blocks

Transactions and blocks travel and are hashed as byte strings: integers are
varints, hashes and keys plain bytes, an input or output starts with a tag,
and the signatures follow without a count, as many as the inputs ask for. The
reader accepts a byte string only if writing the result gives it back.
-/

set_option autoImplicit false

namespace Orbis.ChainBinary

open FaultState ByteCodec ChainTypes

def currentTransactionVersion : UInt8 := 1

def blockMajorVersion1 : UInt8 := 1

def readUInt8 : Reader UInt8 := UInt8.ofNat <$> readVarint 8

def readUInt32 : Reader UInt32 := UInt32.ofNat <$> readVarint 32

def readUInt64 : Reader UInt64 := UInt64.ofNat <$> readVarint 64

def readPod : Reader ℕ := readWord 32

def readSignature : Reader Signature := do
  let c ← readPod
  let r ← readPod
  pure ⟨c,r⟩

def serializeContainer {α : Type} (item : Reader α) : Reader (List α) :=
  readVarint 64 >>= readMany item

def readKeyInput : Reader (UInt64 × List UInt32 × KeyImage) := do
  let amount ← readUInt64
  let outputIndexes ← serializeContainer readUInt32
  let keyImage ← readPod
  pure (amount, outputIndexes, keyImage)

def readMultisignatureInput : Reader (UInt64 × UInt8 × UInt32) := do
  let amount ← readUInt64
  let signatureCount ← readUInt8
  let outputIndex ← readUInt32
  pure (amount, signatureCount, outputIndex)

def getInputValue (tag : UInt8) : Reader TransactionInput :=
  if tag = 0xff then .base <$> readVarint 32
  else if tag = 0x2 then (fun v => .key v.1 v.2.1 v.2.2) <$> readKeyInput
  else if tag = 0x3 then (fun v => .multisignature v.1 v.2.1 v.2.2) <$> readMultisignatureInput
  else failure

def readInput : Reader TransactionInput := readByte >>= getInputValue

def readMultisignatureOutput : Reader (List PublicKey × UInt8) := do
  let keys ← serializeContainer readPod
  let requiredSignatureCount ← readUInt8
  pure (keys, requiredSignatureCount)

def getTargetValue (tag : UInt8) : Reader TransactionOutputTarget :=
  if tag = 0x2 then .key <$> readPod
  else if tag = 0x3 then (fun v => .multisignature v.1 v.2) <$> readMultisignatureOutput
  else failure

def readOutput : Reader TransactionOutput := do
  let amount ← readUInt64
  let target ← readByte >>= getTargetValue
  pure ⟨amount,target⟩

def readPrefix : Reader TransactionPrefix := do
  let version ← readUInt8
  if currentTransactionVersion < version then failure else do
    let unlockTime ← readUInt64
    let inputs ← serializeContainer readInput
    let outputs ← serializeContainer readOutput
    let extra ← serializeContainer readByte
    pure ⟨version,unlockTime,inputs,outputs,extra⟩

def readSignatures : List TransactionInput → Reader (List (List Signature))
  | [] => pure []
  | input :: rest => do
    let first ← readMany readSignature (getSignaturesCount input)
    let others ← readSignatures rest
    pure (first :: others)

def readTransaction : Reader Transaction := do
  let tx ← readPrefix
  let signatures ← readSignatures tx.inputs
  -- the counts agree, they are the ones that were read
  if signed : signatures.map List.length = tx.inputs.map getSignaturesCount then
    pure { tx with signatures, signed }
  else failure

def readBlock : Reader Block := do
  let majorVersion ← readUInt8
  if blockMajorVersion1 < majorVersion then failure else do
    let minorVersion ← readUInt8
    let timestamp ← readUInt64
    let previousBlockHash ← readPod
    let nonce ← UInt32.ofNat <$> readWord 4
    let baseTransaction ← readTransaction
    let transactionHashes ← serializeContainer readPod
    pure ⟨majorVersion,minorVersion,timestamp,previousBlockHash,nonce,baseTransaction,
      transactionHashes⟩

def fromBinaryArray {α : Type} (object : Reader α) (bytes : Bytes) : Option α :=
  match object.run bytes with
  | some (a, []) => some a
  | _ => none

def writeSignature (s : Signature) : Bytes := writeWord 32 s.c ++ writeWord 32 s.r

def writeContainer {α : Type} (item : α → Bytes) (l : List α) : Bytes :=
  writeVarint l.length ++ l.flatMap item

def inputTag : TransactionInput → UInt8
  | .base _ => 0xff
  | .key _ _ _ => 0x2
  | .multisignature _ _ _ => 0x3

def writeInputValue : TransactionInput → Bytes
  | .base blockIndex => writeVarint blockIndex
  | .key amount outputIndexes keyImage =>
    writeVarint amount.toNat ++ writeContainer (fun index => writeVarint index.toNat) outputIndexes
      ++ writeWord 32 keyImage
  | .multisignature amount signatureCount outputIndex =>
    writeVarint amount.toNat ++ writeVarint signatureCount.toNat ++ writeVarint outputIndex.toNat

def writeInput (input : TransactionInput) : Bytes := inputTag input :: writeInputValue input

def targetTag : TransactionOutputTarget → UInt8
  | .key _ => 0x2
  | .multisignature _ _ => 0x3

def writeTargetValue : TransactionOutputTarget → Bytes
  | .key key => writeWord 32 key
  | .multisignature keys requiredSignatureCount =>
    writeContainer (writeWord 32) keys ++ writeVarint requiredSignatureCount.toNat

def writeOutput (output : TransactionOutput) : Bytes :=
  writeVarint output.amount.toNat ++ targetTag output.target :: writeTargetValue output.target

abbrev Writer := EStateM Unit Bytes Unit

def write (data : Bytes) : Writer := modify fun out => out ++ data

def serializePrefix (tx : TransactionPrefix) : Writer := do
  write (writeVarint tx.version.toNat)
  if currentTransactionVersion < tx.version then throw ()
  write (writeVarint tx.unlockTime.toNat)
  write (writeContainer writeInput tx.inputs)
  write (writeContainer writeOutput tx.outputs)
  write (writeContainer (fun byte => [byte]) tx.extra)

def serializeSignatures : List TransactionInput → List (List Signature) → Writer
  | input :: inputs, signatures :: others => do
    if getSignaturesCount input ≠ signatures.length then throw ()
    write (signatures.flatMap writeSignature)
    serializeSignatures inputs others
  | _, _ => pure ()

def serializeFields (tx : TransactionPrefix) (signatures : List (List Signature)) : Writer := do
  serializePrefix tx
  if signatures ≠ [] ∧ tx.inputs.length ≠ signatures.length then throw ()
  if signatures = [] then
    if tx.inputs.any fun input => getSignaturesCount input != 0 then throw ()
  else serializeSignatures tx.inputs signatures

def serializeTransaction (tx : Transaction) : Writer :=
  serializeFields tx.toTransactionPrefix tx.signatures

def serializeBlock (b : Block) : Writer := do
  write (writeVarint b.majorVersion.toNat)
  if blockMajorVersion1 < b.majorVersion then throw ()
  write (writeVarint b.minorVersion.toNat)
  write (writeVarint b.timestamp.toNat)
  write (writeWord 32 b.previousBlockHash)
  write (writeWord 4 b.nonce.toNat)
  serializeTransaction b.baseTransaction
  write (writeContainer (writeWord 32) b.transactionHashes)

def toBinaryArray (object : Writer) : Bool × Bytes :=
  match object [] with
  | .ok _ out => (true, out)
  | .error _ out => (false, out)

def getObjectHash (getBinaryArrayHash : Bytes → Hash) (object : Writer) : Hash :=
  if (toBinaryArray object).1 then getBinaryArrayHash (toBinaryArray object).2 else nullHash

theorem readUInt8_exact : Exact readUInt8 (fun value => writeVarint value.toNat) fun _ => True := by
  apply exact_map (readVarint_exact (by norm_num))
  · intro a ha
    rw [UInt8.toNat_ofNat', Nat.mod_eq_of_lt ha]
  · exact fun c => iff_of_true trivial ⟨c.toNat,c.toNat_lt,UInt8.ofNat_toNat⟩

theorem readUInt32_exact :
    Exact readUInt32 (fun value => writeVarint value.toNat) fun _ => True := by
  apply exact_map (readVarint_exact (by norm_num))
  · intro a ha
    rw [UInt32.toNat_ofNat', Nat.mod_eq_of_lt ha]
  · exact fun c => iff_of_true trivial ⟨c.toNat,c.toNat_lt,UInt32.ofNat_toNat⟩

theorem readUInt64_exact :
    Exact readUInt64 (fun value => writeVarint value.toNat) fun _ => True := by
  apply exact_map (readVarint_exact (by norm_num))
  · intro a ha
    rw [UInt64.toNat_ofNat', Nat.mod_eq_of_lt ha]
  · exact fun c => iff_of_true trivial ⟨c.toNat,c.toNat_lt,UInt64.ofNat_toNat⟩

theorem readNonce_exact : Exact (UInt32.ofNat <$> readWord 4)
    (fun value => writeWord 4 value.toNat) fun _ => True := by
  apply exact_map (readWord_exact 4)
  · intro a ha
    rw [UInt32.toNat_ofNat', Nat.mod_eq_of_lt (show a < 2 ^ 32 from ha)]
  · exact fun c => iff_of_true trivial ⟨c.toNat,c.toNat_lt,UInt32.ofNat_toNat⟩

def PodFits (value : ℕ) : Prop := value < 256 ^ 32

theorem readPod_exact : Exact readPod (writeWord 32) PodFits := readWord_exact 32

def SignatureFits (s : Signature) : Prop := PodFits s.c ∧ PodFits s.r

theorem readSignature_exact : Exact readSignature writeSignature SignatureFits := by
  have hr := exact_field (C := fun _ => True) Signature.c readPod_exact fun c =>
    exact_field Signature.r readPod_exact fun r =>
      exact_done (c := Signature.mk c r) fun s => by cases s; simp
  apply hr.congr
  · simp [SignatureFits]
  · simp [writeSignature]

def ContainerFits {α : Type} (P : α → Prop) (l : List α) : Prop :=
  l.length < 2 ^ 64 ∧ ∀ a ∈ l, P a

variable {α : Type} {inputs : List TransactionInput} {signatures : List (List Signature)}
  {data : Bytes} {x : Writer}

theorem serializeContainer_exact {item : Reader α} {w : α → Bytes} {P : α → Prop}
    (h : Exact item w P) : Exact (serializeContainer item) (writeContainer w) (ContainerFits P) :=
  counted_exact (readVarint_exact (by norm_num)) h

def InputFits : TransactionInput → Prop
  | .base blockIndex => blockIndex < 2 ^ 32
  | .key _ outputIndexes keyImage => outputIndexes.length < 2 ^ 64 ∧ PodFits keyImage
  | .multisignature _ _ _ => True

theorem readKeyInput_exact : Exact readKeyInput (fun v => writeInputValue (.key v.1 v.2.1 v.2.2))
    fun v => InputFits (.key v.1 v.2.1 v.2.2) := by
  have hr := exact_field (C := fun _ => True) (fun v : UInt64 × List UInt32 × KeyImage => v.1)
    readUInt64_exact fun amt =>
      exact_field (fun v => v.2.1) (serializeContainer_exact readUInt32_exact) fun idxs =>
        exact_field (fun v => v.2.2) readPod_exact fun im =>
          exact_done (c := (amt, idxs, im)) fun v => by
            simp [Prod.ext_iff, and_assoc]
  apply hr.congr
  · simp [InputFits, ContainerFits]
  · simp [writeInputValue]

theorem readMultisignatureInput_exact : Exact readMultisignatureInput
    (fun v => writeInputValue (.multisignature v.1 v.2.1 v.2.2))
    fun v => InputFits (.multisignature v.1 v.2.1 v.2.2) := by
  have hr := exact_field (C := fun _ => True) (fun v : UInt64 × UInt8 × UInt32 => v.1)
    readUInt64_exact fun amt => exact_field (fun v => v.2.1) readUInt8_exact fun cnt =>
        exact_field (fun v => v.2.2) readUInt32_exact fun idx =>
          exact_done (c := (amt, cnt, idx)) fun v => by
            simp [Prod.ext_iff, and_assoc]
  apply hr.congr
  · simp [InputFits]
  · simp [writeInputValue]

theorem getInputValue_exact (tag : UInt8) : Exact (getInputValue tag) writeInputValue
    fun inp => (True ∧ inputTag inp = tag) ∧ InputFits inp := by
  unfold getInputValue
  split_ifs with hb hkey hm
  · refine exact_map (readVarint_exact (by norm_num)) (fun a _ => rfl) ?_
    intro inp
    cases inp <;> simp [inputTag, InputFits, hb]
  · refine exact_map readKeyInput_exact (fun a _ => rfl) ?_
    intro inp
    cases inp <;> simp [inputTag, InputFits, hkey]
  · refine exact_map readMultisignatureInput_exact (fun a _ => rfl) ?_
    intro inp
    cases inp <;> simp [inputTag, InputFits, hm]
  · apply exact_failure
    intro inp
    cases inp <;> simp_all [inputTag, eq_comm]

theorem readInput_exact : Exact readInput writeInput InputFits := by
  apply (exact_field inputTag readByte_exact getInputValue_exact).congr
  · simp
  · simp [writeInput]

def TargetFits : TransactionOutputTarget → Prop
  | .key key => PodFits key
  | .multisignature keys _ => ContainerFits PodFits keys

theorem readMultisignatureOutput_exact : Exact readMultisignatureOutput
    (fun v => writeTargetValue (.multisignature v.1 v.2))
    fun v => TargetFits (.multisignature v.1 v.2) := by
  have hr := exact_field (C := fun _ => True) (fun v : List PublicKey × UInt8 => v.1)
    (serializeContainer_exact readPod_exact) fun keys =>
      exact_field (fun v => v.2) readUInt8_exact fun cnt =>
        exact_done (c := (keys, cnt)) fun v => by simp [Prod.ext_iff]
  apply hr.congr
  · simp [TargetFits]
  · simp [writeTargetValue]

theorem getTargetValue_exact (tag : UInt8) : Exact (getTargetValue tag) writeTargetValue
    fun tgt => (True ∧ targetTag tgt = tag) ∧ TargetFits tgt := by
  unfold getTargetValue
  split_ifs with hkey hm
  · refine exact_map readPod_exact (fun a _ => rfl) ?_
    intro tgt
    cases tgt <;> simp [targetTag, TargetFits, hkey]
  · refine exact_map readMultisignatureOutput_exact (fun a _ => rfl) ?_
    intro tgt
    cases tgt <;> simp [targetTag, TargetFits, hm]
  · apply exact_failure
    intro tgt
    cases tgt <;> simp_all [targetTag, eq_comm]

theorem readOutput_exact : Exact readOutput writeOutput fun out => TargetFits out.target := by
  have htgt := exact_field targetTag readByte_exact getTargetValue_exact
  have hr := exact_field (C := fun _ => True) TransactionOutput.amount readUInt64_exact
    fun amt => exact_field TransactionOutput.target htgt fun tgt =>
      exact_done (c := TransactionOutput.mk amt tgt) fun out => by cases out; simp
  apply hr.congr
  · simp
  · simp [writeOutput]

structure PrefixFits (tx : TransactionPrefix) : Prop where
  inputs : ContainerFits InputFits tx.inputs
  outputs : ContainerFits (fun output => TargetFits output.target) tx.outputs
  extra : tx.extra.length < 2 ^ 64

def writePrefix (tx : TransactionPrefix) : Bytes :=
  writeVarint tx.version.toNat ++ writeVarint tx.unlockTime.toNat ++
    writeContainer writeInput tx.inputs ++ writeContainer writeOutput tx.outputs ++
    writeContainer (fun byte => [byte]) tx.extra

theorem readPrefix_exact : Exact readPrefix writePrefix fun tx =>
    PrefixFits tx ∧ tx.version ≤ currentTransactionVersion := by
  have hr := exact_field (C := fun _ => True) TransactionPrefix.version readUInt8_exact
    fun ver => exact_check (p := currentTransactionVersion < ver)
      (fun tx => tx.version ≤ currentTransactionVersion)
      (fun tx htx => by rw [htx.2, UInt8.not_lt]) <|
    exact_field TransactionPrefix.unlockTime readUInt64_exact fun ut =>
    exact_field TransactionPrefix.inputs (serializeContainer_exact readInput_exact) fun inputs =>
    exact_field TransactionPrefix.outputs (serializeContainer_exact readOutput_exact) fun outs =>
    exact_field TransactionPrefix.extra (serializeContainer_exact readByte_exact) fun extra =>
    exact_done (c := TransactionPrefix.mk ver ut inputs outs extra) fun tx => by
      cases tx
      simp [and_assoc]
  apply hr.congr
  · intro tx
    constructor
    · rintro ⟨-,-,hver,-,hins,ho,hex,-⟩
      exact ⟨⟨hins,ho,hex.1⟩,hver⟩
    · rintro ⟨hf,hver⟩
      exact ⟨trivial,trivial,hver,trivial,hf.inputs,hf.outputs,
        ⟨hf.extra,fun _ _ => trivial⟩,trivial⟩
  · intro tx _
    simp [writePrefix]

def writeSignatures (signatures : List (List Signature)) : Bytes :=
  signatures.flatMap fun l => l.flatMap writeSignature

theorem readSignatures_exact (ins : List TransactionInput) :
    Exact (readSignatures ins) writeSignatures fun signatures =>
      signatures.map List.length = ins.map getSignaturesCount ∧
        ∀ l ∈ signatures, ∀ s ∈ l, SignatureFits s := by
  induction ins with
  | nil =>
    apply exact_nil.congr _ fun _ _ => rfl
    intro signatures
    cases signatures <;> simp
  | cons inp _ ih =>
    have hfst := readMany_exact readSignature_exact (getSignaturesCount inp)
    apply (exact_cons hfst ih).congr _ fun _ _ => rfl
    intro signatures
    cases signatures with
    | nil => simp
    | cons _ _ =>
      simp
      tauto

structure TransactionFits (tx : Transaction) : Prop where
  fields : PrefixFits tx.toTransactionPrefix
  signatures : ∀ l ∈ tx.signatures, ∀ s ∈ l, SignatureFits s

def writeTransaction (tx : Transaction) : Bytes :=
  writePrefix tx.toTransactionPrefix ++ writeSignatures tx.signatures

theorem readTransaction_exact : Exact readTransaction writeTransaction fun tx =>
    TransactionFits tx ∧ tx.version ≤ currentTransactionVersion := by
  have hsi : ∀ (fields : TransactionPrefix) (signatures : List (List Signature)),
      Exact (if signed : signatures.map List.length = fields.inputs.map getSignaturesCount then
          pure { fields with signatures, signed } else failure) (fun _ => [])
        fun tx : Transaction => ((True ∧ tx.toTransactionPrefix = fields) ∧
          tx.signatures = signatures) ∧ True := by
    intro fields signatures
    split_ifs with hsgd
    · apply exact_done
      intro tx
      cases tx
      simp
    · apply exact_failure
      rintro tx ⟨⟨⟨-,rfl⟩,rfl⟩,-⟩
      exact hsgd tx.signed
  have hr := exact_field (C := fun _ => True) Transaction.toTransactionPrefix readPrefix_exact
    (Q := fun tx => ∀ l ∈ tx.signatures, ∀ s ∈ l, SignatureFits s)
    (v := fun tx => writeSignatures tx.signatures) fun fields =>
      (exact_field Transaction.signatures (readSignatures_exact fields.inputs)
        (hsi fields)).congr (by
          intro tx
          constructor
          · rintro ⟨hC,⟨-,hf⟩,-⟩
            exact ⟨hC,hf⟩
          · rintro ⟨⟨-,rfl⟩,hf⟩
            exact ⟨⟨trivial,rfl⟩,⟨tx.signed,hf⟩,trivial⟩) (by simp)
  apply hr.congr
  · intro tx
    constructor
    · rintro ⟨-,⟨hfi,hver⟩,hs⟩
      exact ⟨⟨hfi,hs⟩,hver⟩
    · rintro ⟨⟨hfi,hs⟩,hver⟩
      exact ⟨trivial,⟨hfi,hver⟩,hs⟩
  · exact fun tx _ => rfl

theorem transactions_delimited (r r' : Bytes)
    (t t' : {tx // TransactionFits tx ∧ tx.version ≤ currentTransactionVersion}) :
    writeTransaction t ++ r = writeTransaction t' ++ r' ↔ t = t' ∧ r = r' := by
  refine ⟨fun h => ?_,fun h => by rw [h.1, h.2]⟩
  simpa [Subtype.ext_iff] using ((readTransaction_exact _ _ _).mpr ⟨t.2,rfl⟩).symm.trans
    ((readTransaction_exact _ _ _).mpr ⟨t'.2,h⟩)

structure BlockFits (b : Block) : Prop where
  previousBlockHash : PodFits b.previousBlockHash
  baseTransaction : TransactionFits b.baseTransaction
  transactionHashes : ContainerFits PodFits b.transactionHashes

def writeBlock (b : Block) : Bytes :=
  writeVarint b.majorVersion.toNat ++ writeVarint b.minorVersion.toNat ++
    writeVarint b.timestamp.toNat ++ writeWord 32 b.previousBlockHash ++
    writeWord 4 b.nonce.toNat ++ writeTransaction b.baseTransaction ++
    writeContainer (writeWord 32) b.transactionHashes

theorem readBlock_exact : Exact readBlock writeBlock fun b => BlockFits b ∧
    b.majorVersion ≤ blockMajorVersion1 ∧
    b.baseTransaction.version ≤ currentTransactionVersion := by
  have hr := exact_field (C := fun _ => True) Block.majorVersion readUInt8_exact
    fun mv => exact_check (p := blockMajorVersion1 < mv)
      (fun b => b.majorVersion ≤ blockMajorVersion1)
      (fun b hb => by rw [hb.2, UInt8.not_lt]) <|
    exact_field Block.minorVersion readUInt8_exact fun minorVersion =>
    exact_field Block.timestamp readUInt64_exact fun ts =>
    exact_field Block.previousBlockHash readPod_exact fun previousBlockHash =>
    exact_field Block.nonce readNonce_exact fun nonce =>
    exact_field Block.baseTransaction readTransaction_exact fun baseTransaction =>
    exact_field Block.transactionHashes (serializeContainer_exact readPod_exact) fun hashes =>
    exact_done (c := Block.mk mv minorVersion ts previousBlockHash nonce
      baseTransaction hashes) fun b => by
        cases b
        simp [and_assoc]
  apply hr.congr
  · intro b
    constructor
    · rintro ⟨-,-,hm,-,-,hp,-,⟨hba,hver⟩,hhsh,-⟩
      exact ⟨⟨hp,hba,hhsh⟩,hm,hver⟩
    · rintro ⟨hf,hm,hver⟩
      exact ⟨trivial,trivial,hm,trivial,trivial,hf.previousBlockHash,trivial,
        ⟨hf.baseTransaction,hver⟩,hf.transactionHashes,trivial⟩
  · intro b _
    simp [writeBlock]

theorem fromBinaryArray_iff {r : Reader α} {w : α → Bytes} {P : α → Prop} (h : Exact r w P)
    (bs : Bytes) (a : α) : fromBinaryArray r bs = some a ↔ P a ∧ bs = w a := by
  have hall := h bs a []
  rw [List.append_nil] at hall
  rw [← hall]
  unfold fromBinaryArray
  constructor
  · intro hr
    split at hr
    · cases hr
      assumption
    · cases hr
  · intro hr
    rw [hr]

section Written

@[simp] theorem write_run (data out : Bytes) : write data out = .ok ⟨⟩ (out ++ data) := rfl

theorem serializePrefix_run {tx : TransactionPrefix} (h : tx.version ≤ currentTransactionVersion)
    (out : Bytes) : serializePrefix tx out = .ok ⟨⟩ (out ++ writePrefix tx) := by
  unfold serializePrefix
  rw [bind_of_ok (write_run _ _), if_neg (UInt8.not_lt.mpr h)]
  simp only [bind_run, write_run, writePrefix, List.append_assoc]

theorem serializePrefix_throws {tx : TransactionPrefix} (h : currentTransactionVersion < tx.version)
    (out : Bytes) : serializePrefix tx out = .error () (out ++ writeVarint tx.version.toNat) := by
  unfold serializePrefix
  rw [bind_of_ok (write_run _ _), if_pos h]
  rfl

theorem serializeSignatures_run (h : signatures.map List.length = inputs.map getSignaturesCount)
    (out : Bytes) :
    serializeSignatures inputs signatures out = .ok ⟨⟩ (out ++ writeSignatures signatures) := by
  induction inputs generalizing signatures out with
  | nil =>
    rw [List.map_eq_nil_iff.mp h]
    simp [serializeSignatures, writeSignatures]
  | cons _ rest ih =>
    cases signatures with
    | nil => cases h
    | cons first os =>
      rw [List.map_cons, List.map_cons, List.cons.injEq] at h
      rw [serializeSignatures, if_neg (not_not.mpr h.1.symm)]
      change serializeSignatures rest os (out ++ first.flatMap writeSignature) = _
      rw [ih h.2, writeSignatures, writeSignatures, List.flatMap_cons, List.append_assoc]

variable {tx : Transaction}

theorem serializeTransaction_run (h : tx.version ≤ currentTransactionVersion) (out : Bytes) :
    serializeTransaction tx out = .ok ⟨⟩ (out ++ writeTransaction tx) := by
  have hlen : tx.inputs.length = tx.signatures.length := by
    have hsgd := congrArg List.length tx.signed
    rw [List.length_map, List.length_map] at hsgd
    exact hsgd.symm
  unfold serializeTransaction serializeFields
  rw [bind_of_ok (serializePrefix_run h out), if_neg fun hne => hne.2 hlen]
  by_cases hemp : tx.signatures = []
  · have hn : tx.inputs = [] := by
      rw [hemp] at hlen
      exact List.length_eq_zero_iff.mp hlen
    rw [if_pos hemp]
    simp [hn, hemp, writeTransaction, writeSignatures]
  · rw [if_neg hemp]
    change serializeSignatures tx.inputs tx.signatures _ = _
    rw [serializeSignatures_run tx.signed, writeTransaction, List.append_assoc]

theorem toBinaryArray_transaction (h : tx.version ≤ currentTransactionVersion) :
    toBinaryArray (serializeTransaction tx) = (true, writeTransaction tx) := by
  rw [toBinaryArray, serializeTransaction_run h, List.nil_append]

theorem toBinaryArray_refused (h : currentTransactionVersion < tx.version) :
    toBinaryArray (serializeTransaction tx) = (false, writeVarint tx.version.toNat) := by
  unfold toBinaryArray serializeTransaction serializeFields
  rw [bind_of_error (serializePrefix_throws h [])]
  rfl

theorem toBinaryArray_block {b : Block} (h : b.majorVersion ≤ blockMajorVersion1)
    (hb : b.baseTransaction.version ≤ currentTransactionVersion) :
    toBinaryArray (serializeBlock b) = (true, writeBlock b) := by
  unfold toBinaryArray serializeBlock
  rw [bind_of_ok (write_run _ _), if_neg (UInt8.not_lt.mpr h)]
  simp only [bind_run, write_run, serializeTransaction_run hb, writeBlock, List.append_assoc,
    List.nil_append]

theorem getObjectHash_written {getBinaryArrayHash : Bytes → Hash} {object : Writer} {bs : Bytes}
    (h : toBinaryArray object = (true, bs)) :
    getObjectHash getBinaryArrayHash object = getBinaryArrayHash bs := by
  rw [getObjectHash, h]
  rfl

/-- What is accepted as a transaction or block is its binary form, so the hash
of the received bytes is that of the object; and a transaction is read back
exactly if its version is one that the node knows. -/
theorem binary_form_canonical (getBinaryArrayHash : Bytes → Hash) :
    (∀ bytes tx, fromBinaryArray readTransaction bytes = some tx →
      toBinaryArray (serializeTransaction tx) = (true, bytes) ∧
      getObjectHash getBinaryArrayHash (serializeTransaction tx) = getBinaryArrayHash bytes) ∧
    (∀ bytes b, fromBinaryArray readBlock bytes = some b →
      toBinaryArray (serializeBlock b) = (true, bytes) ∧
      getObjectHash getBinaryArrayHash (serializeBlock b) = getBinaryArrayHash bytes) ∧
    ∀ tx, TransactionFits tx →
      (fromBinaryArray readTransaction (toBinaryArray (serializeTransaction tx)).2 = some tx ↔
        tx.version ≤ currentTransactionVersion) := by
  refine ⟨?_,?_,?_⟩
  · intro bytes tx hr
    obtain ⟨⟨-,hver⟩,rfl⟩ := (fromBinaryArray_iff readTransaction_exact bytes tx).mp hr
    have hwr := toBinaryArray_transaction hver
    exact ⟨hwr,getObjectHash_written hwr⟩
  · intro bytes b hr
    obtain ⟨⟨-,hm,hver⟩,rfl⟩ := (fromBinaryArray_iff readBlock_exact bytes b).mp hr
    have hwr := toBinaryArray_block hm hver
    exact ⟨hwr,getObjectHash_written hwr⟩
  · intro tx hf
    rw [fromBinaryArray_iff readTransaction_exact]
    constructor
    · exact fun h => h.1.2
    · intro hver
      rw [toBinaryArray_transaction hver]
      exact ⟨⟨hf,hver⟩,rfl⟩

def bareTransaction (version : UInt8) : Transaction where
  version := version
  unlockTime := 0
  inputs := []
  outputs := []
  extra := []
  signatures := []
  signed := bare_signed

theorem bareTransaction_fits (ver : UInt8) : TransactionFits (bareTransaction ver) where
  fields := by constructor <;> simp [ContainerFits, bareTransaction]
  signatures := by simp [bareTransaction]

def mixedInputs : List TransactionInput :=
  [.base 300,.key 1000 [5,70000] 77,.multisignature 20 2 9]

def mixedSignatures : List (List Signature) := [[],[⟨1,2⟩,⟨3,256 ^ 31⟩],[⟨5,6⟩,⟨7,8⟩]]

theorem mixed_signed : mixedSignatures.map List.length = mixedInputs.map getSignaturesCount := rfl

def mixedTransaction : Transaction where
  version := 1
  unlockTime := 200
  inputs := mixedInputs
  outputs := [⟨900,.key 4000⟩,⟨50,.multisignature [11,12,13] 2⟩]
  extra := [1,0,255]
  signatures := mixedSignatures
  signed := mixed_signed

theorem mixedTransaction_fits : TransactionFits mixedTransaction where
  fields := by
    constructor <;>
      simp [ContainerFits, InputFits, TargetFits, PodFits, mixedTransaction, mixedInputs]
  signatures := by simp [SignatureFits, PodFits, mixedTransaction, mixedSignatures]

theorem binary_form_canonical_mixed :
    fromBinaryArray readTransaction (toBinaryArray (serializeTransaction mixedTransaction)).2 =
      some mixedTransaction ∧
    toBinaryArray (serializeTransaction mixedTransaction) =
      (true, (toBinaryArray (serializeTransaction mixedTransaction)).2) := by
  have hread := ((binary_form_canonical fun _ => 0).2.2 _ mixedTransaction_fits).mpr (by decide)
  exact ⟨hread,((binary_form_canonical fun _ => 0).1 _ _ hread).1⟩

/-- A transaction of version two is written up to its version only, and that
cannot be read. -/
theorem later_version_not_read : TransactionFits (bareTransaction 2) ∧
    toBinaryArray (serializeTransaction (bareTransaction 2)) = (false, [2]) ∧
    fromBinaryArray readTransaction
      (toBinaryArray (serializeTransaction (bareTransaction 2))).2 = none := by
  have hwr : toBinaryArray (serializeTransaction (bareTransaction 2)) = (false, [2]) := by
    rw [toBinaryArray_refused (by decide), writeVarint]
    rfl
  refine ⟨bareTransaction_fits 2,hwr,?_⟩
  rw [hwr]
  decide +kernel

end Written

def Grows (x : Writer) : Prop := ∀ out, out <+: left (x out)

theorem grows_write : Grows (write data) := fun out => List.prefix_append out data

theorem grows_throw : Grows (throw ()) := fun _ => List.prefix_rfl

theorem grows_pure : Grows (pure ()) := fun _ => List.prefix_rfl

theorem grows_bind {y : Writer} (hx : Grows x) (hy : Grows y) : Grows (x >>= fun _ => y) := by
  intro out
  have hfst := hx out
  rw [bind_run]
  cases hrun : x out with
  | ok _ between =>
    rw [hrun] at hfst
    exact hfst.trans (hy between)
  | error _ _ =>
    rw [hrun] at hfst
    exact hfst

theorem grows_check {p : Prop} [Decidable p] (hx : Grows x) :
    Grows (if p then (throw () : Writer) >>= fun _ => x else x) := by
  split_ifs
  · exact grows_bind grows_throw hx
  · exact hx

theorem serializePrefix_grows (tx : TransactionPrefix) : Grows (serializePrefix tx) :=
  grows_bind grows_write (grows_check (grows_bind grows_write (grows_bind grows_write
    (grows_bind grows_write grows_write))))

theorem serializeSignatures_grows : Grows (serializeSignatures inputs signatures) := by
  induction inputs generalizing signatures with
  | nil => exact grows_pure
  | cons _ _ ih =>
    cases signatures with
    | nil => exact grows_pure
    | cons _ _ => exact grows_check (grows_bind grows_write ih)

theorem serializeTransaction_grows (tx : Transaction) : Grows (serializeTransaction tx) := by
  have hs : Grows (if tx.signatures = [] then
      if tx.inputs.any fun inp => getSignaturesCount inp != 0 then throw () else pure ()
      else serializeSignatures tx.inputs tx.signatures) := by
    split_ifs
    · exact grows_throw
    · exact grows_pure
    · exact serializeSignatures_grows
  exact grows_bind (serializePrefix_grows _) (grows_check hs)

theorem toBinaryArray_write_ne_nil (hd : data ≠ [])
    (hx : Grows x) : (toBinaryArray (write data >>= fun _ => x)).2 ≠ [] := by
  have hl : (toBinaryArray (write data >>= fun _ => x)).2 = left (x data) := by
    rw [toBinaryArray, bind_of_ok (write_run data []), List.nil_append]
    cases x data <;> rfl
  rw [hl]
  intro hemp
  have hg := hx data
  rw [hemp] at hg
  exact hd (List.prefix_nil.mp hg)

theorem writeVarint_ne_nil (value : ℕ) : writeVarint value ≠ [] := by
  rw [writeVarint]
  split_ifs <;> exact List.cons_ne_nil _ _

theorem toBinaryArray_block_ne_nil (b : Block) : (toBinaryArray (serializeBlock b)).2 ≠ [] :=
  toBinaryArray_write_ne_nil (writeVarint_ne_nil _) (grows_check (grows_bind grows_write
    (grows_bind grows_write (grows_bind grows_write (grows_bind grows_write
      (grows_bind (serializeTransaction_grows _) grows_write))))))

end Orbis.ChainBinary
