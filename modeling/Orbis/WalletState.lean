import Orbis.ChainBinary

/-!
# Stored block lists and transfers containers

A consumer's known blocks and the container of a subscription are kept as
binary strings. The container is read into new indexes that take the place of
the old ones at the end. The block list is read into the live vector: it gets
its new length first and then one hash after another, so a string that ends
too early leaves the hashes before its end.
-/

set_option autoImplicit false

namespace Orbis.WalletState

open FaultState ByteCodec ChainBinary

structure Bytes32 where
  bytes : Bytes
  size : bytes.length = 32
  deriving DecidableEq

structure Sized (α : Type) where
  items : List α
  size : items.length < 2 ^ 64
  deriving DecidableEq

structure Index (α : Type) (same : α → α → Prop) extends Sized α where
  once : items.Pairwise fun a b => ¬ same a b

inductive OutputTarget where
  | key (outputKey : Bytes32)
  | multisignature (requiredSignatures : UInt32)
  | other (type : UInt8) (h : type ≠ 1 ∧ type ≠ 2)
  deriving DecidableEq

def OutputTarget.type : OutputTarget → UInt8
  | .key _ => 1
  | .multisignature _ => 2
  | .other type _ => type

structure TransactionOutputInformationEx where
  target : OutputTarget
  amount : UInt64
  globalOutputIndex : UInt32
  outputInTransaction : UInt32
  transactionPublicKey : Bytes32
  keyImage : Bytes32
  unlockTime : UInt64
  blockHeight : UInt32
  transactionIndex : UInt32
  transactionHash : Bytes32
  visible : Bool
  deriving DecidableEq

inductive SpentOutputDescriptor where
  | key (keyImage : Bytes32)
  | multisignature (amount : UInt64) (globalOutputIndex : UInt32)
  deriving DecidableEq

def TransactionOutputInformationEx.descriptor (o : TransactionOutputInformationEx) :
    Option SpentOutputDescriptor :=
  match o.target with
  | .key _ => some (.key o.keyImage)
  | .multisignature _ => some (.multisignature o.amount o.globalOutputIndex)
  | .other _ _ => none

structure TransactionBlockInfo where
  height : UInt32
  timestamp : UInt64
  transactionIndex : UInt32
  deriving DecidableEq

structure SpentTransactionOutput extends TransactionOutputInformationEx where
  spendingBlock : TransactionBlockInfo
  spendingTransactionHash : Bytes32
  inputInTransaction : UInt32
  deriving DecidableEq

structure TransactionInformation where
  transactionHash : Bytes32
  publicKey : Bytes32
  blockHeight : UInt32
  timestamp : UInt64
  unlockTime : UInt64
  totalAmountIn : UInt64
  totalAmountOut : UInt64
  extra : Sized UInt8
  paymentId : Bytes32
  deriving DecidableEq

def sameTransaction (a b : TransactionInformation) : Prop := a.transactionHash = b.transactionHash

instance : DecidableRel sameTransaction := fun a b =>
  inferInstanceAs (Decidable (a.transactionHash = b.transactionHash))

def sameOutput (a b : SpentTransactionOutput) : Prop :=
  a.descriptor ≠ none ∧ a.descriptor = b.descriptor

instance : DecidableRel sameOutput := fun a b =>
  inferInstanceAs (Decidable (a.descriptor ≠ none ∧ a.descriptor = b.descriptor))

structure TransfersContainer where
  currentHeight : UInt32
  transactions : Index TransactionInformation sameTransaction
  unconfirmedTransfers : Sized TransactionOutputInformationEx
  availableTransfers : Sized TransactionOutputInformationEx
  spentTransfers : Index SpentTransactionOutput sameOutput

structure TransfersContainer.Same (a b : TransfersContainer) : Prop where
  currentHeight : a.currentHeight = b.currentHeight
  transactions : a.transactions.items.Perm b.transactions.items
  unconfirmed : a.unconfirmedTransfers.items.Perm b.unconfirmedTransfers.items
  available : a.availableTransfers.items.Perm b.availableTransfers.items
  spent : a.spentTransfers.items.Perm b.spentTransfers.items

theorem TransfersContainer.same_equivalence : Equivalence TransfersContainer.Same where
  refl _ := ⟨rfl,.refl _,.refl _,.refl _,.refl _⟩
  symm h := ⟨h.1.symm,h.2.symm,h.3.symm,h.4.symm,h.5.symm⟩
  trans h h' := ⟨h.1.trans h'.1,h.2.trans h'.2,h.3.trans h'.3,h.4.trans h'.4,h.5.trans h'.5⟩

/-- The blocks that a consumer knows; a vector gets memory for so many. -/
structure KnownBlocks (room : ℕ) where
  items : List Bytes32
  size : items.length ≤ room
  deriving DecidableEq

section Indexes

variable {α : Type} (same : α → α → Prop) [DecidableRel same] {l : List α}

def insertUnique (l : List α) (a : α) : List α :=
  if l.any fun b => decide (same b a) then l else l ++ [a]

theorem insertUnique_once (h : l.Pairwise fun a b => ¬ same a b) (a : α) :
    (insertUnique same l a).Pairwise fun a b => ¬ same a b := by
  unfold insertUnique
  by_cases hany : l.any fun b => decide (same b a)
  · rw [if_pos hany]
    exact h
  · rw [if_neg hany, List.pairwise_append]
    refine ⟨h,List.pairwise_singleton _ _,?_⟩
    intro b hb c hc
    rw [List.mem_singleton.mp hc]
    intro hs
    exact hany (List.any_eq_true.mpr ⟨b,hb,decide_eq_true hs⟩)

theorem insertUnique_length (l : List α) (a : α) :
    (insertUnique same l a).length ≤ l.length + 1 := by
  unfold insertUnique
  split_ifs <;> simp

theorem foldl_insertUnique_once (its : List α) (h : l.Pairwise fun a b => ¬ same a b) :
    (its.foldl (insertUnique same) l).Pairwise fun a b => ¬ same a b := by
  induction its generalizing l with
  | nil => exact h
  | cons a _ ih => exact ih (insertUnique_once same h a)

theorem foldl_insertUnique_length (its l : List α) :
    (its.foldl (insertUnique same) l).length ≤ l.length + its.length := by
  induction its generalizing l with
  | nil => exact le_rfl
  | cons a _ ih =>
    have hr := ih (insertUnique same l a)
    have hfst := insertUnique_length same l a
    simp only [List.foldl_cons, List.length_cons]
    omega

theorem foldl_insertUnique_eq (its : List α) (h : (l ++ its).Pairwise fun a b => ¬ same a b) :
    its.foldl (insertUnique same) l = l ++ its := by
  induction its generalizing l with
  | nil => simp
  | cons a _ ih =>
    have hnew : ¬ l.any fun b => decide (same b a) := by
      intro hany
      obtain ⟨b,hb,hs⟩ := List.any_eq_true.mp hany
      have hd := (List.pairwise_append.mp h).2.2 b hb a List.mem_cons_self
      exact hd (of_decide_eq_true hs)
    rw [List.foldl_cons, insertUnique, if_neg hnew, ih, List.append_assoc]
    · rfl
    · rwa [List.append_assoc]

def Index.fill (l : Sized α) : Index α same where
  items := l.items.foldl (insertUnique same) []
  size := by
    have hlength := foldl_insertUnique_length same l.items []
    rw [List.length_nil, zero_add] at hlength
    exact lt_of_le_of_lt hlength l.size
  once := foldl_insertUnique_once same l.items List.Pairwise.nil

theorem Index.fill_items {same : α → α → Prop} [DecidableRel same] (idx : Index α same) :
    Index.fill same idx.toSized = idx := by
  have hits := foldl_insertUnique_eq same (l := []) idx.items idx.once
  obtain ⟨⟨its,_⟩,once⟩ := idx
  simp only [Index.fill, Index.mk.injEq, Sized.mk.injEq]
  exact hits

end Indexes

def readBytes32 : Reader Bytes32 := fun bytes =>
  if h : 32 ≤ bytes.length then
    some (⟨bytes.take 32,List.length_take_of_le h⟩, bytes.drop 32)
  else none

def readSized {α : Type} (item : Reader α) : Reader (Sized α) := do
  let size ← readVarint 64
  let items ← readMany item size
  -- the length is the one that was read
  if h : items.length < 2 ^ 64 then pure ⟨items,h⟩ else failure

def readBlockHeight : Reader UInt32 := do
  let height ← readVarint 64
  if height = 2 ^ 64 - 1 then pure (UInt32.ofNat (2 ^ 32 - 1))
  else if 2 ^ 32 - 1 < height ∧ height < 2 ^ 64 - 1 then failure
  else pure (UInt32.ofNat height)

def readGlobalOutputIndex : Reader UInt32 := readBlockHeight

def readBool : Reader Bool := (fun byte => decide (byte ≠ 0)) <$> readByte

def readTarget (type : UInt8) : Reader OutputTarget :=
  if hkey : type = 1 then .key <$> readBytes32
  else if hmultisignature : type = 2 then .multisignature <$> readUInt32
  else pure (.other type ⟨hkey,hmultisignature⟩)

def readOutput : Reader TransactionOutputInformationEx := do
  let type ← readUInt8
  let amount ← readUInt64
  let globalOutputIndex ← readGlobalOutputIndex
  let outputInTransaction ← readUInt32
  let transactionPublicKey ← readBytes32
  let keyImage ← readBytes32
  let unlockTime ← readUInt64
  let blockHeight ← readBlockHeight
  let transactionIndex ← readUInt32
  let transactionHash ← readBytes32
  let visible ← readBool
  let target ← readTarget type
  pure ⟨target,amount,globalOutputIndex,outputInTransaction,transactionPublicKey,keyImage,
    unlockTime,blockHeight,transactionIndex,transactionHash,visible⟩

def readBlockInfo : Reader TransactionBlockInfo := do
  let height ← readBlockHeight
  let timestamp ← readUInt64
  let transactionIndex ← readUInt32
  pure ⟨height,timestamp,transactionIndex⟩

def readSpentOutput : Reader SpentTransactionOutput := do
  let output ← readOutput
  let spendingBlock ← readBlockInfo
  let spendingTransactionHash ← readBytes32
  let inputInTransaction ← readUInt32
  pure ⟨output,spendingBlock,spendingTransactionHash,inputInTransaction⟩

def readTransactionInformation : Reader TransactionInformation := do
  let transactionHash ← readBytes32
  let publicKey ← readBytes32
  let blockHeight ← readBlockHeight
  let timestamp ← readUInt64
  let unlockTime ← readUInt64
  let totalAmountIn ← readUInt64
  let totalAmountOut ← readUInt64
  let extra ← readSized readUInt8
  let paymentId ← readBytes32
  pure ⟨transactionHash,publicKey,blockHeight,timestamp,unlockTime,totalAmountIn,totalAmountOut,
    extra,paymentId⟩

def readContainer : Reader TransfersContainer := do
  let currentHeight ← readUInt32
  let transactions ← readSized readTransactionInformation
  let unconfirmedTransfers ← readSized readOutput
  let availableTransfers ← readSized readOutput
  let spentTransfers ← readSized readSpentOutput
  pure ⟨currentHeight,.fill sameTransaction transactions,unconfirmedTransfers,availableTransfers,
    .fill sameOutput spentTransfers⟩

def writeSized {α : Type} (item : α → Bytes) (l : Sized α) : Bytes := writeContainer item l.items

def writeOutputTarget : OutputTarget → Bytes
  | .key outputKey => outputKey.bytes
  | .multisignature requiredSignatures => writeVarint requiredSignatures.toNat
  | .other _ _ => []

def writeOutputInformation (o : TransactionOutputInformationEx) : Bytes :=
  writeVarint o.target.type.toNat ++ writeVarint o.amount.toNat ++
    writeVarint o.globalOutputIndex.toNat ++ writeVarint o.outputInTransaction.toNat ++
    o.transactionPublicKey.bytes ++ o.keyImage.bytes ++ writeVarint o.unlockTime.toNat ++
    writeVarint o.blockHeight.toNat ++ writeVarint o.transactionIndex.toNat ++
    o.transactionHash.bytes ++ [if o.visible then 1 else 0] ++ writeOutputTarget o.target

def writeBlockInfo (b : TransactionBlockInfo) : Bytes :=
  writeVarint b.height.toNat ++ writeVarint b.timestamp.toNat ++
    writeVarint b.transactionIndex.toNat

def writeSpentOutput (o : SpentTransactionOutput) : Bytes :=
  writeOutputInformation o.toTransactionOutputInformationEx ++ writeBlockInfo o.spendingBlock ++
    o.spendingTransactionHash.bytes ++ writeVarint o.inputInTransaction.toNat

def writeTransactionInformation (t : TransactionInformation) : Bytes :=
  t.transactionHash.bytes ++ t.publicKey.bytes ++ writeVarint t.blockHeight.toNat ++
    writeVarint t.timestamp.toNat ++ writeVarint t.unlockTime.toNat ++
    writeVarint t.totalAmountIn.toNat ++ writeVarint t.totalAmountOut.toNat ++
    writeSized (fun byte => writeVarint byte.toNat) t.extra ++ t.paymentId.bytes

def containerStorageVersion : UInt32 := 0

def saveContainer (c : TransfersContainer) : Bytes :=
  writeVarint containerStorageVersion.toNat ++ writeVarint c.currentHeight.toNat ++
    writeSized writeTransactionInformation c.transactions.toSized ++
    writeSized writeOutputInformation c.unconfirmedTransfers ++
    writeSized writeOutputInformation c.availableTransfers ++
    writeSized writeSpentOutput c.spentTransfers.toSized

def saveBlocks {room : ℕ} (blocks : KnownBlocks room) : Bytes :=
  writeContainer Bytes32.bytes blocks.items

theorem readBytes32_reads : Reads readBytes32 Bytes32.bytes := by
  intro value rest
  obtain ⟨bs,size⟩ := value
  have hlen : 32 ≤ (bs ++ rest).length := by
    rw [List.length_append, size]
    omega
  show readBytes32 (bs ++ rest) = _
  rw [readBytes32, dif_pos hlen]
  simp [← size]

theorem readSized_reads {α : Type} {item : Reader α} {w : α → Bytes} (h : Reads item w) :
    Reads (readSized item) (writeSized w) := by
  intro l rest
  have hcnt : (readVarint 64).run (writeVarint l.items.length ++ (l.items.flatMap w ++ rest)) =
      some (l.items.length, l.items.flatMap w ++ rest) :=
    (readVarint_exact (by norm_num) _ _ _).mpr ⟨l.size,rfl⟩
  rw [readSized, writeSized, writeContainer, List.append_assoc, StateT.run_bind, hcnt,
    Option.bind_eq_bind, Option.bind_some, StateT.run_bind, h.many, Option.bind_eq_bind,
    Option.bind_some, dif_pos l.size]
  rfl

theorem readBlockHeight_reads : Reads readBlockHeight fun ht => writeVarint ht.toNat := by
  intro ht rest
  have hht := ht.toNat_lt
  have hr : (readVarint 64).run (writeVarint ht.toNat ++ rest) =
      some (ht.toNat, rest) := (readVarint_exact (by norm_num) _ _ _).mpr ⟨by omega,rfl⟩
  rw [readBlockHeight, StateT.run_bind, hr, Option.bind_eq_bind, Option.bind_some,
    if_neg (by omega), if_neg (by omega), UInt32.ofNat_toNat]
  rfl

theorem readBool_reads : Reads readBool fun b => [if b then 1 else 0] := by
  intro b rest
  cases b <;> rfl

theorem readTarget_reads {tgt : OutputTarget} {rest : Bytes} :
    (readTarget tgt.type).run (writeOutputTarget tgt ++ rest) = some (tgt, rest) := by
  cases tgt with
  | key ok =>
    rw [OutputTarget.type, readTarget, dif_pos rfl, StateT.run_map]
    show (readBytes32.run (ok.bytes ++ rest)).map _ = _
    rw [readBytes32_reads]
    rfl
  | multisignature requiredSignatures =>
    rw [OutputTarget.type, readTarget, dif_neg (by decide), dif_pos rfl, StateT.run_map]
    show (readUInt32.run (writeVarint requiredSignatures.toNat ++ rest)).map _ = _
    rw [readUInt32_exact.reads]
    rfl
  | other type h =>
    rw [OutputTarget.type, readTarget, dif_neg h.1, dif_neg h.2]
    rfl

theorem readOutput_reads : Reads readOutput writeOutputInformation := by
  intro o rest
  rw [readOutput, writeOutputInformation]
  simp only [List.append_assoc]
  rw [readUInt8_exact.reads.bind, readUInt64_exact.reads.bind, readGlobalOutputIndex,
    readBlockHeight_reads.bind, readUInt32_exact.reads.bind, readBytes32_reads.bind,
    readBytes32_reads.bind, readUInt64_exact.reads.bind, readBlockHeight_reads.bind,
    readUInt32_exact.reads.bind, readBytes32_reads.bind, readBool_reads.bind, StateT.run_bind,
    readTarget_reads]
  rfl

theorem readBlockInfo_reads : Reads readBlockInfo writeBlockInfo := by
  intro b rest
  rw [readBlockInfo, writeBlockInfo]
  simp only [List.append_assoc]
  rw [readBlockHeight_reads.bind, readUInt64_exact.reads.bind, readUInt32_exact.reads.bind]
  rfl

theorem readSpentOutput_reads : Reads readSpentOutput writeSpentOutput := by
  intro o rest
  rw [readSpentOutput, writeSpentOutput]
  simp only [List.append_assoc]
  rw [readOutput_reads.bind, readBlockInfo_reads.bind, readBytes32_reads.bind,
    readUInt32_exact.reads.bind]
  rfl

theorem readTransactionInformation_reads :
    Reads readTransactionInformation writeTransactionInformation := by
  intro t rest
  rw [readTransactionInformation, writeTransactionInformation]
  simp only [List.append_assoc]
  rw [readBytes32_reads.bind, readBytes32_reads.bind, readBlockHeight_reads.bind,
    readUInt64_exact.reads.bind, readUInt64_exact.reads.bind, readUInt64_exact.reads.bind,
    readUInt64_exact.reads.bind, (readSized_reads readUInt8_exact.reads).bind,
    readBytes32_reads.bind]
  rfl

section Load

/-- What is thrown: the genesis block, the version of the archive or that of
a container is another one, or the bytes cannot be read. -/
inductive Fault where
  | genesisMismatch
  | versionMismatch
  | unsupportedVersion
  | reading
  deriving DecidableEq

def decodeContainer (blob : Bytes) : Except Fault TransfersContainer :=
  match readUInt32.run blob with
  | none => .error .reading
  | some (version, rest) =>
    if containerStorageVersion < version then .error .unsupportedVersion
    else
      match readContainer.run rest with
      | none => .error .reading
      | some (c, _) => .ok c

/-- `TransfersContainer::load`. The new indexes are iterated in the order of
their hash tables. -/
def loadContainer (arrange : TransfersContainer → TransfersContainer) (blob : Bytes) :
    EStateM Fault TransfersContainer Unit := fun c =>
  match decodeContainer blob with
  | .ok c => .ok () (arrange c)
  | .error e => .error e c

def zero32 : Bytes32 := ⟨List.replicate 32 0,List.length_replicate⟩

def resize (l : List Bytes32) (size : ℕ) : List Bytes32 :=
  l.take size ++ List.replicate (size - l.length) zero32

/-- Reads the hashes of a vector in place. The one at which the bytes end has
its first bytes already. -/
def readInto : List Bytes32 → Bytes → Bool × List Bytes32
  | [], _ => (true, [])
  | item :: rest, bytes =>
    if h : 32 ≤ bytes.length then
      let others := readInto rest (bytes.drop 32)
      (others.1, ⟨bytes.take 32,List.length_take_of_le h⟩ :: others.2)
    else
      (false, ⟨bytes ++ item.bytes.drop bytes.length,by simp [item.size]; omega⟩ :: rest)

theorem resize_length (l : List Bytes32) (size : ℕ) : (resize l size).length = size := by
  simp [resize]
  omega

theorem readInto_length (its : List Bytes32) (bs : Bytes) :
    (readInto its bs).2.length = its.length := by
  induction its generalizing bs with
  | nil => rfl
  | cons _ _ ih =>
    rw [readInto]
    by_cases h : 32 ≤ bs.length
    · rw [dif_pos h]
      simp [ih]
    · rw [dif_neg h]
      rfl

variable {room : ℕ}

/-- `SynchronizationState::load`. No memory for the new length leaves the
vector as it is. -/
def loadBlocks (blob : Bytes) : EStateM Fault (KnownBlocks room) Unit := fun blocks =>
  match (readVarint 64).run blob with
  | none => .error .reading blocks
  | some (size, rest) =>
    if h : size ≤ room then
      let read := readInto (resize blocks.items size) rest
      have hsize : read.2.length ≤ room := by rwa [readInto_length, resize_length]
      if read.1 then .ok () ⟨read.2,hsize⟩ else .error .reading ⟨read.2,hsize⟩
    else .error .reading blocks

def decodeBlocks (blob : Bytes) : Except Fault (KnownBlocks room) :=
  match (readVarint 64).run blob with
  | none => .error .reading
  | some (size, rest) =>
    match (readMany readBytes32 size).run rest with
    | none => .error .reading
    | some (items, _) => if h : items.length ≤ room then .ok ⟨items,h⟩ else .error .reading

end Load

section Lawful

theorem decodeContainer_save (c : TransfersContainer) :
    decodeContainer (saveContainer c) = .ok c := by
  have hver : readUInt32.run (saveContainer c) = some (containerStorageVersion,
      writeVarint c.currentHeight.toNat ++
        (writeSized writeTransactionInformation c.transactions.toSized ++
        (writeSized writeOutputInformation c.unconfirmedTransfers ++
        (writeSized writeOutputInformation c.availableTransfers ++
        (writeSized writeSpentOutput c.spentTransfers.toSized ++ []))))) := by
    rw [saveContainer]
    simp only [List.append_assoc, List.append_nil]
    exact readUInt32_exact.reads _ _
  have hcur : ¬ containerStorageVersion < containerStorageVersion := by decide
  rw [decodeContainer, hver]
  dsimp only
  rw [if_neg hcur, readContainer, readUInt32_exact.reads.bind,
    (readSized_reads readTransactionInformation_reads).bind,
    (readSized_reads readOutput_reads).bind, (readSized_reads readOutput_reads).bind,
    (readSized_reads readSpentOutput_reads).bind, Index.fill_items, Index.fill_items]
  rfl

variable {room : ℕ}

theorem readMany_eq_readInto (its : List Bytes32) (bs : Bytes) :
    (readMany readBytes32 its.length).run bs =
      if (readInto its bs).1 then
        some ((readInto its bs).2, bs.drop (32 * its.length))
      else none := by
  induction its generalizing bs with
  | nil => simp [readMany, readInto]
  | cons _ rest ih =>
    rw [List.length_cons, readMany, StateT.run_bind, readInto]
    by_cases h : 32 ≤ bs.length
    · have hfst : readBytes32.run bs =
          some (⟨bs.take 32,List.length_take_of_le h⟩,bs.drop 32) := dif_pos h
      rw [dif_pos h, hfst, Option.bind_eq_bind, Option.bind_some, StateT.run_bind, ih]
      by_cases hr : (readInto rest (bs.drop 32)).1 = true
      · have hd : 32 * (rest.length + 1) = 32 + 32 * rest.length := by omega
        rw [if_pos hr, if_pos hr, hd, ← List.drop_drop]
        rfl
      · rw [if_neg hr, if_neg hr]
        rfl
    · have hfst : readBytes32.run bs = none := dif_neg h
      rw [dif_neg h, hfst]
      rfl

theorem loadBlocks_ok (blob : Bytes) (bs bs' : KnownBlocks room) :
    loadBlocks blob bs = .ok () bs' ↔ decodeBlocks blob = .ok bs' := by
  unfold loadBlocks decodeBlocks
  cases (readVarint 64).run blob with
  | none => simp
  | some read =>
    obtain ⟨size,rest⟩ := read
    have hr := readMany_eq_readInto (resize bs.items size) rest
    have hlen := readInto_length (resize bs.items size) rest
    rw [resize_length] at hr hlen
    dsimp only
    rw [hr]
    by_cases hok : (readInto (resize bs.items size) rest).1 = true
    · rw [if_pos hok]
      by_cases h : size ≤ room
      · rw [dif_pos h, if_pos hok]
        simp [hlen, h]
      · rw [dif_neg h]
        simp [hlen, h]
    · rw [if_neg hok]
      by_cases h : size ≤ room
      · rw [dif_pos h, if_neg hok]
        simp
      · rw [dif_neg h]
        simp

theorem readInto_eq_self {its : List Bytes32} {bs : Bytes} (h : (readInto its bs).1 = false) :
    (readInto its bs).2 = its ↔ bs <+: its.flatMap Bytes32.bytes := by
  induction its generalizing bs with
  | nil => cases h
  | cons item rest ih =>
    have hsize : item.bytes.length = 32 := item.size
    rw [readInto] at h ⊢
    rw [List.flatMap_cons]
    by_cases hlong : 32 ≤ bs.length
    · rw [dif_pos hlong] at h ⊢
      rw [List.cons.injEq, ih h]
      have hext : (⟨bs.take 32,List.length_take_of_le hlong⟩ : Bytes32) = item ↔
          bs.take 32 = item.bytes := by
        cases item
        simp
      rw [hext]
      constructor
      · rintro ⟨htake,hdrop⟩
        rw [← List.take_append_drop 32 bs, htake]
        exact List.prefix_append_right_inj _ |>.mpr hdrop
      · intro hpre
        have htake : bs.take 32 = item.bytes := by
          obtain ⟨_,heq⟩ := hpre
          have hfirst := congrArg (List.take 32) heq
          rwa [List.take_append_of_le_length hlong, List.take_append_of_le_length hsize.ge,
            List.take_of_length_le hsize.le] at hfirst
        rw [← List.take_append_drop 32 bs, htake] at hpre
        exact ⟨htake,(List.prefix_append_right_inj _).mp hpre⟩
    · rw [dif_neg hlong]
      have hshort : bs.length ≤ item.bytes.length := by omega
      have hext : (⟨bs ++ item.bytes.drop bs.length,by simp [item.size]; omega⟩ : Bytes32) = item ↔
          bs ++ item.bytes.drop bs.length = item.bytes := by
        cases item
        simp
      rw [List.cons.injEq, and_iff_left rfl, hext]
      constructor
      · intro heq
        exact (show bs <+: item.bytes from ⟨_,heq⟩).trans (List.prefix_append _ _)
      · intro hpre
        obtain ⟨more,heq⟩ :=
          List.prefix_of_prefix_length_le hpre (List.prefix_append _ _) hshort
        rw [← heq]
        simp

def Repeats (items : List Bytes32) (room : ℕ) (blob : Bytes) : Prop :=
  match (readVarint 64).run blob with
  | none => True
  | some (size, rest) => size ≤ room → size = items.length ∧ rest <+: items.flatMap Bytes32.bytes

theorem loadBlocks_refused {blob : Bytes} {e : Fault} (bs : KnownBlocks room)
    (h : decodeBlocks blob = (.error e : Except Fault (KnownBlocks room))) :
    left (loadBlocks blob bs) = bs ↔ Repeats bs.items room blob := by
  have hno : ∀ bs', loadBlocks blob bs ≠ .ok () bs' := by
    intro bs' hok
    rw [(loadBlocks_ok blob bs bs').mp hok] at h
    cases h
  unfold loadBlocks at hno ⊢
  unfold Repeats
  cases hread : (readVarint 64).run blob with
  | none => simp [left]
  | some read =>
    obtain ⟨size,rest⟩ := read
    rw [hread] at hno
    dsimp only at hno ⊢
    by_cases hroom : size ≤ room
    · rw [dif_pos hroom] at hno ⊢
      have hfalse : (readInto (resize bs.items size) rest).1 = false := by
        by_contra htrue
        rw [if_pos (Bool.eq_true_of_not_eq_false htrue)] at hno
        exact hno _ rfl
      rw [if_neg (by simp [hfalse]), left_error, imp_iff_right hroom]
      have hitems : (⟨(readInto (resize bs.items size) rest).2,by
          rwa [readInto_length, resize_length]⟩ : KnownBlocks room) = bs ↔
          (readInto (resize bs.items size) rest).2 = bs.items := by
        cases bs
        simp
      rw [hitems]
      have hself : size = bs.items.length → resize bs.items size = bs.items := by
        rintro rfl
        simp [resize]
      constructor
      · intro heq
        have hsize : size = bs.items.length := by
          rw [← heq, readInto_length, resize_length]
        rw [hself hsize] at heq hfalse
        exact ⟨hsize,(readInto_eq_self hfalse).mp heq⟩
      · rintro ⟨hsize,hpre⟩
        rw [hself hsize] at hfalse ⊢
        exact (readInto_eq_self hfalse).mpr hpre
    · rw [dif_neg hroom, left_error]
      simp [hroom]

theorem decodeBlocks_save (hr : room < 2 ^ 64) (bs : KnownBlocks room) :
    decodeBlocks (saveBlocks bs) = .ok bs := by
  have hcnt : (readVarint 64).run (saveBlocks bs) =
      some (bs.items.length, bs.items.flatMap Bytes32.bytes) :=
    (readVarint_exact (by norm_num) _ _ _).mpr ⟨lt_of_le_of_lt bs.size hr,rfl⟩
  have hits := readBytes32_reads.many bs.items []
  rw [List.append_nil] at hits
  rw [decodeBlocks, hcnt]
  dsimp only
  rw [hits]
  exact dif_pos bs.size

end Lawful

end Orbis.WalletState
