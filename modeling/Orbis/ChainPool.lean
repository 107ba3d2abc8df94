import Orbis.ChainBlock

/-!
# The memory pool

The pool keeps the transactions that are not in the chain, in the order of
their arrival. A transaction that comes back from a block is kept whatever
the chain says about its inputs. The record moved into the container is read
once more afterwards, when only its id and time are left in it, so the
payment-id index of the pool never grows through `addTx`.
-/

set_option autoImplicit false

namespace Orbis.ChainPool

open FaultState ChainTypes ChainSemantic ChainTables ChainInputs ChainBlock

structure BlockInfo where
  height : ℕ
  id : Hash
  deriving DecidableEq

def BlockInfo.clear : BlockInfo := ⟨0, nullHash⟩

def BlockInfo.empty (info : BlockInfo) : Bool := info.id == nullHash

structure TransactionDetails where
  id : Hash
  tx : Transaction
  blobSize : UInt64
  fee : UInt64
  keptByBlock : Bool
  receiveTime : UInt64
  maxUsedBlock : BlockInfo
  lastFailedBlock : BlockInfo

structure Pool where
  transactions : List TransactionDetails
  spentKeyImages : Finmap (fun _ : KeyImage => Finset Hash)
  spentOutputs : Finset (UInt64 × UInt32)
  paymentIdIndex : Multiset (Hash × Hash)
  timestampIndex : Multiset (UInt64 × Hash)
  recentlyDeletedTransactions : List (Hash × UInt64)

def Pool.empty : Pool where
  transactions := []
  spentKeyImages := ∅
  spentOutputs := ∅
  paymentIdIndex := 0
  timestampIndex := 0
  recentlyDeletedTransactions := []

structure TxVerificationContext where
  shouldBeRelayed : Bool
  verificationFailed : Bool
  verificationImpossible : Bool
  addedToPool : Bool
  txFeeTooSmall : Bool
  deriving DecidableEq

namespace TxVerificationContext

def initial : TxVerificationContext := ⟨false, false, false, false, false⟩

def failed : TxVerificationContext := { initial with verificationFailed := true }

end TxVerificationContext

variable (env : Env) (now : UInt64) {kb : Bool} {id : Hash} {p : Pool}

def haveTx (id : Hash) (p : Pool) : Bool := p.transactions.any fun d => d.id == id

def imageSet (image : KeyImage) (p : Pool) : Finset Hash :=
  (p.spentKeyImages.lookup image).getD ∅

def setImage (image : KeyImage) (ids : Finset Hash) (p : Pool) : Pool :=
  { p with spentKeyImages := p.spentKeyImages.insert image ids }

def eraseImage (image : KeyImage) (p : Pool) : Pool :=
  { p with spentKeyImages := p.spentKeyImages.erase image }

def setSpentOutputs (spent : Finset (UInt64 × UInt32)) (p : Pool) : Pool :=
  { p with spentOutputs := spent }

def recentlyDeleted (id : Hash) (p : Pool) : Bool :=
  p.recentlyDeletedTransactions.any fun deleted => deleted.1 == id

def haveSpentInput (p : Pool) : TransactionInput → Bool
  | .base _ => false
  | .key _ _ image => image ∈ p.spentKeyImages
  | .multisignature amount _ outputIndex => (amount, outputIndex) ∈ p.spentOutputs

def haveSpentInputs (tx : Transaction) (p : Pool) : Bool := tx.inputs.any (haveSpentInput p)

def addTransactionInputs (id : Hash) (keptByBlock : Bool) :
    List TransactionInput → Pool → Bool × Pool
  | [], p => (true, p)
  | .base _ :: rest, p => addTransactionInputs id keptByBlock rest p
  | .key _ _ image :: rest, p =>
    if !(keptByBlock || imageSet image p = ∅) then (false, p)
    else if id ∈ imageSet image p then (false, p)
    else addTransactionInputs id keptByBlock rest
      (setImage image (insert id (imageSet image p)) p)
  | .multisignature amount _ outputIndex :: rest, p =>
    if keptByBlock then addTransactionInputs id keptByBlock rest p
    else addTransactionInputs id keptByBlock rest
      (setSpentOutputs (insert (amount, outputIndex) p.spentOutputs) p)

def removeTransactionInputs (id : Hash) (keptByBlock : Bool) :
    List TransactionInput → Pool → Pool
  | [], p => p
  | .base _ :: rest, p => removeTransactionInputs id keptByBlock rest p
  | .key _ _ image :: rest, p =>
    if id ∉ imageSet image p then p
    else
      let others := (imageSet image p).erase id
      removeTransactionInputs id keptByBlock rest
        (if others = ∅ then eraseImage image p else setImage image others p)
  | .multisignature amount _ outputIndex :: rest, p =>
    if keptByBlock then removeTransactionInputs id keptByBlock rest p
    else removeTransactionInputs id keptByBlock rest
      (setSpentOutputs (p.spentOutputs.erase (amount, outputIndex)) p)

def removeTransaction (d : TransactionDetails) (p : Pool) : Pool :=
  let p := removeTransactionInputs d.id d.keptByBlock d.tx.inputs p
  { p with
    paymentIdIndex := p.paymentIdIndex - paymentIds env d.tx
    timestampIndex := p.timestampIndex.erase (d.receiveTime, d.id)
    transactions := p.transactions.filter fun other => other.id != d.id }

def takeTx (id : Hash) (p : Pool) : Option Transaction × Pool :=
  match p.transactions.find? fun d => d.id == id with
  | none => (none, p)
  | some d => (some d.tx, removeTransaction env d p)

def checkInputsForPool (m : MainChain) (tx : Transaction) : Except Fault (Option BlockInfo) := do
  let (valid, maxUsed) ← checkTransactionInputs env now m.blocks m.tables tx
  if !valid then .ok none
  else
    match m.blocks[maxUsed]? with
    | none => .ok none
    | some block => .ok (some ⟨maxUsed, env.getBlockHash block.bl⟩)

def checkTransactionSize (limit blobSize : UInt64) : Bool :=
  !(blobSize > limit - env.currency.minerTxBlobReservedSize)

def details (tx : Transaction) (id : Hash) (blobSize fee : UInt64) (keptByBlock : Bool)
    (maxUsedBlock : BlockInfo) : TransactionDetails where
  id := id
  tx := tx
  blobSize := blobSize
  fee := fee
  keptByBlock := keptByBlock
  receiveTime := now
  maxUsedBlock := maxUsedBlock
  lastFailedBlock := .clear

def insertDetails (d : TransactionDetails) (p : Pool) : Pool :=
  { p with
    transactions := p.transactions ++ [d]
    timestampIndex := (d.receiveTime, d.id) ::ₘ p.timestampIndex }

/-- The last part of `add_tx`, once the transaction is to be stored. -/
def storeTx (d : TransactionDetails) (inputsValid isFusion : Bool) (p : Pool) :
    (Bool × TxVerificationContext) × Pool :=
  if haveTx d.id p then
    ((false, { TxVerificationContext.initial with verificationImpossible := !inputsValid }), p)
  else
    let context : TxVerificationContext :=
      { shouldBeRelayed := inputsValid && (d.fee > 0 || isFusion)
        verificationFailed := true
        verificationImpossible := !inputsValid
        addedToPool := true
        txFeeTooSmall := false }
    let (stored, p) := addTransactionInputs d.id d.keptByBlock d.tx.inputs (insertDetails d p)
    if !stored then ((false, context), p)
    else ((true, { context with verificationFailed := false }), p)

/-- The part of `add_tx` after the inputs were checked against the chain. -/
def admitTx (limit : UInt64) (tx : Transaction) (id : Hash) (blobSize fee : UInt64)
    (isFusion keptByBlock : Bool) (used : Option BlockInfo) (p : Pool) :
    (Bool × TxVerificationContext) × Pool :=
  if !keptByBlock && used.isNone then ((false, .failed), p)
  else if !keptByBlock && !checkTransactionSize env limit blobSize then ((false, .failed), p)
  else if !keptByBlock && recentlyDeleted id p then ((true, .initial), p)
  else
    storeTx (details now tx id blobSize fee keptByBlock (used.getD .clear)) used.isSome isFusion p

def addTx (m : MainChain) (limit : UInt64) (tx : Transaction) (id : Hash) (blobSize : UInt64)
    (keptByBlock : Bool) (p : Pool) :
    Except Fault ((Bool × TxVerificationContext) × Pool) :=
  let inputsAmount := getInputsMoneyAmount tx.toTransactionPrefix
  let outputsAmount := getOutsMoneyAmount tx.toTransactionPrefix
  let fee := inputsAmount - outputsAmount
  let isFusion := fee == 0 && isFusionTransaction env.currency tx blobSize
  if !checkInputsTypesSupported tx.toTransactionPrefix then .ok ((false, .failed), p)
  else if outputsAmount > inputsAmount then .ok ((false, .failed), p)
  else if !keptByBlock && !isFusion && fee < env.currency.minimumFee then
    .ok ((false, { TxVerificationContext.failed with txFeeTooSmall := true }), p)
  else if !keptByBlock && haveSpentInputs tx p then .ok ((false, .failed), p)
  else do
    let used ← checkInputsForPool env now m tx
    .ok (admitTx env now limit tx id blobSize fee isFusion keptByBlock used p)

def isExpired (d : TransactionDetails) : Bool :=
  now - d.receiveTime > if d.keptByBlock then env.currency.mempoolTxFromAltBlockLiveTime
    else env.currency.mempoolTxLiveTime

def recordDeleted (id : Hash) (p : Pool) : Pool :=
  if recentlyDeleted id p then p
  else { p with recentlyDeletedTransactions := p.recentlyDeletedTransactions ++ [(id, now)] }

def removeExpired : List TransactionDetails → Pool → Pool
  | [], p => p
  | d :: rest, p =>
    if isExpired env now d then
      removeExpired rest (removeTransaction env d (recordDeleted now d.id p))
    else removeExpired rest p

def forgetDeleted (p : Pool) : Pool :=
  { p with recentlyDeletedTransactions := p.recentlyDeletedTransactions.filter fun deleted =>
      !(now - deleted.2 > env.currency.numberOfPeriodsToForgetTxDeletedFromPool *
        env.currency.mempoolTxLiveTime) }

def removeExpiredTransactions (p : Pool) : Pool :=
  removeExpired env now p.transactions (forgetDeleted env now p)

structure KeptByInputs (I : Pool → Prop) : Prop where
  setImage : ∀ p image ids, ids ≠ ∅ → I p → I (setImage image ids p)
  eraseImage : ∀ p image, I p → I (eraseImage image p)
  setSpentOutputs : ∀ p outputs, I p → I (setSpentOutputs outputs p)

variable {I : Pool → Prop} {m : MainChain} {limit bsz : UInt64} {tx : Transaction} {p' : Pool}
  {added : Bool} {tvc : TxVerificationContext}

theorem addTransactionInputs_keeps (hI : KeptByInputs I) (id : Hash) (keptByBlock : Bool)
    (ins : List TransactionInput) (h : I p) : I (addTransactionInputs id keptByBlock ins p).2 := by
  induction ins generalizing p with
  | nil => exact h
  | cons inp _ ih =>
    cases inp with
    | base _ => exact ih h
    | key _ _ im =>
      simp only [addTransactionInputs]
      split_ifs
      · exact h
      · exact h
      · exact ih (hI.setImage p im _ (Finset.insert_ne_empty _ _) h)
    | multisignature _ _ _ =>
      simp only [addTransactionInputs]
      split_ifs
      · exact ih h
      · exact ih (hI.setSpentOutputs p _ h)

theorem removeTransactionInputs_keeps (hI : KeptByInputs I) (id : Hash) (keptByBlock : Bool)
    (ins : List TransactionInput) (h : I p) : I (removeTransactionInputs id keptByBlock ins p) := by
  induction ins generalizing p with
  | nil => exact h
  | cons inp _ ih =>
    cases inp with
    | base _ => exact ih h
    | key _ _ im =>
      simp only [removeTransactionInputs]
      split_ifs with hh hemp
      · exact ih (hI.eraseImage p im h)
      · exact ih (hI.setImage p im _ hemp h)
      · exact h
    | multisignature _ _ _ =>
      simp only [removeTransactionInputs]
      split_ifs
      · exact ih h
      · exact ih (hI.setSpentOutputs p _ h)

theorem keptByInputs_of_rest {α : Type} (f : Pool → α) (a : α)
    (him : ∀ p im ids, f (setImage im ids p) = f p) (hera : ∀ p im, f (eraseImage im p) = f p)
    (ho : ∀ p outs, f (setSpentOutputs outs p) = f p) : KeptByInputs fun p => f p = a :=
  ⟨fun p im ids _ h => (him p im ids).trans h,fun p im h => (hera p im).trans h,
    fun p outs h => (ho p outs).trans h⟩

theorem removeTransactionInputs_transactions {ins : List TransactionInput} :
    (removeTransactionInputs id kb ins p).transactions = p.transactions :=
  removeTransactionInputs_keeps (keptByInputs_of_rest Pool.transactions _ (fun _ _ _ => rfl)
    (fun _ _ => rfl) fun _ _ => rfl) id kb ins rfl

theorem takeTx_cases (id : Hash) (p : Pool) :
    ((∀ d ∈ p.transactions, d.id ≠ id) ∧ takeTx env id p = (none, p)) ∨
      ∃ d ∈ p.transactions, d.id = id ∧
        takeTx env id p = (some d.tx, removeTransaction env d p) := by
  unfold takeTx
  cases hf : p.transactions.find? fun d => d.id == id with
  | none => exact .inl ⟨by simpa using hf,rfl⟩
  | some d =>
    exact .inr ⟨d,List.mem_of_find?_eq_some hf,by simpa using List.find?_some hf,rfl⟩

theorem removeTransaction_transactions (d : TransactionDetails) (p : Pool) :
    (removeTransaction env d p).transactions = p.transactions.filter fun o => o.id != d.id := by
  simp only [removeTransaction, removeTransactionInputs_transactions]

theorem addTransactionInputs_transactions (id : Hash) (keptByBlock : Bool)
    (ins : List TransactionInput) (p : Pool) :
    (addTransactionInputs id keptByBlock ins p).2.transactions = p.transactions :=
  addTransactionInputs_keeps (keptByInputs_of_rest Pool.transactions _ (fun _ _ _ => rfl)
    (fun _ _ => rfl) fun _ _ => rfl) id keptByBlock ins rfl

theorem storeTx_transactions (d : TransactionDetails) (iv fus : Bool) (p : Pool) :
    ((storeTx d iv fus p).2.transactions = p.transactions ∧
      (storeTx d iv fus p).1.1 = false) ∨ (haveTx d.id p = false ∧
      (storeTx d iv fus p).2.transactions = p.transactions ++ [d]) := by
  unfold storeTx
  by_cases hh : haveTx d.id p = true
  · rw [if_pos hh]
    exact .inl ⟨rfl,rfl⟩
  · rw [if_neg hh]
    have hadd := addTransactionInputs_transactions d.id d.keptByBlock d.tx.inputs
      (insertDetails d p)
    refine .inr ⟨by simpa using hh,?_⟩
    dsimp only
    split_ifs <;> exact hadd

def Grown (id : Hash) (tx : Transaction) (keptByBlock added : Bool) (p p' : Pool) : Prop :=
  (p'.transactions = p.transactions ∧ (keptByBlock = true → added = false)) ∨
    (haveTx id p = false ∧ ∃ d : TransactionDetails, d.id = id ∧ d.tx = tx ∧
      p'.transactions = p.transactions ++ [d])

theorem addTx_stores {p : Pool}
    (h : addTx env now m limit tx id bsz kb p = .ok ((added, tvc), p')) :
    (p' = p ∧ (kb = true → added = false)) ∨
      ∃ d iv fus, d.id = id ∧ d.tx = tx ∧ d.keptByBlock = kb ∧ (d.receiveTime = now ∧
          (kb = true ∨ haveSpentInputs tx p = false ∧ recentlyDeleted id p = false)) ∧
        storeTx d iv fus p = ((added, tvc), p') := by
  unfold addTx at h
  dsimp only at h
  split_ifs at h with h1 h2 h3 hsp
  · cases h
    exact .inl ⟨rfl,fun _ => rfl⟩
  · cases h
    exact .inl ⟨rfl,fun _ => rfl⟩
  · cases h
    exact .inl ⟨rfl,fun _ => rfl⟩
  · cases h
    exact .inl ⟨rfl,fun _ => rfl⟩
  · obtain ⟨_,-,h⟩ := except_bind_ok.mp h
    have ha := Except.ok.inj h
    unfold admitTx at ha
    split_ifs at ha with hu hs hdel
    · cases ha
      exact .inl ⟨rfl,fun _ => rfl⟩
    · cases ha
      exact .inl ⟨rfl,fun _ => rfl⟩
    · cases ha
      refine .inl ⟨rfl,fun hk => ?_⟩
      simp [hk] at hdel
    · refine .inr ⟨_,_,_,rfl,rfl,rfl,⟨rfl,?_⟩,ha⟩
      cases kb with
      | true => exact .inl rfl
      | false => exact .inr ⟨by simpa using hsp,by simpa using hdel⟩

theorem addTx_transactions {p : Pool}
    (h : addTx env now m limit tx id bsz kb p = .ok ((added, tvc), p')) :
    Grown id tx kb added p p' := by
  rcases addTx_stores env now h with ⟨rfl,hff⟩ | ⟨d,valid,fusion,hid,htx,-,-,hst⟩
  · exact .inl ⟨rfl,hff⟩
  · have hsto := storeTx_transactions d valid fusion p
    rw [hst, hid] at hsto
    exact hsto.imp (fun hs => ⟨hs.1,fun _ => hs.2⟩) fun hm => ⟨hm.1,d,hid,htx,hm.2⟩

theorem mem_of_mem_removeExpired (l : List TransactionDetails) (p : Pool) {d : TransactionDetails}
    (h : d ∈ (removeExpired env now l p).transactions) : d ∈ p.transactions := by
  induction l generalizing p with
  | nil => exact h
  | cons _ _ ih =>
    simp only [removeExpired] at h
    split_ifs at h
    · have hk := ih _ h
      rw [removeTransaction_transactions] at hk
      have hold := List.mem_of_mem_filter hk
      unfold recordDeleted at hold
      split_ifs at hold <;> exact hold
    · exact ih p h

end Orbis.ChainPool
