import Mathlib.Data.Prod.Lex
import Orbis.FaultState
import Orbis.ListCursor
import Orbis.ChainCurrency

/-!
# The transfers of an account

The wallet keeps the outputs of an account in three containers: those of
transactions that are not in a block, those that can be spent, and those that
a known transaction spends. Every operation moves outputs between them one at
a time, and after each move of a key output the outputs with its key image are
shown or hidden again. A call that throws leaves the moves made before.
-/

set_option autoImplicit false

namespace Orbis.WalletTransfers

open ListCursor ChainTypes ChainCurrency

def unconfirmedHeight : ℕ := 2 ^ 32 - 1

def unconfirmedIndex : ℕ := 2 ^ 32 - 1

structure TransactionBlockInfo where
  height : ℕ
  timestamp : UInt64
  transactionIndex : ℕ
  deriving DecidableEq

inductive OutputKind where
  | key (outputKey : PublicKey) (keyImage : KeyImage)
  | multisignature (requiredSignatures : ℕ)
  deriving DecidableEq

inductive SpentOutputDescriptor where
  | key (keyImage : KeyImage)
  | multisignature (amount : UInt64) (globalOutputIndex : ℕ)
  deriving DecidableEq

structure TransactionOutputInformationIn where
  amount : UInt64
  globalOutputIndex : ℕ
  outputInTransaction : ℕ
  transactionPublicKey : PublicKey
  kind : OutputKind
  deriving DecidableEq

def TransactionOutputInformationIn.descriptor (t : TransactionOutputInformationIn) :
    SpentOutputDescriptor :=
  match t.kind with
  | .key _ keyImage => .key keyImage
  | .multisignature _ => .multisignature t.amount t.globalOutputIndex

structure Transfer extends TransactionOutputInformationIn where
  transactionHash : Hash
  unlockTime : UInt64
  blockHeight : ℕ
  transactionIndex : ℕ
  visible : Bool
  deriving DecidableEq

structure SpentTransfer where
  output : Transfer
  spendingBlock : TransactionBlockInfo
  spendingTransactionHash : Hash
  inputInTransaction : ℕ
  deriving DecidableEq

structure TransactionInformation where
  transactionHash : Hash
  publicKey : PublicKey
  blockHeight : ℕ
  timestamp : UInt64
  unlockTime : UInt64
  totalAmountIn : UInt64
  totalAmountOut : UInt64
  extra : List UInt8
  paymentId : Hash
  deriving DecidableEq

structure TransactionReader where
  transactionHash : Hash
  transactionPublicKey : PublicKey
  unlockTime : UInt64
  inputTotalAmount : UInt64
  outputTotalAmount : UInt64
  extra : List UInt8
  paymentId : Option Hash
  inputs : List TransactionInput

@[ext] structure Transfers where
  unconfirmed : List Transfer
  available : List Transfer
  spent : List SpentTransfer
  deriving DecidableEq

/-- `transactions` is the index by block height, with transactions of one
height in the order in which they came there. -/
structure TransfersContainer extends Transfers where
  transactions : List TransactionInformation
  currentHeight : ℕ
  deriving DecidableEq

def TransfersContainer.empty : TransfersContainer where
  unconfirmed := []
  available := []
  spent := []
  transactions := []
  currentHeight := 0

def Transfer.isFor (t : Transfer) (keyImage : KeyImage) : Bool :=
  decide (t.descriptor = .key keyImage)

def Transfer.show (t : Transfer) (visible : Bool) : Transfer := { t with visible := visible }

def Transfer.update (keyImage : KeyImage) (visible : Bool) (t : Transfer) : Transfer :=
  if t.isFor keyImage then t.show visible else t

def SpentTransfer.update (keyImage : KeyImage) (visible : Bool) (p : SpentTransfer) :
    SpentTransfer :=
  { p with output := p.output.update keyImage visible }

def Transfer.place (t : Transfer) : ℕ ×ₗ ℕ := toLex (t.blockHeight, t.transactionIndex)

def showEarliest (keyImage : KeyImage) (l : List Transfer) : List Transfer :=
  let hidden := l.map (Transfer.update keyImage false)
  match least Transfer.place (fun t => t.isFor keyImage) hidden with
  | none => hidden
  | some c => c.replace (c.item.show true)

def Transfers.updateTransfersVisibility (s : Transfers) (keyImage : KeyImage) : Transfers :=
  let unconfirmedCount := s.unconfirmed.countP fun t => t.isFor keyImage
  let availableCount := s.available.countP fun t => t.isFor keyImage
  let spentCount := s.spent.countP fun p => p.output.isFor keyImage
  if 0 < spentCount then
    { unconfirmed := s.unconfirmed.map (Transfer.update keyImage false)
      available := s.available.map (Transfer.update keyImage false)
      spent := s.spent.map (SpentTransfer.update keyImage true) }
  else if 0 < availableCount then
    { s with
      unconfirmed := s.unconfirmed.map (Transfer.update keyImage false)
      available := showEarliest keyImage s.available }
  else
    { s with
      unconfirmed := s.unconfirmed.map (Transfer.update keyImage (decide (unconfirmedCount = 1))) }

def Transfers.refresh (s : Transfers) : OutputKind → Transfers
  | .key _ keyImage => s.updateTransfersVisibility keyImage
  | .multisignature _ => s

section Moves

variable (s : Transfers)

def Transfers.addUnconfirmed (t : Transfer) : Transfers :=
  { s with unconfirmed := s.unconfirmed ++ [t] }.refresh t.kind

def Transfers.addAvailable (t : Transfer) : Transfers :=
  { s with available := s.available ++ [t] }.refresh t.kind

/-- A second transfer with the descriptor of a spent one is not taken. -/
def copyToSpent (spent : List SpentTransfer) (p : SpentTransfer) : List SpentTransfer :=
  if spent.any fun q => decide (q.output.descriptor = p.output.descriptor) then spent
  else spent ++ [p]

def Transfers.spend (c : Cursor Transfer) (block : TransactionBlockInfo) (hash : Hash)
    (inputIndex : ℕ) : Transfers :=
  { s with
    available := c.erase
    spent := copyToSpent s.spent ⟨c.item, block, hash, inputIndex⟩ }.refresh c.item.kind

def Transfers.confirm (c : Cursor Transfer) (t : Transfer) : Transfers :=
  { s with unconfirmed := c.erase, available := s.available ++ [t] }.refresh t.kind

def Transfers.release (c : Cursor SpentTransfer) : Transfers :=
  { s with
    available := s.available ++ [c.item.output]
    spent := c.erase }.refresh c.item.output.kind

def Transfers.dropUnconfirmed (c : Cursor Transfer) : Transfers :=
  { s with unconfirmed := c.erase }.refresh c.item.kind

def Transfers.dropAvailable (c : Cursor Transfer) : Transfers :=
  { s with available := c.erase }.refresh c.item.kind

end Moves

def Transfers.releaseAll (hash : Hash) : ℕ → Transfers → Transfers :=
  eraseFound (fun p => decide (p.spendingTransactionHash = hash)) Transfers.spent
    Transfers.release

def Transfers.dropAllUnconfirmed (hash : Hash) : ℕ → Transfers → Transfers :=
  eraseFound (fun t => decide (t.transactionHash = hash)) Transfers.unconfirmed
    Transfers.dropUnconfirmed

def Transfers.dropAllAvailable (hash : Hash) : ℕ → Transfers → Transfers :=
  eraseFound (fun t => decide (t.transactionHash = hash)) Transfers.available
    Transfers.dropAvailable

def Transfers.deleteTransactionTransfers (s : Transfers) (hash : Hash) : Transfers :=
  let s := Transfers.releaseAll hash s.spent.length s
  let s := Transfers.dropAllUnconfirmed hash s.unconfirmed.length s
  Transfers.dropAllAvailable hash s.available.length s

def TransfersContainer.deleteTransaction (c : TransfersContainer) (hash : Hash) :
    TransfersContainer :=
  { c with
    toTransfers := c.toTransfers.deleteTransactionTransfers hash
    transactions := c.transactions.eraseP fun info => decide (info.transactionHash = hash) }

def TransfersContainer.transaction (c : TransfersContainer) (hash : Hash) :
    Option TransactionInformation :=
  c.transactions.find? fun info => decide (info.transactionHash = hash)

def TransfersContainer.deleteUnconfirmedTransaction (c : TransfersContainer) (hash : Hash) :
    Bool × TransfersContainer :=
  match c.transaction hash with
  | none => (false, c)
  | some info =>
    if info.blockHeight ≠ unconfirmedHeight then (false, c) else (true, c.deleteTransaction hash)

def detachFrom (height : ℕ) :
    List TransactionInformation → TransfersContainer → List Hash × TransfersContainer
  | [], c => ([], c)
  | info :: lower, c =>
    let delete := Prod.map (List.cons info.transactionHash) id
      (detachFrom height lower (c.deleteTransaction info.transactionHash))
    if info.blockHeight = unconfirmedHeight then
      if c.spent.any fun p => decide (p.spendingTransactionHash = info.transactionHash ∧
          height ≤ p.output.blockHeight) then delete
      else detachFrom height lower c
    else if height ≤ info.blockHeight then delete
    else ([], c)

def TransfersContainer.detach (c : TransfersContainer) (height : ℕ) :
    List Hash × TransfersContainer :=
  let r := detachFrom height c.transactions.reverse c
  (r.1, { r.2 with currentHeight := height - 1 })

inductive Refusal where
  /-- Cannot add transaction from block < m_currentHeight. -/
  | oldBlock
  /-- Transaction is already added. -/
  | alreadyAdded
  /-- Bad transfer's globalOutputIndex. -/
  | badGlobalIndex
  /-- Transfer already exists. -/
  | alreadyExists
  /-- Spending already spent transfer. -/
  | alreadySpent
  /-- Spending unconfirmed transfer. -/
  | spendingUnconfirmed
  /-- Input has invalid amount, corresponding output isn't found. -/
  | badAmount
  /-- Block height equals WALLET_LEGACY_UNCONFIRMED_TRANSACTION_HEIGHT. -/
  | unconfirmedBlock
  /-- Not enough elements in globalIndices. -/
  | fewIndices
  deriving DecidableEq

abbrev Run := EStateM Refusal TransfersContainer

def onTransfers (f : Transfers → Transfers) : Run Unit :=
  modify fun c => { c with toTransfers := f c.toTransfers }

def Transfers.exists (s : Transfers) (t : TransactionOutputInformationIn) : Bool :=
  match t.kind with
  | .key _ _ => false
  | .multisignature _ =>
    s.available.any (fun u => decide (u.descriptor = t.descriptor)) ||
      s.spent.any fun p => decide (p.output.descriptor = t.descriptor)

def stored (block : TransactionBlockInfo) (tx : TransactionReader)
    (transfer : TransactionOutputInformationIn) : Transfer where
  toTransactionOutputInformationIn := transfer
  transactionHash := tx.transactionHash
  unlockTime := tx.unlockTime
  blockHeight := block.height
  transactionIndex := block.transactionIndex
  visible := true

def addTransactionOutput (block : TransactionBlockInfo) (tx : TransactionReader)
    (transfer : TransactionOutputInformationIn) : Run Unit := do
  let transactionIsUnconfirmed := decide (block.height = unconfirmedHeight)
  let transferIsUnconfirmed := decide (transfer.globalOutputIndex = unconfirmedIndex)
  if transactionIsUnconfirmed ≠ transferIsUnconfirmed then throw .badGlobalIndex
  else if transferIsUnconfirmed then onTransfers (·.addUnconfirmed (stored block tx transfer))
  else if (← get).exists transfer then throw .alreadyExists
  else onTransfers (·.addAvailable (stored block tx transfer))

def addTransactionOutputs (block : TransactionBlockInfo) (tx : TransactionReader) :
    List TransactionOutputInformationIn → Run Bool
  | [] => pure false
  | transfer :: transfers => do
    addTransactionOutput block tx transfer
    let _ ← addTransactionOutputs block tx transfers
    pure true

def addTransactionInput (block : TransactionBlockInfo) (tx : TransactionReader) (i : ℕ) :
    TransactionInput → Run Bool
  | .key amount _ keyImage => do
    let c ← get
    if c.spent.any fun p => p.output.isFor keyImage then throw .alreadySpent
    else if !c.available.any fun t => t.isFor keyImage then
      if c.unconfirmed.any fun t => t.isFor keyImage then throw .spendingUnconfirmed
      else pure false
    else
      match least Transfer.place (fun t => t.isFor keyImage && decide (t.amount = amount))
          c.available with
      | none => throw .badAmount
      | some cursor => do
        onTransfers (·.spend cursor block tx.transactionHash i)
        pure true
  | .multisignature amount _ outputIndex => do
    let c ← get
    match find (fun t => decide (t.descriptor = .multisignature amount outputIndex.toNat))
        c.available with
    | none => pure false
    | some cursor => do
      onTransfers (·.spend cursor block tx.transactionHash i)
      pure true
  | .base _ => pure false

def addTransactionInputs (block : TransactionBlockInfo) (tx : TransactionReader) :
    ℕ → List TransactionInput → Run Bool
  | _, [] => pure false
  | i, input :: inputs => do
    let added ← addTransactionInput block tx i input
    let others ← addTransactionInputs block tx (i + 1) inputs
    pure (added || others)

def transactionInformation (block : TransactionBlockInfo) (tx : TransactionReader) :
    TransactionInformation where
  transactionHash := tx.transactionHash
  publicKey := tx.transactionPublicKey
  blockHeight := block.height
  timestamp := block.timestamp
  unlockTime := tx.unlockTime
  totalAmountIn := tx.inputTotalAmount
  totalAmountOut := tx.outputTotalAmount
  extra := tx.extra
  paymentId := tx.paymentId.getD nullHash

def insertByHeight (info : TransactionInformation) (l : List TransactionInformation) :
    List TransactionInformation :=
  l.orderedInsert (fun a b => a.blockHeight < b.blockHeight) info

def TransfersContainer.record (c : TransfersContainer) (block : TransactionBlockInfo)
    (tx : TransactionReader) (added : Bool) : TransfersContainer where
  toTransfers := c.toTransfers
  transactions :=
    if added then insertByHeight (transactionInformation block tx) c.transactions
    else c.transactions
  currentHeight := if block.height ≠ unconfirmedHeight then block.height else c.currentHeight

def addTransaction (block : TransactionBlockInfo) (tx : TransactionReader)
    (transfers : List TransactionOutputInformationIn) : Run Bool := do
  if block.height < (← get).currentHeight then throw .oldBlock
  else if ((← get).transaction tx.transactionHash).isSome then throw .alreadyAdded
  else do
    let outputsAdded ← addTransactionOutputs block tx transfers
    let inputsAdded ← addTransactionInputs block tx 0 tx.inputs
    modify (·.record block tx (outputsAdded || inputsAdded))
    pure (outputsAdded || inputsAdded)

def confirmed (block : TransactionBlockInfo) (globalOutputIndex : ℕ) (t : Transfer) : Transfer :=
  { t with
    blockHeight := block.height
    transactionIndex := block.transactionIndex
    globalOutputIndex := globalOutputIndex }

def confirmTransfers (block : TransactionBlockInfo) (hash : Hash) (globalIndices : List ℕ) :
    ℕ → Run Unit
  | 0 => pure ()
  | rounds + 1 => do
    let c ← get
    match find (fun t => decide (t.transactionHash = hash)) c.unconfirmed with
    | none => pure ()
    | some cursor =>
      match globalIndices[cursor.item.outputInTransaction]? with
      | none => throw .fewIndices
      | some globalOutputIndex =>
        let transfer := confirmed block globalOutputIndex cursor.item
        if c.exists transfer.toTransactionOutputInformationIn then throw .alreadyExists
        else do
          onTransfers (·.confirm cursor transfer)
          confirmTransfers block hash globalIndices rounds

def SpentTransfer.respend (block : TransactionBlockInfo) (hash : Hash) (p : SpentTransfer) :
    SpentTransfer :=
  if p.spendingTransactionHash = hash then { p with spendingBlock := block } else p

def TransactionInformation.confirmed (block : TransactionBlockInfo)
    (info : TransactionInformation) : TransactionInformation :=
  { info with blockHeight := block.height, timestamp := block.timestamp }

def replaceTransaction (info : TransactionInformation) (l : List TransactionInformation) :
    List TransactionInformation :=
  insertByHeight info
    (l.eraseP fun other => decide (other.transactionHash = info.transactionHash))

def markTransactionConfirmed (block : TransactionBlockInfo) (hash : Hash)
    (globalIndices : List ℕ) : Run Bool := do
  if block.height = unconfirmedHeight then throw .unconfirmedBlock
  else
    match (← get).transaction hash with
    | none => pure false
    | some info =>
      if info.blockHeight ≠ unconfirmedHeight then pure false
      else do
        modify fun c =>
          { c with transactions := replaceTransaction (info.confirmed block) c.transactions }
        confirmTransfers block hash globalIndices (← get).unconfirmed.length
        onTransfers fun s => { s with spent := s.spent.map (SpentTransfer.respend block hash) }
        pure true

section Balance

def TransfersContainer.advanceHeight (c : TransfersContainer) (height : ℕ) :
    Bool × TransfersContainer :=
  if c.currentHeight ≤ height then (true, { c with currentHeight := height }) else (false, c)

def includeStateUnlocked : UInt32 := 0x01

def includeStateLocked : UInt32 := 0x02

def includeStateSoftLocked : UInt32 := 0x04

def includeTypeKey : UInt32 := 0x100

def includeTypeMultisignature : UInt32 := 0x200

def isIncluded (kind : OutputKind) (state flags : UInt32) : Bool :=
  (match kind with
    | .key _ _ => flags &&& includeTypeKey ≠ 0
    | .multisignature _ => flags &&& includeTypeMultisignature ≠ 0) && flags &&& state ≠ 0

variable (currency : Currency) (transactionSpendableAge : ℕ) (now : UInt64)
  (c : TransfersContainer)

def isSpendTimeUnlocked (unlockTime : UInt64) : Bool :=
  if unlockTime < currency.maxBlockHeight then
    UInt64.ofNat c.currentHeight + currency.lockedTxAllowedDeltaBlocks ≥ unlockTime
  else now + currency.lockedTxAllowedDeltaSeconds ≥ unlockTime

def transferState (t : Transfer) : UInt32 :=
  if t.blockHeight = unconfirmedHeight ∨ !isSpendTimeUnlocked currency now c t.unlockTime then
    includeStateLocked
  else if c.currentHeight < t.blockHeight + transactionSpendableAge then includeStateSoftLocked
  else includeStateUnlocked

/-- The transfers that `balance` adds up and `getOutputs` returns. -/
def getOutputs (flags : UInt32) : List Transfer :=
  (c.available.filter fun t => t.visible && isIncluded t.kind
    (transferState currency transactionSpendableAge now c t) flags) ++
  if flags &&& includeStateLocked ≠ 0 then
    c.unconfirmed.filter fun t => t.visible && isIncluded t.kind includeStateLocked flags
  else []

def balance (flags : UInt32) : UInt64 :=
  ((getOutputs currency transactionSpendableAge now c flags).map fun t => t.amount).sum

end Balance

end Orbis.WalletTransfers
