import Orbis.ChainInputs

/-!
# Adding and removing a block of the main chain

`pushBlock` checks the header, enters the coinbase and then every other
transaction into the tables while it checks them, and stores the block only
at the end. Its exits differ in what they undo: a failed input check and a
wrong reward take the transactions out again, the check of the cumulative
size returns at once. `popBlock` removes the last block.
-/

set_option autoImplicit false

namespace Orbis.ChainBlock

open FaultState ChainTypes ChainCurrency ChainSemantic ChainTables ChainInputs

structure GeneratedTransactionsIndex where
  index : List UInt64
  lastGeneratedTxNumber : UInt64

namespace GeneratedTransactionsIndex

def empty : GeneratedTransactionsIndex := ⟨[], 0⟩

def add (g : GeneratedTransactionsIndex) (blockHeight transactionCount : ℕ) :
    GeneratedTransactionsIndex :=
  if g.index.length ≠ blockHeight then g
  else
    let number := g.lastGeneratedTxNumber + UInt64.ofNat transactionCount + 1
    ⟨g.index ++ [number], number⟩

def remove (g : GeneratedTransactionsIndex) (blockHeight : ℕ) : GeneratedTransactionsIndex :=
  if blockHeight + 1 ≠ g.index.length then g
  else ⟨g.index.dropLast, g.index.dropLast.getLast?.getD 0⟩

end GeneratedTransactionsIndex

structure MainChain where
  blocks : List BlockEntry
  blockIndex : List Hash
  tables : Tables
  timestampIndex : Multiset (UInt64 × Hash)
  generatedTransactionsIndex : GeneratedTransactionsIndex

namespace MainChain

def empty : MainChain where
  blocks := []
  blockIndex := []
  tables := Tables.empty
  timestampIndex := 0
  generatedTransactionsIndex := GeneratedTransactionsIndex.empty

def getTailId (m : MainChain) : Hash :=
  if m.blocks = [] then nullHash else m.blockIndex.getLast?.getD nullHash

def setTables (m : MainChain) (t : Tables) : MainChain := { m with tables := t }

variable (m : MainChain)

@[simp] theorem setTables_blocks (t : Tables) :
    (m.setTables t).blocks = m.blocks := rfl

@[simp] theorem setTables_tables (t : Tables) : (m.setTables t).tables = t := rfl

@[simp] theorem setTables_setTables (t u : Tables) :
    (m.setTables t).setTables u = m.setTables u := rfl

@[simp] theorem setTables_self : m.setTables m.tables = m := rfl

end MainChain

structure BlockVerificationContext where
  addedToMainChain : Bool
  verificationFailed : Bool
  markedAsOrphaned : Bool
  alreadyExists : Bool
  switchedToAltChain : Bool
  deriving DecidableEq

namespace BlockVerificationContext

def initial : BlockVerificationContext := ⟨false, false, false, false, false⟩

def failed : BlockVerificationContext := { initial with verificationFailed := true }

def added : BlockVerificationContext := { initial with addedToMainChain := true }

end BlockVerificationContext

variable (env : Env) (now : UInt64)

def coinbaseHeight (b : Block) : Option ℕ :=
  match b.baseTransaction.inputs.head? with
  | some (.base blockIndex) => some blockIndex
  | _ => none

def checkBlockTimestamp (timestamps : List UInt64) (b : Block) : Bool :=
  if timestamps.length < env.currency.timestampCheckWindow then true
  else !(b.timestamp < medianValue timestamps)

def checkBlockTimestampMain (blocks : List BlockEntry) (b : Block) : Bool :=
  if b.timestamp > now + env.currency.blockFutureTimeLimit then false
  else
    checkBlockTimestamp env ((blocks.drop
      (blocks.length - env.currency.timestampCheckWindow)).map fun e => e.bl.timestamp) b

def getDifficultyForNextBlock (blocks : List BlockEntry) : UInt64 :=
  let offset := blocks.length - env.currency.difficultyBlocksCount
  let recent := blocks.drop (if offset = 0 then 1 else offset)
  env.currency.nextDifficulty (recent.map fun e => e.bl.timestamp)
    (recent.map BlockEntry.cumulativeDifficulty)

def prevalidateMinerTransaction (b : Block) (height : ℕ) : Bool :=
  match b.baseTransaction.inputs with
  | [.base blockIndex] =>
    blockIndex == height &&
      b.baseTransaction.unlockTime ==
        UInt64.ofNat height + env.currency.minedMoneyUnlockWindow &&
      checkOutsOverflow b.baseTransaction.toTransactionPrefix
  | _ => false

def getLastNBlocksSizes (blocks : List BlockEntry) (count : ℕ) : List UInt64 :=
  (blocks.drop (blocks.length - count)).map BlockEntry.blockCumulativeSize

def validateMinerTransaction (blocks : List BlockEntry) (b : Block)
    (cumulativeBlockSize alreadyGeneratedCoins fee : UInt64) : Option Int64 :=
  let minerReward := getOutputAmount b.baseTransaction.toTransactionPrefix
  let blocksSizeMedian :=
    medianValue (getLastNBlocksSizes blocks env.currency.rewardBlocksWindow)
  match env.currency.getBlockReward blocksSizeMedian cumulativeBlockSize
      alreadyGeneratedCoins fee with
  | none => none
  | some (reward, emissionChange) => if minerReward ≠ reward then none else some emissionChange

def checkCumulativeBlockSize (cumulativeBlockSize : UInt64) (height : ℕ) : Bool :=
  !(cumulativeBlockSize > env.currency.maxBlockCumulativeSize height)

def checkHeader (m : MainChain) (b : Block) : Except BlockVerificationContext UInt64 :=
  let blockHash := env.getBlockHash b
  let height := m.blocks.length
  if blockHash ∈ m.blockIndex then .error .failed
  else if b.previousBlockHash ≠ m.getTailId then .error .failed
  else if !checkBlockTimestampMain env now m.blocks b then .error .failed
  else
    let currentDifficulty := getDifficultyForNextBlock env m.blocks
    if currentDifficulty = 0 then .error .initial
    else if (if env.checkpoints.isInCheckpointZone height
        then !env.checkpoints.checkBlock height blockHash
        else !env.checkProofOfWork b currentDifficulty) then .error .failed
    else if !prevalidateMinerTransaction env b height then .error .failed
    else .ok currentDifficulty

def startEntry (b : Block) : BlockEntry where
  bl := b
  height := 0
  blockCumulativeSize := 0
  cumulativeDifficulty := 0
  alreadyGeneratedCoins := 0
  transactions := [⟨b.baseTransaction, []⟩]

def appendTransaction (block : BlockEntry) (tx : Transaction) : BlockEntry :=
  { block with transactions := block.transactions ++ [⟨tx, []⟩] }

def nextTransaction (index : TransactionIndex) : TransactionIndex :=
  { index with transaction := index.transaction + 1 }

def transactionFee (tx : Transaction) : UInt64 :=
  getInputAmount tx.toTransactionPrefix - getOutputAmount tx.toTransactionPrefix

def onTables {α : Type} (x : EStateM Fault Tables α) : EStateM Fault MainChain α :=
  within MainChain.tables MainChain.setTables x

def checkInputsOf (tx : Transaction) (m : MainChain) : Except Fault Bool := do
  let (valid, _) ← checkTransactionInputs env now m.blocks m.tables tx
  .ok valid

def pushTransactions (minerTransactionHash : Hash) :
    List (Transaction × Hash) → BlockEntry → TransactionIndex → UInt64 → UInt64 →
      EStateM Fault MainChain (Option (BlockEntry × UInt64 × UInt64))
  | [], block, _, cumulativeBlockSize, feeSummary =>
    pure (some (block, cumulativeBlockSize, feeSummary))
  | (tx, txId) :: rest, block, index, cumulativeBlockSize, feeSummary => do
    let valid ← reading (checkInputsOf env now tx)
    if !valid then
      onTables (popTransactions env block minerTransactionHash)
      pure none
    else
      let (_, block) ← onTables
        (pushTransaction env (appendTransaction block tx) txId (nextTransaction index))
      pushTransactions minerTransactionHash rest block (nextTransaction index)
        (cumulativeBlockSize + getObjectBinarySize tx) (feeSummary + transactionFee tx)

def alreadyGenerated (blocks : List BlockEntry) : UInt64 :=
  match blocks.getLast? with
  | none => 0
  | some last => last.alreadyGeneratedCoins

def finishEntry (blocks : List BlockEntry) (block : BlockEntry)
    (currentDifficulty cumulativeBlockSize : UInt64) (emissionChange : Int64) : BlockEntry :=
  { block with
    height := blocks.length
    blockCumulativeSize := cumulativeBlockSize
    cumulativeDifficulty :=
      match blocks.getLast? with
      | none => currentDifficulty
      | some last => currentDifficulty + last.cumulativeDifficulty
    alreadyGeneratedCoins := alreadyGenerated blocks + emissionChange.toUInt64 }

def storeBlock (block : BlockEntry) (m : MainChain) : MainChain :=
  let blockHash := env.getBlockHash block.bl
  { m with
    blocks := m.blocks ++ [block]
    blockIndex := if blockHash ∈ m.blockIndex then m.blockIndex else m.blockIndex ++ [blockHash]
    timestampIndex := (block.bl.timestamp, blockHash) ::ₘ m.timestampIndex }

def setGenerated (m : MainChain) (g : GeneratedTransactionsIndex) : MainChain :=
  { m with generatedTransactionsIndex := g }

def pushEntry (block : BlockEntry) : EStateM Fault MainChain Unit := do
  modify (storeBlock env block)
  match coinbaseHeight block.bl with
  | none => throw .badGet
  | some height =>
    modify fun m => setGenerated m (m.generatedTransactionsIndex.add height
      block.bl.transactionHashes.length)

/-- The checks after the loop and the storing of the block. The exit for a
block that is too large has no undo. -/
def finishBlock (blocks : List BlockEntry) (b : Block) (currentDifficulty : UInt64) :
    Option (BlockEntry × UInt64 × UInt64) →
      EStateM Fault MainChain (Bool × BlockVerificationContext)
  | none => pure (false, .failed)
  | some (block, cumulativeBlockSize, feeSummary) =>
    if !checkCumulativeBlockSize env cumulativeBlockSize blocks.length then
      pure (false, .failed)
    else
      match validateMinerTransaction env blocks b cumulativeBlockSize
          (alreadyGenerated blocks) feeSummary with
      | none => do
        onTables (popTransactions env block (env.getObjectHash b.baseTransaction))
        pure (false, .failed)
      | some emissionChange => do
        pushEntry env
          (finishEntry blocks block currentDifficulty cumulativeBlockSize emissionChange)
        pure (true, .added)

def pushBlock (b : Block) (transactions : List Transaction) :
    EStateM Fault MainChain (Bool × BlockVerificationContext) := do
  let m ← get
  match checkHeader env now m b with
  | .error bvc => pure (false, bvc)
  | .ok currentDifficulty =>
    let minerTransactionHash := env.getObjectHash b.baseTransaction
    let index : TransactionIndex := ⟨m.blocks.length, 0⟩
    let (_, block) ← onTables (pushTransaction env (startEntry b) minerTransactionHash index)
    let checked ← pushTransactions env now minerTransactionHash
      (transactions.zip b.transactionHashes) block index
      (getObjectBinarySize b.baseTransaction) 0
    finishBlock env m.blocks b currentDifficulty checked

def removeTimestamp (block : BlockEntry) (blockHash : Hash) (m : MainChain) : MainChain :=
  { m with timestampIndex := m.timestampIndex.erase (block.bl.timestamp, blockHash) }

def dropBlock (m : MainChain) : MainChain :=
  { m with blocks := m.blocks.dropLast, blockIndex := m.blockIndex.dropLast }

/-- The part of `popBlock` that works on the chain; the transactions go back
to the pool before it. -/
def popStoredBlock (blockHash : Hash) : EStateM Fault MainChain Unit := do
  let m ← get
  match m.blocks.getLast? with
  | none => pure ()
  | some block =>
    onTables (popTransactions env block (env.getObjectHash block.bl.baseTransaction))
    modify (removeTimestamp block blockHash)
    match coinbaseHeight block.bl with
    | none => throw .badGet
    | some height =>
      modify fun m => setGenerated m (m.generatedTransactionsIndex.remove height)
      modify dropBlock

end Orbis.ChainBlock
