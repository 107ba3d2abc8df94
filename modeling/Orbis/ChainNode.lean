import Orbis.ChainPool

/-!
# The node: main chain, alternative blocks and pool

A block that continues the main chain is added with transactions taken from
the pool. Any other block with a known parent is stored as an alternative;
when its chain becomes the better one, the node removes the main chain above
the fork, adds the alternative blocks in their place, and on a failure puts
the old blocks back. Adding the removed blocks as alternatives calls the
handler of alternative blocks again, so the two functions are written with
fuel for that recursion.
-/

set_option autoImplicit false

namespace Orbis.ChainNode

open FaultState ChainTypes ChainCurrency ChainSemantic ChainInputs ChainBlock ChainPool

structure Node where
  main : MainChain
  alternativeChains : Finmap (fun _ : Hash => BlockEntry)
  orthanBlocksIndex : Multiset (ℕ × Hash)
  currentBlockCumulSzLimit : UInt64
  pool : Pool

namespace Node

def empty : Node where
  main := MainChain.empty
  alternativeChains := ∅
  orthanBlocksIndex := 0
  currentBlockCumulSzLimit := 0
  pool := Pool.empty

def setMain (n : Node) (m : MainChain) : Node := { n with main := m }

def setPool (n : Node) (p : Pool) : Node := { n with pool := p }

end Node

variable (env : Env) (now : UInt64)

def onMain {α : Type} (x : EStateM Fault MainChain α) : EStateM Fault Node α :=
  within Node.main Node.setMain x

/-- `add_tx` for a transaction that comes back from a block. -/
def returnTx (tx : Transaction) : EStateM Fault Node Bool := do
  let n ← get
  let ((added, _), p) ← reading fun n : Node =>
    addTx env now n.main n.currentBlockCumulSzLimit tx (env.getObjectHash tx)
      (getObjectBinarySize tx) true n.pool
  set (n.setPool p)
  pure added

def returnTxs : List Transaction → EStateM Fault Node Unit
  | [] => pure ()
  | tx :: rest => do
    if !(← returnTx env now tx) then throw .poolRefused
    returnTxs rest

def saveTransactions (txs : List Transaction) : EStateM Fault Node Unit :=
  returnTxs env now txs.reverse

def takeTransaction (id : Hash) : EStateM Fault Node (Option Transaction) := do
  let n ← get
  let (taken, p) := takeTx env id n.pool
  set (n.setPool p)
  pure taken

def loadTransactions : List Hash → List Transaction →
    EStateM Fault Node (Option (List Transaction))
  | [], done => pure (some done.reverse)
  | id :: rest, done => do
    match ← takeTransaction env id with
    | none =>
      returnTxs env now done
      pure none
    | some tx => loadTransactions rest (tx :: done)

def updateNextCumulativeSizeLimit (n : Node) : Node :=
  let median := medianValue (getLastNBlocksSizes n.main.blocks env.currency.rewardBlocksWindow)
  { n with currentBlockCumulSzLimit := max median env.currency.blockGrantedFullRewardZone * 2 }

/-- `pushBlock` with the transactions taken from the pool. -/
def pushPoolBlock (b : Block) : EStateM Fault Node (Bool × BlockVerificationContext) := do
  match ← loadTransactions env now b.transactionHashes [] with
  | none => pure (false, .failed)
  | some txs =>
    let (added, bvc) ← onMain (pushBlock env now b txs)
    if added then
      modify (updateNextCumulativeSizeLimit env)
      pure (true, bvc)
    else
      saveTransactions env now txs
      pure (false, bvc)

def popBlock (blockHash : Hash) : EStateM Fault Node Unit := do
  let n ← get
  match n.main.blocks.getLast? with
  | none => pure ()
  | some block =>
    saveTransactions env now ((block.transactions.drop 1).map TransactionEntry.tx)
    onMain (popStoredBlock env blockHash)

def disconnect : ℕ → List Block → EStateM Fault Node (List Block)
  | 0, removed => pure removed
  | count + 1, removed => do
    let n ← get
    match n.main.blocks.getLast? with
    | none => throw .outOfRange
    | some block =>
      popBlock env now (env.getBlockHash block.bl)
      disconnect count (block.bl :: removed)

def reconnect : List Block → EStateM Fault Node Bool
  | [] => pure true
  | b :: rest => do
    let (added, bvc) ← pushPoolBlock env now b
    if !(added && bvc.addedToMainChain) then pure false else reconnect rest

def rollbackBlockchainSwitching (originalChain : List Block) (rollbackHeight : ℕ) :
    EStateM Fault Node Bool := do
  let n ← get
  let _ ← disconnect env now (n.main.blocks.length - rollbackHeight) []
  reconnect env now originalChain

abbrev AltChain := List (Hash × BlockEntry)

def eraseAlternative (entry : Hash × BlockEntry) (n : Node) : Node :=
  { n with
    orthanBlocksIndex := n.orthanBlocksIndex.erase
      (getBlockHeight entry.2.bl, env.getBlockHash entry.2.bl)
    alternativeChains := n.alternativeChains.erase entry.1 }

def eraseAlternatives (alt : AltChain) (n : Node) : Node :=
  alt.foldl (fun n entry => eraseAlternative env entry n) n

def connect : AltChain → EStateM Fault Node AltChain
  | [] => pure []
  | entry :: rest => do
    let (added, bvc) ← pushPoolBlock env now entry.2.bl
    if !added || !bvc.addedToMainChain then pure (entry :: rest) else connect rest

abbrev Handler : Type := Block → EStateM Fault Node (Bool × BlockVerificationContext)

def readdAll (readd : Block → EStateM Fault Node (Bool × BlockVerificationContext)) :
    List Block → EStateM Fault Node Bool
  | [] => pure true
  | b :: rest => do
    let (accepted, _) ← readd b
    if !accepted then pure false else readdAll readd rest

def switchToAlternativeBlockchain
    (readd : Block → EStateM Fault Node (Bool × BlockVerificationContext))
    (alt : AltChain) (discardDisconnectedChain : Bool) : EStateM Fault Node Bool := do
  match alt with
  | [] => pure false
  | (_, front) :: _ =>
    let splitHeight := front.height
    let n ← get
    if !(n.main.blocks.length > splitHeight) then pure false
    else
      let disconnected ← disconnect env now (n.main.blocks.length - splitHeight) []
      if splitHeight = 0 then throw .outOfRange
      let refused ← connect env now alt
      if refused ≠ [] then
        let _ ← rollbackBlockchainSwitching env now disconnected splitHeight
        modify (eraseAlternatives env refused)
        pure false
      else
        let readded ← if discardDisconnectedChain then pure true
          else readdAll readd disconnected
        if !readded then
          let _ ← rollbackBlockchainSwitching env now disconnected splitHeight
          pure false
        else
          modify (eraseAlternatives env alt)
          pure true

def alternativeChain (alternatives : Finmap (fun _ : Hash => BlockEntry)) :
    ℕ → Hash → Except Fault AltChain
  | fuel, id =>
    match alternatives.lookup id with
    | none => .ok []
    | some entry =>
      match fuel with
      | 0 => .error .endless
      | fuel + 1 => do
        let lower ← alternativeChain alternatives fuel entry.bl.previousBlockHash
        .ok (lower ++ [(id, entry)])

def completeTimestampsVector (blocks : List BlockEntry) (startTopHeight : ℕ)
    (timestamps : List UInt64) : List UInt64 :=
  if timestamps.length ≥ env.currency.timestampCheckWindow then timestamps
  else if !(startTopHeight < blocks.length) then timestamps
  else
    let stopOffset := startTopHeight - (env.currency.timestampCheckWindow - timestamps.length)
    let first := if startTopHeight = 0 then 0 else stopOffset + 1
    timestamps ++ (((blocks.take (startTopHeight + 1)).drop first).map
      fun e => e.bl.timestamp).reverse

def getNextDifficultyForAlternativeChain (blocks : List BlockEntry) (alt : List BlockEntry)
    (height : ℕ) : UInt64 :=
  let count := env.currency.difficultyBlocksCount
  let used :=
    if alt.length < count then
      let stop := match alt.head? with
        | none => height
        | some front => front.height
      let start := stop - min (count - alt.length) stop
      (blocks.take stop).drop (if start = 0 then 1 else start) ++ alt
    else alt.drop (alt.length - count)
  env.currency.nextDifficulty (used.map fun e => e.bl.timestamp)
    (used.map BlockEntry.cumulativeDifficulty)

def findTransactions (n : Node) : List Hash → Except Fault (List Transaction)
  | [] => .ok []
  | id :: rest =>
    match n.main.tables.transactionMap.lookup id with
    | some index => do
      let entry ← transactionByIndex n.main.blocks index
      let others ← findTransactions n rest
      .ok (entry.tx :: others)
    | none => do
      let others ← findTransactions n rest
      match n.pool.transactions.find? fun d => d.id == id with
      | none => .ok others
      | some d => .ok (d.tx :: others)

def getBlockCumulativeSize (b : Block) (n : Node) : Except Fault UInt64 := do
  let txs ← findTransactions n b.transactionHashes
  .ok ((txs.map getObjectBinarySize).foldl (· + ·) (getObjectBinarySize b.baseTransaction))

inductive Verdict where
  | refuse (bvc : BlockVerificationContext)
  | orphan
  | store (alt : AltChain) (entry : BlockEntry) (isCheckpoint : Bool)

def alternativeParent (n : Node) (alt : AltChain) (mainPrevHeight : ℕ) :
    Except Fault (Option (ℕ × UInt64 × List UInt64)) :=
  match alt.head?, alt.getLast? with
  | some (_, front), some (_, previous) =>
    if !(n.main.blocks.length > front.height) then .ok none
    else
      match (if front.height = 0 then none else n.main.blocks[front.height - 1]?) with
      | none => .error .outOfRange
      | some root =>
        if env.getBlockHash root.bl ≠ front.bl.previousBlockHash then .ok none
        else .ok (some (previous.height, previous.cumulativeDifficulty,
          completeTimestampsVector env n.main.blocks (front.height - 1)
            (alt.reverse.map fun e => e.2.bl.timestamp)))
  | _, _ =>
    match n.main.blocks[mainPrevHeight]? with
    | none => .error .outOfRange
    | some root => .ok (some (mainPrevHeight, root.cumulativeDifficulty,
        completeTimestampsVector env n.main.blocks mainPrevHeight []))

def alternativeEntry (b : Block) (height : ℕ) (cumulativeDifficulty : UInt64) : BlockEntry where
  bl := b
  height := height
  blockCumulativeSize := 0
  cumulativeDifficulty := cumulativeDifficulty
  alreadyGeneratedCoins := 0
  transactions := []

def examineChild (n : Node) (b : Block) (id : Hash) (alt : AltChain)
    (parent : ℕ × UInt64 × List UInt64) : Verdict :=
  let height := parent.1 + 1
  if !checkBlockTimestamp env parent.2.2 b then .refuse .failed
  else if !env.checkpoints.checkBlock height id then .refuse .failed
  else
    let currentDiff := getNextDifficultyForAlternativeChain env n.main.blocks
      (alt.map Prod.snd) height
    if currentDiff = 0 then .refuse .initial
    else if !env.checkProofOfWork b currentDiff then .refuse .failed
    else if !prevalidateMinerTransaction env b height then .refuse .failed
    else if id ∈ n.alternativeChains then .refuse .initial
    else .store alt (alternativeEntry b height (parent.2.1 + currentDiff))
      (env.checkpoints.isCheckpoint height)

def examineAlternative (b : Block) (id : Hash) (n : Node) : Except Fault Verdict :=
  let blockHeight := getBlockHeight b
  if blockHeight = 0 then .ok (.refuse .failed)
  else if !env.checkpoints.isAlternativeBlockAllowed n.main.blocks.length blockHeight then
    .ok (.refuse .failed)
  else do
    let cumulativeSize ← getBlockCumulativeSize b n
    if !checkCumulativeBlockSize env cumulativeSize blockHeight then .ok (.refuse .failed)
    else if b.previousBlockHash ∉ n.alternativeChains ∧
        b.previousBlockHash ∉ n.main.blockIndex then .ok .orphan
    else
      let alt ← alternativeChain n.alternativeChains n.alternativeChains.keys.card
        b.previousBlockHash
      match ← alternativeParent env n alt (n.main.blockIndex.idxOf b.previousBlockHash) with
      | none => .ok (.refuse .initial)
      | some parent => .ok (examineChild env n b id alt parent)

def insertAlternative (id : Hash) (entry : BlockEntry) (n : Node) : Node :=
  { n with
    alternativeChains := n.alternativeChains.insert id entry
    orthanBlocksIndex :=
      (getBlockHeight entry.bl, env.getBlockHash entry.bl) ::ₘ n.orthanBlocksIndex }

def switched (success : Bool) : BlockVerificationContext :=
  if success then { BlockVerificationContext.added with switchedToAltChain := true }
  else .failed

def storeAlternative (readd : Block → EStateM Fault Node (Bool × BlockVerificationContext))
    (id : Hash) (alt : AltChain) (entry : BlockEntry) (isCheckpoint : Bool) :
    EStateM Fault Node (Bool × BlockVerificationContext) := do
  modify (insertAlternative env id entry)
  let n ← get
  if isCheckpoint then
    let success ← switchToAlternativeBlockchain env now readd (alt ++ [(id, entry)]) true
    pure (success, switched success)
  else
    match n.main.blocks.getLast? with
    | none => throw .undefined
    | some last =>
      if last.cumulativeDifficulty < entry.cumulativeDifficulty then
        let success ← switchToAlternativeBlockchain env now readd (alt ++ [(id, entry)]) false
        pure (success, switched success)
      else pure (true, .initial)

def alternativeBlock (readd : Block → EStateM Fault Node (Bool × BlockVerificationContext))
    (b : Block) (id : Hash) : EStateM Fault Node (Bool × BlockVerificationContext) := do
  match ← reading (examineAlternative env b id) with
  | .refuse bvc => pure (false, bvc)
  | .orphan => pure (true, { BlockVerificationContext.initial with markedAsOrphaned := true })
  | .store alt entry isCheckpoint => storeAlternative env now readd id alt entry isCheckpoint

def handleAlternativeBlock :
    ℕ → Block → Hash → EStateM Fault Node (Bool × BlockVerificationContext)
  | 0, b, id => alternativeBlock env now (fun _ => throw .outOfFuel) b id
  | fuel + 1, b, id => alternativeBlock env now
      (fun old => handleAlternativeBlock fuel old (env.getBlockHash old)) b id

def haveBlock (id : Hash) (n : Node) : Bool :=
  id ∈ n.main.blockIndex || decide (id ∈ n.alternativeChains)

def addNewBlock (fuel : ℕ) (bl : Block) :
    EStateM Fault Node (Bool × BlockVerificationContext) := do
  let n ← get
  let id := env.getBlockHash bl
  if bl.majorVersion > 1 then pure (false, .failed)
  else if haveBlock id n then
    pure (false, { BlockVerificationContext.initial with alreadyExists := true })
  else if bl.previousBlockHash ≠ n.main.getTailId then
    handleAlternativeBlock env now fuel bl id
  else pushPoolBlock env now bl

def handleIncomingTransaction (tx : Transaction) (keptByBlock : Bool) :
    EStateM Fault Node (Bool × TxVerificationContext) := do
  let n ← get
  let id := env.getObjectHash tx
  if !checkTxSemantic env.ops tx.toTransactionPrefix then pure (false, .failed)
  else if id ∈ n.main.tables.transactionMap then pure (true, .initial)
  else if haveTx id n.pool then pure (true, .initial)
  else
    let (result, p) ← reading fun n : Node =>
      addTx env now n.main n.currentBlockCumulSzLimit tx id (getObjectBinarySize tx) keptByBlock
        n.pool
    set (n.setPool p)
    pure result

variable {env now} {n n' : Node} {tx : Transaction}

theorem returnTx_added {added : Bool} (h : returnTx env now tx n = .ok added n') :
    ∃ tvc p, n' = n.setPool p ∧ addTx env now n.main n.currentBlockCumulSzLimit tx
      (env.getObjectHash tx) (getObjectBinarySize tx) true n.pool = .ok ((added, tvc), p) := by
  unfold returnTx at h
  rw [get_bind, bind_ok] at h
  obtain ⟨⟨⟨_,tvc⟩,p⟩,_,hr,hre⟩ := h
  obtain ⟨hadd,rfl⟩ := (reading_ok _ _ _ _).mp hr
  cases hre
  exact ⟨tvc,p,rfl,hadd⟩

theorem returnTxs_cons {rest : List Transaction}
    (h : returnTxs env now (tx :: rest) n = .ok ⟨⟩ n') :
    ∃ u, returnTx env now tx n = .ok true u ∧ returnTxs env now rest u = .ok ⟨⟩ n' := by
  simp only [returnTxs, bind_ok] at h
  obtain ⟨added,u,hret,hr⟩ := h
  cases added with
  | false => simp at hr
  | true => exact ⟨u,hret,by simpa using hr⟩

theorem takeTransaction_cases {id : Hash} {taken : Option Transaction}
    (h : takeTransaction env id n = .ok taken n') :
    (taken = none ∧ n' = n ∧ ∀ d ∈ n.pool.transactions, d.id ≠ id) ∨
      ∃ d ∈ n.pool.transactions, d.id = id ∧ taken = some d.tx ∧
        n' = n.setPool (removeTransaction env d n.pool) := by
  have hrun : takeTransaction env id n =
      .ok (takeTx env id n.pool).1 (n.setPool (takeTx env id n.pool).2) := rfl
  rw [hrun, EStateM.Result.ok.injEq] at h
  obtain ⟨rfl,rfl⟩ := h
  rcases takeTx_cases env id n.pool with ⟨hn,ht⟩ | ⟨d,hd,hid,ht⟩
  · rw [ht]
    exact .inl ⟨rfl,rfl,hn⟩
  · rw [ht]
    exact .inr ⟨d,hd,hid,rfl,rfl⟩

end Orbis.ChainNode
