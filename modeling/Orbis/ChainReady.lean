import Orbis.ChainCharted

/-!
# Which pool transactions are ready for a block

A miner's template takes from the pool what still has valid inputs. The pool
remembers with each transaction the highest block its inputs used when they
were found valid and the tip at which they last failed, and the chain skips
the full check when the remembered block is still where it was. The heights
handed to the block index are recorded in the state of the check, so that it
can be said which ones lie outside the chain.
-/

set_option autoImplicit false

namespace Orbis.ChainReady

open FaultState WideArithmetic ChainTypes ChainSemantic ChainInputs ChainBlock
open ChainPool ChainNode ChainRun ChainWindow ChainTrace ChainUpheld ChainCharted

structure TransactionCheckInfo where
  maxUsedBlock : BlockInfo
  lastFailedBlock : BlockInfo
  asked : List ℕ

namespace TransactionCheckInfo

def ask (height : ℕ) (info : TransactionCheckInfo) : TransactionCheckInfo :=
  { info with asked := info.asked ++ [height] }

def setHeight (height : ℕ) (info : TransactionCheckInfo) : TransactionCheckInfo :=
  { info with maxUsedBlock := { info.maxUsedBlock with height := height } }

def setId (id : Hash) (info : TransactionCheckInfo) : TransactionCheckInfo :=
  { info with maxUsedBlock := { info.maxUsedBlock with id := id } }

def fail (tail : BlockInfo) (info : TransactionCheckInfo) : TransactionCheckInfo :=
  { info with lastFailedBlock := tail }

end TransactionCheckInfo

open TransactionCheckInfo

variable (env : Env) (now : UInt64) (m : MainChain)

def getBlockIdByHeight (height : ℕ) : EStateM Fault TransactionCheckInfo Hash := do
  modify (ask height)
  match m.blockIndex[height]? with
  | none => throw .undefined
  | some id => pure id

def checkInputsAgain (tx : Transaction) : EStateM Fault TransactionCheckInfo Bool :=
  match checkTransactionInputs env now m.blocks m.tables tx with
  | .error fault => throw fault
  | .ok (valid, maxUsed) => do
    modify (setHeight maxUsed)
    if !valid then pure false
    else
      match m.blocks[maxUsed]? with
      | none => pure false
      | some block =>
        modify (setId (env.getBlockHash block.bl))
        pure true

def tailInfo : BlockInfo := ⟨m.blocks.length - 1, m.getTailId⟩

def recheck (tx : Transaction) : EStateM Fault TransactionCheckInfo Bool := do
  if !(← checkInputsAgain env now m tx) then
    modify (fail (tailInfo m))
    pure false
  else pure true

def checkRemembered (tx : Transaction) : EStateM Fault TransactionCheckInfo Bool := do
  let info ← get
  if info.maxUsedBlock.empty then
    if !info.lastFailedBlock.empty && m.blocks.length > info.lastFailedBlock.height then
      if (← getBlockIdByHeight m info.lastFailedBlock.height) = info.lastFailedBlock.id then
        pure false
      else recheck env now m tx
    else recheck env now m tx
  else if info.maxUsedBlock.height ≥ m.blocks.length then pure false
  else if (← getBlockIdByHeight m info.maxUsedBlock.height) ≠ info.maxUsedBlock.id then
    -- no test that the remembered height is still inside the chain
    if info.lastFailedBlock.id = (← getBlockIdByHeight m info.lastFailedBlock.height) then
      pure false
    else recheck env now m tx
  else pure true

def haveSpentKeyImage : TransactionInput → Bool
  | .key _ _ image => image ∈ m.tables.spentKeys
  | _ => false

def haveSpentKeyImages (tx : Transaction) : Bool := tx.inputs.any (haveSpentKeyImage m)

def isTransactionReadyToGo (tx : Transaction) : EStateM Fault TransactionCheckInfo Bool := do
  if !(← checkRemembered env now m tx) then pure false
  else if haveSpentKeyImages m tx then pure false
  else pure true

structure BlockTemplate where
  keyImages : Finset KeyImage
  usedOutputs : Finset (UInt64 × UInt32)
  txHashes : List Hash

namespace BlockTemplate

def empty : BlockTemplate := ⟨∅, ∅, []⟩

def freeInput (t : BlockTemplate) : TransactionInput → Bool
  | .base _ => true
  | .key _ _ image => image ∉ t.keyImages
  | .multisignature amount _ outputIndex => (amount, outputIndex) ∉ t.usedOutputs

def canAdd (tx : Transaction) (t : BlockTemplate) : Bool := tx.inputs.all (freeInput t)

def useInput (t : BlockTemplate) : TransactionInput → BlockTemplate
  | .base _ => t
  | .key _ _ image => { t with keyImages := insert image t.keyImages }
  | .multisignature amount _ outputIndex =>
    { t with usedOutputs := insert (amount, outputIndex) t.usedOutputs }

def addTransaction (id : Hash) (tx : Transaction) (t : BlockTemplate) : Bool × BlockTemplate :=
  if !canAdd tx t then (false, t)
  else
    let used := tx.inputs.foldl useInput t
    (true, { used with txHashes := used.txHashes ++ [id] })

end BlockTemplate

def prior (lhs rhs : TransactionDetails) : Bool :=
  let l := mul128 lhs.fee rhs.blobSize
  let r := mul128 rhs.fee lhs.blobSize
  l.1 > r.1 || (l.1 == r.1 && l.2 > r.2) ||
    (l.1 == r.1 && l.2 == r.2 && lhs.blobSize < rhs.blobSize) ||
    (l.1 == r.1 && l.2 == r.2 && lhs.blobSize == rhs.blobSize && lhs.receiveTime < rhs.receiveTime)

def feeIndex (p : Pool) : List TransactionDetails :=
  p.transactions.insertionSort fun a b => prior b a = false

def remembered (d : TransactionDetails) : TransactionCheckInfo :=
  ⟨d.maxUsedBlock, d.lastFailedBlock, []⟩

def ready (d : TransactionDetails) : Except Fault (Bool × TransactionCheckInfo) :=
  match isTransactionReadyToGo env now m d.tx (remembered d) with
  | .ok result info => .ok (result, info)
  | .error fault _ => .error fault

structure Filling where
  template : BlockTemplate
  totalSize : UInt64
  fee : UInt64

def Filling.add (d : TransactionDetails) (isReady : Bool) (fee : UInt64) (f : Filling) :
    Filling :=
  if !isReady then f
  else
    let (added, template) := f.template.addTransaction d.id d.tx
    if added then ⟨template, f.totalSize + d.blobSize, f.fee + fee⟩ else f

def fillZeroFee : List TransactionDetails → Filling → Except Fault Filling
  | [], f => .ok f
  | d :: rest, f =>
    if env.currency.fusionTxMaxSize < f.totalSize + d.blobSize then fillZeroFee rest f
    else do
      let (isReady, _) ← ready env now m d
      fillZeroFee rest (f.add d isReady 0)

def remember (info : TransactionCheckInfo) (d : TransactionDetails) : TransactionDetails :=
  { d with maxUsedBlock := info.maxUsedBlock, lastFailedBlock := info.lastFailedBlock }

def rememberAt (id : Hash) (info : TransactionCheckInfo) (p : Pool) : Pool :=
  { p with transactions := p.transactions.map fun d => if d.id = id then remember info d else d }

def fillAll (medianSize maxTotalSize : UInt64) :
    List TransactionDetails → Filling → EStateM Fault Pool Filling
  | [], f => pure f
  | d :: rest, f =>
    if (if d.fee = 0 then medianSize else maxTotalSize) < f.totalSize + d.blobSize then
      fillAll medianSize maxTotalSize rest f
    else do
      let (isReady, info) ← reading fun _ => ready env now m d
      modify (rememberAt d.id info)
      fillAll medianSize maxTotalSize rest (f.add d isReady d.fee)

def fillBlockTemplate (medianSize maxCumulativeSize : UInt64) :
    EStateM Fault Pool (List Hash × UInt64 × UInt64) := do
  let maxTotalSize := min (2 * medianSize - env.currency.minerTxBlobReservedSize) maxCumulativeSize
  let p ← get
  let f ← reading fun p => fillZeroFee env now m
    ((feeIndex p).reverse.takeWhile fun d => d.fee = 0) ⟨.empty, 0, 0⟩
  let f ← fillAll env now m medianSize maxTotalSize (feeIndex p) ⟨f.template, f.totalSize, 0⟩
  pure (f.template.txHashes, f.totalSize, f.fee)

/-- The part of `get_block_template` that looks into the pool. -/
def templateTransactions : EStateM Fault Node (List Hash × UInt64 × UInt64) := do
  let n ← get
  within Node.pool Node.setPool (fillBlockTemplate env now n.main
    (n.currentBlockCumulSzLimit / 2) (env.currency.maxBlockCumulativeSize n.main.blocks.length))

variable {env now m}

variable {info : TransactionCheckInfo} {height ht : ℕ} {n n' : Node}

section Asked

variable (env now m) in
theorem checkInputsAgain_asked (tx : Transaction) (info : TransactionCheckInfo) :
    (left (checkInputsAgain env now m tx info)).asked = info.asked := by
  unfold checkInputsAgain
  cases checkTransactionInputs env now m.blocks m.tables tx with
  | error _ => rfl
  | ok res =>
    rcases res with ⟨valid,mu⟩
    cases valid with
    | false => rfl
    | true =>
      cases hblk : m.blocks[mu]? with
      | none =>
        simp only [hblk]
        rfl
      | some _ =>
        simp only [hblk]
        rfl

variable (env now m) in
theorem recheck_asked {tx : Transaction} :
    (left (recheck env now m tx info)).asked = info.asked := by
  have hchk := checkInputsAgain_asked env now m tx info
  unfold recheck
  cases ha : checkInputsAgain env now m tx info with
  | error _ _ =>
    rw [ha] at hchk
    rw [bind_of_error ha]
    exact hchk
  | ok valid _ =>
    rw [ha] at hchk
    rw [bind_of_ok ha]
    cases valid with
    | false => exact hchk
    | true => exact hchk

theorem getBlockIdByHeight_inside (h : ht < m.blockIndex.length) (info : TransactionCheckInfo) :
    getBlockIdByHeight m ht info = .ok (m.blockIndex.get ⟨ht, h⟩) (ask ht info) := by
  have hget : m.blockIndex[ht]? = some (m.blockIndex.get ⟨ht, h⟩) := List.getElem?_eq_getElem h
  unfold getBlockIdByHeight
  rw [modify_bind, hget]
  rfl

theorem getBlockIdByHeight_outside (h : m.blockIndex.length ≤ ht) (info : TransactionCheckInfo) :
    getBlockIdByHeight m ht info = .error .undefined (ask ht info) := by
  unfold getBlockIdByHeight
  rw [modify_bind, List.getElem?_eq_none h]
  rfl

structure Stale (m : MainChain) (info : TransactionCheckInfo) : Prop where
  known : info.maxUsedBlock.empty = false
  inside : info.maxUsedBlock.height < m.blocks.length
  moved : m.blockIndex[info.maxUsedBlock.height]? ≠ some info.maxUsedBlock.id
  outside : m.blocks.length ≤ info.lastFailedBlock.height

theorem checkRemembered_asked (hlen : m.blockIndex.length = m.blocks.length) (tx : Transaction)
    (ha : info.asked = []) :
    (∀ ht ∈ (left (checkRemembered env now m tx info)).asked, ht < m.blocks.length) ↔
      ¬ Stale m info := by
  have hr : ∀ o : TransactionCheckInfo, (∀ ht ∈ o.asked, ht < m.blocks.length) →
      ∀ ht ∈ (left (recheck env now m tx o)).asked, ht < m.blocks.length := by
    intro o hoth
    rw [recheck_asked]
    exact hoth
  unfold checkRemembered
  rw [get_bind]
  by_cases hemp : info.maxUsedBlock.empty = true
  · rw [if_pos hemp]
    refine iff_of_true ?_ fun hs => by simp [hs.known] at hemp
    by_cases hfl : (!info.lastFailedBlock.empty &&
        decide (m.blocks.length > info.lastFailedBlock.height)) = true
    · rw [if_pos hfl]
      simp only [Bool.and_eq_true, decide_eq_true_eq] at hfl
      have hisd : info.lastFailedBlock.height < m.blockIndex.length := by omega
      have hone : ∀ ht ∈ (ask info.lastFailedBlock.height info).asked, ht < m.blocks.length := by
        intro ht hht
        simp only [ask, ha, List.nil_append, List.mem_singleton] at hht
        omega
      rw [bind_of_ok (getBlockIdByHeight_inside hisd info)]
      split_ifs
      · exact hone
      · exact hr _ hone
    · rw [if_neg hfl]
      apply hr
      simp [ha]
  · rw [if_neg hemp]
    by_cases hsh : info.maxUsedBlock.height ≥ m.blocks.length
    · rw [if_pos hsh]
      refine iff_of_true ?_ fun hs => absurd hs.inside (by omega)
      intro ht hht
      change ht ∈ info.asked at hht
      simp [ha] at hht
    · rw [if_neg hsh]
      have hisd : info.maxUsedBlock.height < m.blockIndex.length := by omega
      have hget := List.getElem?_eq_getElem hisd
      have hone : ∀ ht ∈ (ask info.maxUsedBlock.height info).asked, ht < m.blocks.length := by
        intro ht hht
        simp only [ask, ha, List.nil_append, List.mem_singleton] at hht
        omega
      rw [bind_of_ok (getBlockIdByHeight_inside hisd info)]
      by_cases hm : m.blockIndex.get ⟨info.maxUsedBlock.height, hisd⟩ = info.maxUsedBlock.id
      · rw [if_neg (not_not.mpr hm)]
        refine iff_of_true hone fun hs => hs.moved ?_
        rw [hget]
        exact congrArg some hm
      · rw [if_pos hm]
        by_cases hos : m.blocks.length ≤ info.lastFailedBlock.height
        · -- the remembered failure lies above the chain
          rw [bind_of_error (getBlockIdByHeight_outside (by omega) _)]
          refine iff_of_false ?_ (not_not.mpr ⟨by simpa using hemp,by omega,?_,hos⟩)
          · intro hall
            have hl := hall info.lastFailedBlock.height (by simp [left, ask])
            omega
          · rw [hget]
            intro heq
            exact hm (Option.some.inj heq)
        · have htwo : ∀ ht ∈ (ask info.lastFailedBlock.height
              (ask info.maxUsedBlock.height info)).asked, ht < m.blocks.length := by
            intro ht hht
            rw [ask, List.mem_append] at hht
            rcases hht with hfst | hsnd
            · exact hone ht hfst
            · rw [List.mem_singleton.mp hsnd]
              omega
          rw [bind_of_ok (getBlockIdByHeight_inside (by omega) _)]
          refine iff_of_true ?_ fun hs => absurd hs.outside hos
          split_ifs
          · exact htwo
          · exact hr _ htwo

end Asked

section Runs

variable (env) (U : Set Transaction) (P : Block → Prop)

inductive PoolStep : Node → Node → Prop
  | call {n n' : Node} (step : Step env U P n n') : PoolStep n n'
  | template {now : UInt64} {n n' : Node} {result : List Hash × UInt64 × UInt64}
      (call : templateTransactions env now n = .ok result n') : PoolStep n n'

inductive PoolRun : Node → Prop
  | genesis {now : UInt64} {bvc : BlockVerificationContext} {n : Node}
      (allowed : P env.currency.genesisBlock)
      (push : pushPoolBlock env now env.currency.genesisBlock Node.empty = .ok (true, bvc) n) :
      PoolRun n
  | step {n n' : Node} (before : PoolRun n) (step : PoolStep env U P n n') : PoolRun n'

variable {env U P}

theorem templateTransactions_setPool {res : List Hash × UInt64 × UInt64}
    (h : templateTransactions env now n = .ok res n') : ∃ p, n' = n.setPool p := by
  unfold templateTransactions at h
  rw [get_bind] at h
  obtain ⟨p,-,rfl⟩ := (within_ok _ _ _ _ _ _).mp h
  exact ⟨p,rfl⟩

abbrev Tracked (env : Env) (P : Block → Prop) : Node → Prop :=
  NodeHolds env P (fun _ => True) (MainTraced env P)

theorem governs_tracked : Governs env now P (fun _ _ => True) (Tracked env P) where
  main := fun _ hn => hn.main.traced.allowed
  alternatives := fun _ hn => hn.alternatives
  push := by
    intro b hb n hn
    refine ⟨?_,fun _ _ _ => trivial⟩
    rintro ⟨added,bvc⟩ n' h
    obtain ⟨hm,halt,-⟩ := pushPoolBlock_traced hn.main hb h
    exact ⟨⟨hm,fun _ _ => trivial,halt ▸ hn.alternatives⟩,trivial⟩
  pop := by
    intro hash n hn
    refine ⟨?_,fun _ _ _ => trivial⟩
    intro _ n' h
    obtain ⟨hm,halt,-⟩ := popBlock_traced hn.main h
    exact ⟨⟨hm,fun _ _ => trivial,halt ▸ hn.alternatives⟩,trivial⟩
  insert := fun _ _ _ _ hn hb _ => hn.insert _ hb
  erase := fun _ e hn => hn.erase e
  faults := fun _ _ _ _ => trivial

theorem poolStep_tracked (hn : Tracked env P n) (h : PoolStep env U P n n') : Tracked env P n' := by
  have hp : ∀ p, Tracked env P (n.setPool p) :=
    fun p => ⟨hn.main,fun _ _ => trivial,hn.alternatives⟩
  cases h with
  | call step =>
    cases step with
    | block allowed call => exact ((governs_tracked.steers.addNewBlock _ allowed n hn).1 _ _ call).1
    | transaction _ call =>
      obtain ⟨p,rfl⟩ := handleIncomingTransaction_setPool call
      exact hp p
    | idle => exact hp _
  | template call =>
    obtain ⟨p,rfl⟩ := templateTransactions_setPool call
    exact hp p

theorem PoolRun.tracked (h : PoolRun env U P n) : Tracked env P n := by
  induction h with
  | genesis allowed push =>
    refine ((governs_tracked.push _ allowed Node.empty ?_).1 _ _ push).1
    exact ⟨⟨.nil,rfl⟩,fun _ _ => trivial,fun id e hl => by simp [Node.empty] at hl⟩
  | step _ step ih => exact poolStep_tracked ih step

/-- In every state that the node reaches, whatever it remembers of a
transaction, the check looks up heights of the chain only, unless the
remembered block has moved and the chain has become shorter than the
remembered failure. -/
theorem asked_inside_iff {n : Node} (h : PoolRun env U P n) (now : UInt64)
    (d : TransactionDetails) :
    (∀ height ∈ (left (checkRemembered env now n.main d.tx (remembered d))).asked,
      height < n.main.blocks.length) ↔ ¬ Stale n.main (remembered d) := by
  apply checkRemembered_asked _ d.tx rfl
  rw [h.tracked.main.index, List.length_map]

end Runs

def layer (nonce parent height : ℕ) (timestamp : UInt64) : Block :=
  blockOn (raised (height - 1)) nonce parent height timestamp

def grow (b : Block) (n : Node) : Node := left (addNewBlock sampleEnv 10000 1 b n)

def paidBlock : Block := mine 2 1 1000 (mint 2 1 5297658301515 (.key 1)) []

def paidNode : Node := grow paidBlock sampleNode

def pooledNode : Node :=
  left (handleIncomingTransaction sampleEnv 10000 ChainKeys.sampleRing false paidNode)

def longNode : Node :=
  grow (layer 15 14 5 1444) (grow (layer 14 13 4 1333) (grow (layer 13 12 3 1222)
    (grow (layer 12 11 2 1111) (grow (layer 11 1 1 1000) pooledNode))))

def askedNode : Node := left (templateTransactions sampleEnv 10000 longNode)

def shortNode : Node :=
  grow (layer 23 22 3 1002) (grow (layer 22 21 2 1001) (grow (layer 21 1 1 1000) askedNode))

theorem sampleNode_pool {U : Set Transaction} {P : Block → Prop}
    (hP : P sampleEnv.currency.genesisBlock) : PoolRun sampleEnv U P sampleNode :=
  .genesis hP (eq_ok_of_value (show _ = some (true, .added) from by decide +kernel))

theorem grow_pool {b : Block} (hn : PoolRun sampleEnv Set.univ (fun _ => True) n)
    (h : (value (addNewBlock sampleEnv 10000 1 b n)).isSome = true) :
    PoolRun sampleEnv Set.univ (fun _ => True) (grow b n) := by
  obtain ⟨_,hres⟩ := Option.isSome_iff_exists.mp h
  exact .step hn (.call (.block trivial (eq_ok_of_value hres)))

theorem askedNode_pool : PoolRun sampleEnv Set.univ (fun _ => True) askedNode := by
  have hp : PoolRun sampleEnv Set.univ (fun _ => True) paidNode :=
    grow_pool (sampleNode_pool trivial) (by decide +kernel)
  have hpo : PoolRun sampleEnv Set.univ (fun _ => True) pooledNode := by
    have hc : (value (handleIncomingTransaction sampleEnv 10000 ChainKeys.sampleRing false
        paidNode)).isSome = true := by decide +kernel
    obtain ⟨res,hres⟩ := Option.isSome_iff_exists.mp hc
    exact .step hp (.call (.transaction (Set.mem_univ _) (eq_ok_of_value hres)))
  have hl : PoolRun sampleEnv Set.univ (fun _ => True) longNode := by
    iterate 5 refine grow_pool ?_ (by decide +kernel)
    exact hpo
  have hc : (value (templateTransactions sampleEnv 10000 longNode)).isSome = true := by
    decide +kernel
  obtain ⟨res,hres⟩ := Option.isSome_iff_exists.mp hc
  exact .step hl (.template (eq_ok_of_value hres))

/-- The check of the transaction has failed on this chain of six blocks. -/
theorem asked_inside_iff_sample : ∃ d ∈ askedNode.pool.transactions,
    ∀ height ∈ (left (checkRemembered sampleEnv 10000 askedNode.main d.tx (remembered d))).asked,
      height < askedNode.main.blocks.length := by
  have hin : ∃ d ∈ askedNode.pool.transactions,
      (remembered d).lastFailedBlock.height < askedNode.main.blocks.length := by
    decide +kernel
  obtain ⟨d,hd,hlt⟩ := hin
  exact ⟨d,hd,(asked_inside_iff askedNode_pool 10000 d).mpr fun hs =>
    absurd hs.outside (Nat.not_le.mpr hlt)⟩

theorem shortNode_pool : PoolRun sampleEnv Set.univ (fun _ => True) shortNode := by
  iterate 3 refine grow_pool ?_ (by decide +kernel)
  exact askedNode_pool

/-- A transaction is checked on a chain of six blocks and fails there. After
the change to a chain of four blocks with more work the check looks up the
height of that failure. -/
theorem remembered_height_outside : PoolRun sampleEnv Set.univ (fun _ => True) shortNode ∧
    longNode.main.blockIndex = [1, 11, 12, 13, 14, 15] ∧
    shortNode.main.blockIndex = [1, 21, 22, 23] ∧ ∃ d ∈ shortNode.pool.transactions,
      ∃ height ∈ (left (checkRemembered sampleEnv 10000 shortNode.main d.tx (remembered d))).asked,
        shortNode.main.blocks.length ≤ height := by
  refine ⟨shortNode_pool,?_⟩
  decide +kernel

end Orbis.ChainReady
