import Orbis.ChainPush

/-!
# Every outcome of adding a block, and its removal

On a sound chain, `pushBlock` has seven outcomes, decided by the header
checks, the input checks, the size and the reward. Only the outcome for a
block that is too large leaves tables behind that are not those of the
chain. An accepted block makes the chain sound again, and `popStoredBlock`
removes exactly what the block added.
-/

set_option autoImplicit false

namespace Orbis.ChainSound

open FaultState ChainTypes ChainCurrency ChainSemantic ChainTables ChainUndo
open ChainBlock ChainStack ChainPush

variable (env : Env) (U : Set Transaction)

variable {em : Int64}

/-- What the callers of `pushBlock` provide: the transactions are taken from
the pool by the hashes of the block, and the pool admits only transactions
that passed the semantic check. The 16-bit position must be able to count
them. -/
structure Offered (b : Block) (txs : List Transaction) : Prop where
  base : b.baseTransaction ∈ U
  known : ∀ tx ∈ txs, tx ∈ U
  semantic : ∀ tx ∈ txs, checkTxSemantic env.ops tx.toTransactionPrefix = true
  hashes : b.transactionHashes = txs.map env.getObjectHash
  count : txs.length < 2 ^ 16

structure Sound (m : MainChain) : Prop where
  recorded : Recorded env U m.blocks.length m.tables
  index : m.blockIndex = m.blocks.map fun e => env.getBlockHash e.bl
  distinct : m.blockIndex.Nodup
  counted : m.generatedTransactionsIndex.index.length = m.blocks.length
  total : m.generatedTransactionsIndex.lastGeneratedTxNumber =
    m.generatedTransactionsIndex.index.getLast?.getD 0

structure HeaderOk (now : UInt64) (m : MainChain) (b : Block) (difficulty : UInt64) :
    Prop where
  fresh : env.getBlockHash b ∉ m.blockIndex
  previous : b.previousBlockHash = m.getTailId
  timestamp : checkBlockTimestampMain env now m.blocks b = true
  difficulty_eq : difficulty = getDifficultyForNextBlock env m.blocks
  difficulty_ne : difficulty ≠ 0
  work : (if env.checkpoints.isInCheckpointZone m.blocks.length
    then env.checkpoints.checkBlock m.blocks.length (env.getBlockHash b)
    else env.checkProofOfWork b difficulty) = true
  miner : prevalidateMinerTransaction env b m.blocks.length = true

theorem checkHeader_ok {now : UInt64} {m : MainChain} {b : Block} {df : UInt64} :
    checkHeader env now m b = .ok df ↔ HeaderOk env now m b df := by
  unfold checkHeader
  constructor
  · intro h
    dsimp only at h
    split_ifs at h with hfr hp ht hze hz hcheck hmi hw hmi
    · cases h
      refine ⟨hfr,not_not.mp hp,by simpa using ht,rfl,hze,?_,by simpa using hmi⟩
      simpa [hz] using hcheck
    · cases h
      refine ⟨hfr,not_not.mp hp,by simpa using ht,rfl,hze,?_,by simpa using hmi⟩
      simpa [hz] using hw
  · rintro ⟨hfr,hp,ht,rfl,hne,hw,hmi⟩
    have hw' : (if env.checkpoints.isInCheckpointZone m.blocks.length
        then !env.checkpoints.checkBlock m.blocks.length (env.getBlockHash b)
        else !env.checkProofOfWork b (getDifficultyForNextBlock env m.blocks)) = false := by
      split_ifs with hz <;> simp_all
    simp only [hfr, hp, ht, hne, hmi, hw', if_false, ne_eq, not_true_eq_false,
      Bool.not_true, Bool.false_eq_true]

variable {ht : ℕ} {bvc : BlockVerificationContext}

theorem prevalidate_inputs {b : Block} (h : prevalidateMinerTransaction env b ht = true) :
    b.baseTransaction.inputs = [.base ht] := by
  unfold prevalidateMinerTransaction at h
  split at h
  · rename_i blockIndex hins
    simp only [Bool.and_eq_true, beq_iff_eq] at h
    rw [hins, h.1.1]
  · cases h

def openEntry (b : Block) (height : ℕ) (t : Tables) : BlockEntry :=
  { startEntry b with transactions := [entryOf env height 0 b.baseTransaction t] }

def entered (m : MainChain) (b : Block) : MainChain :=
  m.setTables (enter env m.blocks.length 0 b.baseTransaction m.tables)

def fullEntry (m : MainChain) (b : Block) (txs : List Transaction) : BlockEntry :=
  addEntries (openEntry env b m.blocks.length m.tables)
    (entriesAll env m.blocks.length 1 txs (entered env m b).tables)

def filledTables (m : MainChain) (b : Block) (txs : List Transaction) : Tables :=
  enterAll env m.blocks.length 1 txs (entered env m b).tables

def blockSize (b : Block) (txs : List Transaction) : UInt64 :=
  totalSize (getObjectBinarySize b.baseTransaction) txs

def acceptedEntry (m : MainChain) (b : Block) (txs : List Transaction) (difficulty : UInt64)
    (emissionChange : Int64) : BlockEntry :=
  finishEntry m.blocks (fullEntry env m b txs) difficulty (blockSize b txs) emissionChange

def accepted (m : MainChain) (b : Block) (txs : List Transaction) (difficulty : UInt64)
    (emissionChange : Int64) : MainChain :=
  setGenerated
    (storeBlock env (acceptedEntry env m b txs difficulty emissionChange)
      (m.setTables (filledTables env m b txs)))
    (m.generatedTransactionsIndex.add m.blocks.length b.transactionHashes.length)

def checkBlockInputs (now : UInt64) (m : MainChain) (b : Block) (txs : List Transaction) :
    Except Fault Bool :=
  checkAll env now m.blocks 1 txs (entered env m b).tables

variable {env U} {now : UInt64} {m : MainChain} {b : Block} {txs : List Transaction}
  {difficulty : UInt64}

theorem validateMinerTransaction_paid {bs : List BlockEntry} {size already fee reward : UInt64}
    (hrw : env.currency.getBlockReward
      (medianValue (getLastNBlocksSizes bs env.currency.rewardBlocksWindow)) size already fee =
        some (reward, em)) (hp : getOutputAmount b.baseTransaction.toTransactionPrefix = reward) :
    validateMinerTransaction env bs b size already fee = some em := by
  unfold validateMinerTransaction
  simp only [hrw, hp, ne_eq, not_true, if_false]

theorem pushCoinbase (hU : TxInj env U) (hm : Sound env U m) (hb : b.baseTransaction ∈ U)
    (hheader : HeaderOk env now m b difficulty)
    (hshort : b.baseTransaction.outputs.length < 2 ^ 16) :
    onTables (pushTransaction env (startEntry b) (env.getObjectHash b.baseTransaction)
        ⟨m.blocks.length, 0⟩) m =
      .ok (true, openEntry env b m.blocks.length m.tables) (entered env m b) := by
  have hadm := admissible_coinbase env hU hm.recorded hb
    (prevalidate_inputs env hheader.miner) hshort
  have hpl : (startEntry b).transactions[(0 : UInt16).toNat]? = some ⟨b.baseTransaction, []⟩ := rfl
  have hp : pushTransaction env (startEntry b) (env.getObjectHash b.baseTransaction)
      ⟨m.blocks.length, 0⟩ m.tables = _ := pushTransaction_ok hpl hadm
  rw [onTables, within_ok]
  exact ⟨_,hp,rfl⟩

theorem entering_start (hU : TxInj env U) (hm : Sound env U m) (hoffered : Offered env U b txs)
    (hheader : HeaderOk env now m b difficulty)
    (hshort : b.baseTransaction.outputs.length < 2 ^ 16) :
    Entering env U (entered env m b) m.tables [] txs
      (openEntry env b m.blocks.length m.tables) := by
  have hins := prevalidate_inputs env hheader.miner
  have hadm := admissible_coinbase env hU hm.recorded hoffered.base hins hshort
  exact {
    tables := rfl
    admissible := ⟨hadm,trivial⟩
    compact := hm.recorded.compact
    recorded := recorded_applyTransaction env (Nat.le_succ _) _ hm.recorded hadm hoffered.base
      (.inl ⟨m.blocks.length,Nat.lt_succ_self _,hins⟩)
    transactions := rfl
    hashes := hoffered.hashes
    offered := fun tx htx => ⟨hoffered.known tx htx,
      (checkTxSemantic_iff env.ops _).mp (hoffered.semantic tx htx)⟩
    count := hoffered.count }

theorem pushBlock_header_error (h : checkHeader env now m b = .error bvc) :
    pushBlock env now b txs m = .ok (false, bvc) m := by
  unfold pushBlock
  rw [get_bind]
  simp only [h]
  rfl

theorem pushBlock_coinbase_endless (hU : TxInj env U) (hm : Sound env U m)
    (hoffered : Offered env U b txs) (hheader : HeaderOk env now m b difficulty)
    (hl : 2 ^ 16 ≤ b.baseTransaction.outputs.length) :
    ∃ left, pushBlock env now b txs m = .error .endless left := by
  have hins := prevalidate_inputs env hheader.miner
  have hpl : (startEntry b).transactions[(0 : UInt16).toNat]? = some ⟨b.baseTransaction, []⟩ := rfl
  obtain ⟨t,ht⟩ : ∃ t, pushTransaction env (startEntry b)
      (env.getObjectHash b.baseTransaction) ⟨m.blocks.length, 0⟩ m.tables =
        .error .endless t := pushTransaction_endless env hpl
          (fresh_coinbase env hU hm.recorded hoffered.base hins)
          (spendable_coinbase hins) hl
  have hon : onTables (pushTransaction env (startEntry b)
      (env.getObjectHash b.baseTransaction) ⟨m.blocks.length, 0⟩) m =
        .error .endless (m.setTables t) := by
    rw [onTables, within_error]
    exact ⟨t,ht,rfl⟩
  refine ⟨m.setTables t,?_⟩
  unfold pushBlock
  rw [get_bind]
  simp only [(checkHeader_ok env).mpr hheader]
  rw [bind_of_error hon]

theorem pushEntry_ok {blk : BlockEntry} (h : coinbaseHeight blk.bl = some ht) :
    pushEntry env blk m = .ok ⟨⟩ (setGenerated (storeBlock env blk m)
      (m.generatedTransactionsIndex.add ht blk.bl.transactionHashes.length)) := by
  unfold pushEntry
  rw [modify_bind]
  simp only [h]
  rfl

theorem coinbaseHeight_of_header (h : HeaderOk env now m b difficulty) :
    coinbaseHeight b = some m.blocks.length := by
  simp [coinbaseHeight, prevalidate_inputs env h.miner]

/-- Every multisignature amount that the block pays is in the tables
already. -/
def LastingAll (m : MainChain) (b : Block) (txs : List Transaction) : Prop :=
  ∀ tx ∈ b.baseTransaction :: txs, Lasting m.tables tx

instance (m : MainChain) (b : Block) (txs : List Transaction) : Decidable (LastingAll m b txs) :=
  inferInstanceAs (Decidable (∀ tx ∈ b.baseTransaction :: txs, _))

section Outcomes

variable (hU : TxInj env U) (hm : Sound env U m)
  (hoffered : Offered env U b txs) (hheader : HeaderOk env now m b difficulty)
  (hshort : b.baseTransaction.outputs.length < 2 ^ 16)

include hU hm hoffered hheader hshort

theorem inputs_outcome :
    Outcome env now U (entered env m b) m.tables [] txs (openEntry env b m.blocks.length m.tables)
      (getObjectBinarySize b.baseTransaction) 0 (checkBlockInputs env now m b txs) :=
  pushTransactions_outcome hU (entering_start hU hm hoffered hheader hshort) _ _

theorem pushBlock_entered : pushBlock env now b txs m =
      (pushTransactions env now (env.getObjectHash b.baseTransaction) (pairs env txs)
        (openEntry env b m.blocks.length m.tables) (position m.blocks.length 0)
        (getObjectBinarySize b.baseTransaction) 0 >>= finishBlock env m.blocks b difficulty)
      (entered env m b) := by
  have hzip : txs.zip b.transactionHashes = pairs env txs := by
    have := zip_eq_pairs env txs []
    rwa [List.append_nil, ← hoffered.hashes] at this
  unfold pushBlock
  rw [get_bind]
  simp only [(checkHeader_ok env).mpr hheader, hzip]
  rw [bind_of_ok (pushCoinbase hU hm hoffered.base hheader hshort)]
  rfl

theorem pushBlock_fault {fault : Fault} (hcheck : checkBlockInputs env now m b txs = .error fault) :
    ∃ left, pushBlock env now b txs m = .error fault left := by
  obtain ⟨left,hl⟩ := hcheck ▸ inputs_outcome hU hm hoffered hheader hshort
  rw [pushBlock_entered hU hm hoffered hheader hshort]
  exact ⟨left,bind_of_error hl⟩

theorem pushBlock_inputs_refused (hcheck : checkBlockInputs env now m b txs = .ok false) :
    pushBlock env now b txs m = .ok (false, .failed) m ∨
      ¬ LastingAll m b txs ∧ ∃ left, pushBlock env now b txs m = .error .erased left := by
  have hr := hcheck ▸ inputs_outcome hU hm hoffered hheader hshort
  rw [pushBlock_entered hU hm hoffered hheader hshort]
  exact hr.imp bind_of_ok fun ⟨hnot,left,hl⟩ => ⟨hnot,left,bind_of_error hl⟩

section Checked

variable (hcheck : checkBlockInputs env now m b txs = .ok true)

include hcheck

theorem pushBlock_checked : pushBlock env now b txs m = finishBlock env m.blocks b difficulty
      (some (fullEntry env m b txs, blockSize b txs, totalFee 0 txs))
      (m.setTables (filledTables env m b txs)) := by
  have ha := hcheck ▸ inputs_outcome hU hm hoffered hheader hshort
  rw [pushBlock_entered hU hm hoffered hheader hshort]
  exact bind_of_ok ha.1

theorem entering_filled : Entering env U (m.setTables (filledTables env m b txs)) m.tables txs []
      (fullEntry env m b txs) :=
  (hcheck ▸ inputs_outcome hU hm hoffered hheader hshort).2

theorem undo_filled : onTables (popTransactions env (fullEntry env m b txs)
        (env.getObjectHash b.baseTransaction)) (m.setTables (filledTables env m b txs)) =
        .ok ⟨⟩ m ∨
      ¬ LastingAll m b txs ∧ ∃ left, onTables (popTransactions env (fullEntry env m b txs)
        (env.getObjectHash b.baseTransaction)) (m.setTables (filledTables env m b txs)) =
          .error .erased left :=
  (entering_filled hU hm hoffered hheader hshort hcheck).undo

theorem admissible_filled :
    AdmissibleAll env m.blocks.length 0 (b.baseTransaction :: txs) m.tables :=
  (entering_filled hU hm hoffered hheader hshort hcheck).admissible

theorem pushBlock_oversized
    (hs : checkCumulativeBlockSize env (blockSize b txs) m.blocks.length = false) :
    pushBlock env now b txs m = .ok (false, .failed) (m.setTables (filledTables env m b txs)) := by
  rw [pushBlock_checked hU hm hoffered hheader hshort hcheck, finishBlock]
  simp only [hs, Bool.not_false, if_true]
  rfl

theorem pushBlock_reward_refused
    (hs : checkCumulativeBlockSize env (blockSize b txs) m.blocks.length = true)
    (hrw : validateMinerTransaction env m.blocks b (blockSize b txs)
      (alreadyGenerated m.blocks) (totalFee 0 txs) = none) :
    pushBlock env now b txs m = .ok (false, .failed) m ∨
      ¬ LastingAll m b txs ∧ ∃ left, pushBlock env now b txs m = .error .erased left := by
  rw [pushBlock_checked hU hm hoffered hheader hshort hcheck, finishBlock]
  simp only [hs, Bool.not_true, Bool.false_eq_true, if_false, hrw]
  exact (undo_filled hU hm hoffered hheader hshort hcheck).imp (fun hok => bind_of_ok hok)
    fun ⟨hnot,left,hl⟩ => ⟨hnot,left,bind_of_error hl⟩

theorem pushBlock_accepted
    (hs : checkCumulativeBlockSize env (blockSize b txs) m.blocks.length = true)
    (hrw : validateMinerTransaction env m.blocks b (blockSize b txs)
      (alreadyGenerated m.blocks) (totalFee 0 txs) = some em) :
    pushBlock env now b txs m = .ok (true, .added) (accepted env m b txs difficulty em) := by
  have hht : coinbaseHeight (acceptedEntry env m b txs difficulty em).bl =
      some m.blocks.length := coinbaseHeight_of_header hheader
  rw [pushBlock_checked hU hm hoffered hheader hshort hcheck, finishBlock]
  simp only [hs, Bool.not_true, Bool.false_eq_true, if_false, hrw]
  exact bind_of_ok (pushEntry_ok hht)

end Checked

end Outcomes

variable (env)

/-- The block passes every check before the size check, and its size is
above the limit of its height. -/
structure Oversized (now : UInt64) (m : MainChain) (b : Block) (txs : List Transaction) :
    Prop where
  header : ∃ difficulty, HeaderOk env now m b difficulty
  short : b.baseTransaction.outputs.length < 2 ^ 16
  inputs : checkBlockInputs env now m b txs = .ok true
  size : checkCumulativeBlockSize env (blockSize b txs) m.blocks.length = false

structure Acceptance (now : UInt64) (m : MainChain) (b : Block) (txs : List Transaction)
    (difficulty : UInt64) (emissionChange : Int64) : Prop where
  header : HeaderOk env now m b difficulty
  short : b.baseTransaction.outputs.length < 2 ^ 16
  inputs : checkBlockInputs env now m b txs = .ok true
  size : checkCumulativeBlockSize env (blockSize b txs) m.blocks.length = true
  reward : validateMinerTransaction env m.blocks b (blockSize b txs)
    (alreadyGenerated m.blocks) (totalFee 0 txs) = some emissionChange

variable {env}

theorem pushBlock_cases (now : UInt64) (hU : TxInj env U) (hm : Sound env U m)
    (hoffered : Offered env U b txs) :
    (∃ bvc, pushBlock env now b txs m = .ok (false, bvc) m ∧ ¬ Oversized env now m b txs) ∨
    (∃ fault left, pushBlock env now b txs m = .error fault left ∧
      ¬ Oversized env now m b txs ∧ (2 ^ 16 ≤ b.baseTransaction.outputs.length ∨
        checkBlockInputs env now m b txs = .error fault ∨
          fault = .erased ∧ ¬ LastingAll m b txs)) ∨
    (Oversized env now m b txs ∧ pushBlock env now b txs m =
      .ok (false, .failed) (m.setTables (filledTables env m b txs))) ∨
    (∃ difficulty em, Acceptance env now m b txs difficulty em ∧ pushBlock env now b txs m =
        .ok (true, .added) (accepted env m b txs difficulty em)) := by
  cases hheader : checkHeader env now m b with
  | error bvc =>
    refine .inl ⟨bvc,pushBlock_header_error hheader,?_⟩
    rintro ⟨⟨difficulty,hok⟩,-,-,-⟩
    rw [(checkHeader_ok env).mpr hok] at hheader
    cases hheader
  | ok difficulty =>
    have hok := (checkHeader_ok env).mp hheader
    by_cases hshort : b.baseTransaction.outputs.length < 2 ^ 16
    · cases hcheck : checkBlockInputs env now m b txs with
      | error fault =>
        obtain ⟨left,hl⟩ := pushBlock_fault hU hm hoffered hok hshort hcheck
        refine .inr (.inl ⟨fault,left,hl,?_,.inr (.inl rfl)⟩)
        rintro ⟨-,-,hins,-⟩
        rw [hcheck] at hins
        cases hins
      | ok valid =>
        cases valid with
        | false =>
          have hnot : ¬ Oversized env now m b txs := by
            rintro ⟨-,-,hins,-⟩
            rw [hcheck] at hins
            cases hins
          rcases pushBlock_inputs_refused hU hm hoffered hok hshort hcheck with
            hr | ⟨hnew,left,hl⟩
          · exact .inl ⟨_,hr,hnot⟩
          · exact .inr (.inl ⟨_,left,hl,hnot,.inr (.inr ⟨rfl,hnew⟩)⟩)
        | true =>
          cases hs : checkCumulativeBlockSize env (blockSize b txs) m.blocks.length with
          | false =>
            exact .inr (.inr (.inl ⟨⟨⟨difficulty,hok⟩,hshort,hcheck,hs⟩,
              pushBlock_oversized hU hm hoffered hok hshort hcheck hs⟩))
          | true =>
            have hnot : ¬ Oversized env now m b txs := by
              rintro ⟨-,-,-,ho⟩
              rw [hs] at ho
              cases ho
            cases hrw : validateMinerTransaction env m.blocks b (blockSize b txs)
                (alreadyGenerated m.blocks) (totalFee 0 txs) with
            | none =>
              rcases pushBlock_reward_refused hU hm hoffered hok hshort hcheck hs hrw with
                hr | ⟨hnew,left,hl⟩
              · exact .inl ⟨_,hr,hnot⟩
              · exact .inr (.inl ⟨_,left,hl,hnot,.inr (.inr ⟨rfl,hnew⟩)⟩)
            | some em =>
              exact .inr (.inr (.inr ⟨difficulty,em, ⟨hok,hshort,hcheck,hs,hrw⟩,
                pushBlock_accepted hU hm hoffered hok hshort hcheck hs hrw⟩))
    · obtain ⟨left,hl⟩ := pushBlock_coinbase_endless hU hm hoffered hok (not_lt.mp hshort)
      refine .inr (.inl ⟨_,left,hl,?_,.inl (not_lt.mp hshort)⟩)
      rintro ⟨-,ho,-,-⟩
      exact hshort ho

theorem pushBlock_true {m' : MainChain} (hU : TxInj env U) (hm : Sound env U m)
    (hoffered : Offered env U b txs) (h : pushBlock env now b txs m = .ok (true, bvc) m') :
    bvc = .added ∧ ∃ difficulty em, Acceptance env now m b txs difficulty em ∧
      m' = accepted env m b txs difficulty em := by
  rcases pushBlock_cases now hU hm hoffered with
    ⟨_,hrun,-⟩ | ⟨_,_,hrun,-⟩ | ⟨-,hrun⟩ | ⟨difficulty,em,hacc,hrun⟩
  · rw [hrun] at h
    cases h
  · rw [hrun] at h
    cases h
  · rw [hrun] at h
    cases h
  · rw [hrun] at h
    cases h
    exact ⟨rfl,difficulty,em,hacc,rfl⟩

theorem acceptedEntry_bl : (acceptedEntry env m b txs difficulty em).bl = b := rfl

theorem accepted_blocks :
    (accepted env m b txs difficulty em).blocks =
      m.blocks ++ [acceptedEntry env m b txs difficulty em] := rfl

theorem accepted_tables :
    (accepted env m b txs difficulty em).tables = filledTables env m b txs := rfl

theorem accepted_blockIndex (h : env.getBlockHash b ∉ m.blockIndex) :
    (accepted env m b txs difficulty em).blockIndex = m.blockIndex ++ [env.getBlockHash b] :=
  if_neg h

theorem accepted_generated (h : m.generatedTransactionsIndex.index.length = m.blocks.length) :
    (accepted env m b txs difficulty em).generatedTransactionsIndex =
      let number := m.generatedTransactionsIndex.lastGeneratedTxNumber +
        UInt64.ofNat b.transactionHashes.length + 1
      ⟨m.generatedTransactionsIndex.index ++ [number], number⟩ :=
  if_neg (not_not.mpr h)

theorem sound_accepted (hU : TxInj env U) (hm : Sound env U m)
    (hoffered : Offered env U b txs) (h : Acceptance env now m b txs difficulty em) :
    Sound env U (accepted env m b txs difficulty em) where
  recorded := by
    rw [accepted_blocks, accepted_tables, List.length_append]
    exact (entering_filled hU hm hoffered h.header h.short h.inputs).recorded
  index := by
    rw [accepted_blockIndex h.header.fresh, accepted_blocks, List.map_append, hm.index]
    rfl
  distinct := by
    rw [accepted_blockIndex h.header.fresh, ← List.concat_eq_append]
    exact hm.distinct.concat h.header.fresh
  counted := by
    rw [accepted_generated hm.counted, accepted_blocks]
    simp [hm.counted]
  total := by
    rw [accepted_generated hm.counted]
    simp

theorem remove_add (g : GeneratedTransactionsIndex) (cnt : ℕ)
    (htot : g.lastGeneratedTxNumber = g.index.getLast?.getD 0) :
    (g.add g.index.length cnt).remove g.index.length = g := by
  have hadd : g.add g.index.length cnt =
      ⟨g.index ++ [g.lastGeneratedTxNumber + UInt64.ofNat cnt + 1],
        g.lastGeneratedTxNumber + UInt64.ofNat cnt + 1⟩ := if_neg (not_not.mpr rfl)
  rw [hadd, GeneratedTransactionsIndex.remove]
  simp only [List.length_append, List.length_cons, List.length_nil, Nat.zero_add, ne_eq,
    not_true_eq_false, if_false, List.dropLast_concat, ← htot]

theorem popStoredBlock_accepted (hU : TxInj env U) (hm : Sound env U m)
    (hoffered : Offered env U b txs) (h : Acceptance env now m b txs difficulty em) :
    popStoredBlock env (env.getBlockHash b) (accepted env m b txs difficulty em) = .ok ⟨⟩ m ∨
      ¬ LastingAll m b txs ∧ ∃ left, popStoredBlock env (env.getBlockHash b)
        (accepted env m b txs difficulty em) = .error .erased left := by
  have hl : (accepted env m b txs difficulty em).blocks.getLast? =
      some (acceptedEntry env m b txs difficulty em) := by
    rw [accepted_blocks, List.getLast?_concat]
  have hu := undo_filled hU hm hoffered h.header h.short h.inputs
  rw [onTables, within_ok] at hu
  rcases hu with ⟨t,ht,heq⟩ | ⟨hnew,left,hl'⟩
  swap
  · rw [within_error] at hl'
    obtain ⟨t,ht,-⟩ := hl'
    refine .inr ⟨hnew,(accepted env m b txs difficulty em).setTables t,?_⟩
    unfold popStoredBlock
    rw [get_bind]
    simp only [hl]
    exact bind_of_error ((within_error ..).mpr ⟨t,ht,rfl⟩)
  left
  have hta : t = m.tables := congrArg MainChain.tables heq
  subst hta
  have hpop : onTables (popTransactions env (acceptedEntry env m b txs difficulty em)
      (env.getObjectHash (acceptedEntry env m b txs difficulty em).bl.baseTransaction))
      (accepted env m b txs difficulty em) =
      .ok ⟨⟩ ((accepted env m b txs difficulty em).setTables m.tables) := by
    rw [onTables, within_ok]
    exact ⟨_,ht,rfl⟩
  have hg := remove_add m.generatedTransactionsIndex b.transactionHashes.length hm.total
  rw [hm.counted] at hg
  unfold popStoredBlock
  rw [get_bind]
  simp only [hl]
  rw [bind_of_ok hpop, modify_bind]
  simp only [acceptedEntry_bl, coinbaseHeight_of_header h.header]
  rw [modify_bind, modify_run]
  congr 1
  simp only [dropBlock, setGenerated, removeTimestamp, MainChain.setTables, accepted, storeBlock,
    acceptedEntry_bl, h.header.fresh, if_false, List.dropLast_concat, Multiset.erase_cons_head,
    hg]

end Orbis.ChainSound
