import Orbis.ChainLedger

/-!
# Rebuilding the tables from the stored blocks

A node that finds no usable cache file scans its blocks and rebuilds the
tables, and a second scan rebuilds the indexes of the explorer. Both scans
count the transactions of a block with 16 bits. After any history of accepted
blocks and removed blocks they compute the tables and indexes that the node
had, unless a block has so many transactions that the counter never reaches
the end of it.
-/

set_option autoImplicit false

namespace Orbis.ChainCache

open FaultState VectorTable ChainTypes ChainCurrency ChainSignature ChainSemantic ChainTables
open ChainUndo ChainInputs ChainBlock ChainStack ChainPush ChainSound ChainBuilt
open ChainRun ChainRestore ChainLedger

variable (env : Env)

variable {t : Tables} {m : MainChain}

/-- Inserting into the map keeps an entry that is already there. -/
def recordTransaction (hash : Hash) (index : TransactionIndex) (t : Tables) : Tables :=
  if hash ∈ t.transactionMap then t else insertTransaction hash index t

def scanInputs : List TransactionInput → EStateM Fault Tables Unit
  | [] => pure ()
  | .base _ :: rest => scanInputs rest
  | .key _ _ image :: rest => do
    modify (spendKeyImage image)
    scanInputs rest
  | .multisignature amount _ outputIndex :: rest => do
    markUsed true amount outputIndex
    scanInputs rest

def scanTransaction (tx : Transaction) (index : TransactionIndex) : EStateM Fault Tables Unit := do
  modify (recordTransaction (env.getObjectHash tx) index)
  scanInputs tx.inputs
  if 2 ^ 16 ≤ tx.outputs.length then throw .endless
  else modify fun t => (pushOutputs index 0 tx.outputs t).1

def scanTransactions (b : ℕ) : ℕ → List TransactionEntry → EStateM Fault Tables Unit
  | _, [] => pure ()
  | t, entry :: rest => do
    scanTransaction env entry.tx (position b t)
    scanTransactions b (t + 1) rest

def pushIndex (hash : Hash) (m : MainChain) : MainChain :=
  { m with blockIndex := if hash ∈ m.blockIndex then m.blockIndex else m.blockIndex ++ [hash] }

/-- One block of the scan; the loop over its transactions ends only if their
number is below `2 ^ 16`. -/
def scanBlock (b : ℕ) (block : BlockEntry) : EStateM Fault MainChain Unit := do
  modify (pushIndex (env.getBlockHash block.bl))
  if 2 ^ 16 ≤ block.transactions.length then throw .endless
  else onTables (scanTransactions env b 0 block.transactions)

def scanBlocks : ℕ → List BlockEntry → EStateM Fault MainChain Unit
  | _, [] => pure ()
  | b, block :: rest => do
    scanBlock env b block
    scanBlocks (b + 1) rest

def setPayments (t : Tables) (ids : Multiset (Hash × Hash)) : Tables :=
  { t with paymentIdIndex := ids }

def clearCache (m : MainChain) : MainChain :=
  { m with blockIndex := [], tables := setPayments Tables.empty m.tables.paymentIdIndex }

def rebuildCache : EStateM Fault MainChain Unit := do
  modify clearCache
  let m ← get
  scanBlocks env 0 m.blocks

/-- Clearing the index leaves the last number. -/
def GeneratedTransactionsIndex.clear (g : GeneratedTransactionsIndex) :
    GeneratedTransactionsIndex :=
  { g with index := [] }

def addTimestamp (block : Block) (m : MainChain) : MainChain :=
  { m with timestampIndex := (block.timestamp, env.getBlockHash block) ::ₘ m.timestampIndex }

def addPaymentIds (entries : List TransactionEntry) (m : MainChain) : MainChain :=
  m.setTables (entries.foldl (fun t entry => addPaymentId env entry.tx t) m.tables)

def indexBlock (block : BlockEntry) : EStateM Fault MainChain Unit := do
  modify (addTimestamp env block.bl)
  match coinbaseHeight block.bl with
  | none => throw .badGet
  | some height =>
    modify fun m => setGenerated m (m.generatedTransactionsIndex.add height
      block.bl.transactionHashes.length)
    if 2 ^ 16 ≤ block.transactions.length then throw .endless
    else modify (addPaymentIds env block.transactions)

def indexBlocks : List BlockEntry → EStateM Fault MainChain Unit
  | [] => pure ()
  | block :: rest => do
    indexBlock env block
    indexBlocks rest

def clearIndices (m : MainChain) : MainChain :=
  { m with
    tables := setPayments m.tables 0
    timestampIndex := 0
    generatedTransactionsIndex := GeneratedTransactionsIndex.clear m.generatedTransactionsIndex }

/-- The part of `loadBlockchainIndices` that runs when no indexes could be
loaded. -/
def rebuildIndices : EStateM Fault MainChain Unit := do
  modify clearIndices
  let m ← get
  indexBlocks env m.blocks

def opened (blocks : List BlockEntry) : MainChain := { MainChain.empty with blocks := blocks }

def restart (blocks : List BlockEntry) : EStateM.Result Fault MainChain Unit :=
  (do rebuildCache env; rebuildIndices env : EStateM Fault MainChain Unit) (opened blocks)

variable {env}

theorem scanInputs_ok (ins : List TransactionInput) (t : Tables)
    (h : Inside t.multisignatureOutputs (places ins)) :
    scanInputs ins t = .ok ⟨⟩ (consumeInputs ins t) := by
  induction ins generalizing t with
  | nil => simp [scanInputs, consumeInputs, places, modifyAll]
  | cons inp rest ih =>
    cases inp with
    | base _ => exact ih t h
    | key _ _ im =>
      simp only [scanInputs]
      rw [modify_bind, ih (spendKeyImage im t) h]
      simp [consumeInputs, spendKeyImage, places]
    | multisignature amt _ idx =>
      have hh := h (amt, idx.toNat) (by simp [places])
      have hr : Inside t.multisignatureOutputs (places rest) :=
        fun p hp => h p (List.mem_cons_of_mem _ hp)
      simp only [scanInputs]
      rw [bind_of_ok (markUsed_ok hh), ih _ (inside_setUsedAt hr)]
      simp [consumeInputs, setUsedAt, places, modifyAll]

theorem pushOutputs_setPayments (idx : TransactionIndex) (op : UInt16)
    (outs : List TransactionOutput) (t : Tables) (ids : Multiset (Hash × Hash)) :
    (pushOutputs idx op outs (setPayments t ids)).1 =
      setPayments (pushOutputs idx op outs t).1 ids := by
  induction outs generalizing op t with
  | nil => rfl
  | cons out _ ih =>
    have hout : pushOutput idx op out (setPayments t ids) =
        setPayments (pushOutput idx op out t) ids := by
      unfold pushOutput
      cases out.target <;> rfl
    simp only [pushOutputs, hout]
    exact ih _ _

theorem scanTransaction_ok {tx : Transaction} (idx : TransactionIndex)
    (h : Admissible t tx (env.getObjectHash tx)) (ids : Multiset (Hash × Hash)) :
    scanTransaction env tx idx (setPayments t ids) =
      .ok ⟨⟩ (setPayments (applyTransaction env tx (env.getObjectHash tx) idx t) ids) := by
  have hr : recordTransaction (env.getObjectHash tx) idx (setPayments t ids) =
      setPayments (insertTransaction (env.getObjectHash tx) idx t) ids := if_neg h.fresh
  have hins := scanInputs_ok tx.inputs
    (setPayments (insertTransaction (env.getObjectHash tx) idx t) ids) h.spendable.inside
  unfold scanTransaction
  rw [modify_bind, hr, bind_of_ok hins, if_neg (not_le.mpr h.short), modify_run]
  exact congrArg _ (pushOutputs_setPayments idx 0 tx.outputs
    (consumeInputs tx.inputs (insertTransaction (env.getObjectHash tx) idx t)) ids)

theorem scanTransactions_ok (ht k : ℕ) (es : List TransactionEntry)
    (h : AdmissibleAll env ht k (es.map TransactionEntry.tx) t)
    (ids : Multiset (Hash × Hash)) : scanTransactions env ht k es (setPayments t ids) =
      .ok ⟨⟩ (setPayments (enterAll env ht k (es.map TransactionEntry.tx) t) ids) := by
  induction es generalizing k t with
  | nil => rfl
  | cons _ _ ih =>
    rw [scanTransactions, bind_of_ok (scanTransaction_ok _ h.1 ids)]
    exact ih (k + 1) h.2

theorem scanBlocks_append {k : ℕ} {l r : List BlockEntry} : scanBlocks env k (l ++ r) =
      (scanBlocks env k l >>= fun _ => scanBlocks env (k + l.length) r) := by
  induction l generalizing k with
  | nil => rfl
  | cons blk rest ih =>
    have hlen : k + 1 + rest.length = k + (blk :: rest).length := by
      rw [List.length_cons]
      omega
    rw [List.cons_append, scanBlocks, scanBlocks, bind_assoc]
    simp only [ih, hlen]

def cached (blocks : List BlockEntry) (m : MainChain) : MainChain :=
  { opened blocks with blockIndex := m.blockIndex, tables := setPayments m.tables 0 }

def Short (blocks : List BlockEntry) : Prop := ∀ e ∈ blocks, e.transactions.length < 2 ^ 16

variable {b : Block} {txs : List Transaction} {df c : UInt64} {em : Int64}

section Scan

variable {U : Set Transaction} {P : Block → Prop} {ck now : UInt64}

theorem scanBlock_ok (hU : TxInj env U) (hm : Sound env U m) (hoff : Offered env U b txs)
    (hacc : Acceptance env now m b txs df em)
    (hsh : (acceptedEntry env m b txs df em).transactions.length < 2 ^ 16)
    (bs : List BlockEntry) : scanBlock env m.blocks.length (acceptedEntry env m b txs df em)
        (cached bs m) = .ok ⟨⟩ (cached bs (accepted env m b txs df em)) := by
  have hadm := admissible_filled hU hm hoff hacc.header hacc.short hacc.inputs
  rw [← acceptedEntry_transactions env m b txs df em] at hadm
  have hs := scanTransactions_ok m.blocks.length 0 _ hadm 0
  rw [acceptedEntry_transactions] at hs
  have hon : onTables (scanTransactions env m.blocks.length 0
      (acceptedEntry env m b txs df em).transactions)
      (pushIndex (env.getBlockHash b) (cached bs m)) = .ok ⟨⟩
        ((pushIndex (env.getBlockHash b) (cached bs m)).setTables
          (setPayments (filledTables env m b txs) 0)) := by
    rw [onTables, within_ok]
    exact ⟨_,hs,rfl⟩
  unfold scanBlock
  rw [modify_bind, if_neg (not_le.mpr hsh)]
  exact hon

theorem scanBlocks_ok (hU : TxInj env U) (h : Built env U P ck m) (hsh : Short m.blocks)
    (bs : List BlockEntry) : scanBlocks env 0 m.blocks (opened bs) = .ok ⟨⟩ (cached bs m) := by
  induction h with
  | empty => rfl
  | @push _ _ _ _ _ _ lower _ _ offered acceptance ih =>
    rw [accepted_blocks] at hsh ⊢
    have hlw := ih fun e he => hsh e (List.mem_append_left _ he)
    have hblk := scanBlock_ok hU (lower.sound hU) offered acceptance
      (hsh _ (List.mem_append_right _ (by simp))) bs
    rw [scanBlocks_append, bind_of_ok hlw, scanBlocks, Nat.zero_add, bind_of_ok hblk]
    rfl

theorem scanBlock_endless (k : ℕ) {blk : BlockEntry} (h : 2 ^ 16 ≤ blk.transactions.length)
    (s : MainChain) :
    scanBlock env k blk s = .error .endless (pushIndex (env.getBlockHash blk.bl) s) := by
  unfold scanBlock
  rw [modify_bind, if_pos h]
  rfl

theorem scanBlocks_endless (hU : TxInj env U) (h : Built env U P ck m) (hl : ¬ Short m.blocks)
    (bs : List BlockEntry) : ∃ s, scanBlocks env 0 m.blocks (opened bs) = .error .endless s := by
  induction h with
  | empty => exact absurd (fun e he => by cases he) hl
  | @push m _ b txs df em lower _ _ _ _ ih =>
    rw [accepted_blocks] at hl ⊢
    rw [scanBlocks_append]
    by_cases hsh : Short m.blocks
    · have hla : 2 ^ 16 ≤ (acceptedEntry env m b txs df em).transactions.length := by
        by_contra hlt
        refine hl fun e he => ?_
        rcases List.mem_append.mp he with hold | hnew
        · exact hsh e hold
        · rw [List.mem_singleton.mp hnew]
          exact not_le.mp hlt
      rw [bind_of_ok (scanBlocks_ok hU lower hsh bs)]
      exact ⟨_,bind_of_error (scanBlock_endless _ hla _)⟩
    · obtain ⟨s,hs⟩ := ih hsh
      exact ⟨s,bind_of_error hs⟩

theorem payments_enterAll (env : Env) (ht k : ℕ) (es : List TransactionEntry) (t u : Tables) :
    es.foldl (fun t e => addPaymentId env e.tx t) (setPayments u t.paymentIdIndex) =
      setPayments u (enterAll env ht k (es.map TransactionEntry.tx) t).paymentIdIndex := by
  induction es generalizing k t with
  | nil => rfl
  | cons e _ ih =>
    have hids : (enter env ht k e.tx t).paymentIdIndex = t.paymentIdIndex + paymentIds env e.tx :=
      congrArg (· + paymentIds env e.tx) (pushOutputs_rest (position ht k) 0 e.tx.outputs _).2.2
    have hr := ih (k + 1) (enter env ht k e.tx t)
    rw [hids] at hr
    exact hr

theorem indexBlocks_append (l r : List BlockEntry) :
    indexBlocks env (l ++ r) = (indexBlocks env l >>= fun _ => indexBlocks env r) := by
  induction l with
  | nil => rfl
  | cons _ _ ih =>
    rw [List.cons_append, indexBlocks, indexBlocks, bind_assoc]
    simp only [ih]

def indexed (s m : MainChain) : MainChain :=
  { s with
    tables := setPayments s.tables m.tables.paymentIdIndex
    timestampIndex := m.timestampIndex
    generatedTransactionsIndex := m.generatedTransactionsIndex }

theorem indexBlock_ok (hacc : Acceptance env now m b txs df em)
    (hsh : (acceptedEntry env m b txs df em).transactions.length < 2 ^ 16) (s : MainChain) :
    indexBlock env (acceptedEntry env m b txs df em) (indexed s m) =
      .ok ⟨⟩ (indexed s (accepted env m b txs df em)) := by
  have hids := payments_enterAll env m.blocks.length 0
    (acceptedEntry env m b txs df em).transactions m.tables s.tables
  rw [acceptedEntry_transactions] at hids
  unfold indexBlock
  rw [modify_bind]
  simp only [acceptedEntry_bl, coinbaseHeight_of_header hacc.header]
  rw [modify_bind, if_neg (not_le.mpr hsh), modify_run, addPaymentIds]
  exact congrArg (fun t => EStateM.Result.ok PUnit.unit
    ((indexed s (accepted env m b txs df em)).setTables t)) hids

theorem indexBlocks_ok (h : Built env U P ck m) (hsh : Short m.blocks) (s : MainChain) :
    indexBlocks env m.blocks (indexed s MainChain.empty) = .ok ⟨⟩ (indexed s m) := by
  induction h with
  | empty => rfl
  | @push _ _ _ _ _ _ _ _ _ _ acceptance ih =>
    rw [accepted_blocks] at hsh ⊢
    have hlw := ih fun e he => hsh e (List.mem_append_left _ he)
    have hblk := indexBlock_ok acceptance (hsh _ (List.mem_append_right _ (by simp))) s
    rw [indexBlocks_append, bind_of_ok hlw, indexBlocks, bind_of_ok hblk]
    rfl

theorem restart_built (hU : TxInj env U) (h : Built env U P ck m) :
    (Short m.blocks → restart env m.blocks = .ok ⟨⟩ m) ∧
    (¬ Short m.blocks → ∃ s, restart env m.blocks = .error .endless s) := by
  have hc : rebuildCache env (opened m.blocks) = scanBlocks env 0 m.blocks (opened m.blocks) := by
    unfold rebuildCache
    rw [modify_bind, get_bind]
    rfl
  refine ⟨?_,?_⟩
  · intro hsh
    have hi : rebuildIndices env (cached m.blocks m) = .ok ⟨⟩ m := by
      unfold rebuildIndices
      rw [modify_bind, get_bind]
      exact indexBlocks_ok h hsh (cached m.blocks m)
    unfold restart
    rw [bind_of_ok (hc.trans (scanBlocks_ok hU h hsh m.blocks))]
    exact hi
  · intro hl
    obtain ⟨s,hs⟩ := scanBlocks_endless hU h hl m.blocks
    exact ⟨s,bind_of_error (hc.trans hs)⟩

end Scan

/-- The chains that arise from the genesis block by accepted blocks and by
removing the last block. -/
inductive History (env : Env) (U : Set Transaction) : MainChain → Prop
  | genesis {now : UInt64} {bvc : BlockVerificationContext} {m : MainChain}
      (offered : Offered env U env.currency.genesisBlock [])
      (call : pushBlock env now env.currency.genesisBlock [] MainChain.empty = .ok (true, bvc) m) :
      History env U m
  | push {now : UInt64} {b : Block} {txs : List Transaction} {bvc : BlockVerificationContext}
      {m m' : MainChain} (before : History env U m) (offered : Offered env U b txs)
      (call : pushBlock env now b txs m = .ok (true, bvc) m') : History env U m'
  | pop {block : BlockEntry} {m m' : MainChain} (before : History env U m)
      (last : m.blocks.getLast? = some block)
      (call : popStoredBlock env (env.getBlockHash block.bl) m = .ok ⟨⟩ m') : History env U m'

theorem History.built {U : Set Transaction} (hU : TxInj env U)
    (h : History env U m) : Built env U (Counted U) 18446744073709551615 m := by
  have hp : ∀ {now b txs bvc m m'}, Built env U (Counted U) 18446744073709551615 m →
      Offered env U b txs → pushBlock env now b txs m = .ok (true, bvc) m' →
      Built env U (Counted U) 18446744073709551615 m' := by
    intro now b txs bvc m m' hm hoff hc
    have hctd : Counted U b := by
      refine ⟨hoff.base,?_⟩
      rw [hoff.hashes, List.length_map]
      exact hoff.count
    exact (hm.pushBlock hU (le_last now) hctd hoff hc fun hff => Bool.noConfusion hff).1
  induction h with
  | genesis offered call => exact hp .empty offered call
  | push _ offered call ih => exact hp ih offered call
  | pop _ last call ih =>
    obtain ⟨_,now,txs,_,_,hlw,-,-,hoff,hacc,_,rfl⟩ := ih.last last
    rcases popStoredBlock_accepted hU (hlw.sound hU) hoff hacc with hpop | ⟨-,_,herr⟩
    · rw [hpop] at call
      cases call
      exact hlw
    · rw [herr] at call
      cases call

theorem entries_length {U : Set Transaction} {P : Block → Prop} {ck : UInt64}
    (h : Built env U P ck m) :
    ∀ e ∈ m.blocks, e.transactions.length = e.bl.transactionHashes.length + 1 := by
  refine h.entries ?_
  intro m now b txs df em allowed offered acceptance
  have hlen := congrArg List.length (acceptedEntry_transactions env m b txs df em)
  rw [List.length_map, List.length_cons] at hlen
  rw [hlen, acceptedEntry_bl, offered.hashes, List.length_map]

/-- After every history of accepted and removed blocks, a restart without
the cache files computes the tables and indexes of the chain exactly if each
of its blocks has fewer than 65535 transactions besides the coinbase. -/
theorem restart_restores_iff {U : Set Transaction} (hst : Storable env U)
    {m : MainChain} (h : History env U m) : restart env m.blocks = .ok ⟨⟩ m ↔
      ∀ e ∈ m.blocks, e.bl.transactionHashes.length + 1 < 2 ^ 16 := by
  have hU := hst.injective
  have hblt := h.built hU
  have hsh : Short m.blocks ↔ ∀ e ∈ m.blocks, e.bl.transactionHashes.length + 1 < 2 ^ 16 :=
    forall₂_congr fun e he => by rw [entries_length hblt e he]
  obtain ⟨hre,hen⟩ := restart_built hU hblt
  rw [← hsh]
  refine ⟨fun hr => ?_,hre⟩
  by_contra hl
  obtain ⟨_,hs⟩ := hen hl
  rw [hs] at hr
  cases hr

theorem sampleNode_history {U : Set Transaction} (hU : sampleCoinbase ∈ U) :
    History sampleEnv U sampleNode.main := by
  have hc : pushBlock sampleEnv 0 sampleEnv.currency.genesisBlock [] MainChain.empty =
      .ok (true, .added) sampleNode.main := by
    have hp : pushBlock sampleEnv 0 sampleEnv.currency.genesisBlock [] MainChain.empty =
        .ok (true, .added) _ := eq_ok_of_value (by decide)
    exact hp
  exact .genesis ⟨hU,by simp,by simp,rfl,by decide⟩ hc

def spentMain : MainChain :=
  left (pushBlock sampleEnv 111 (mine 3 1 111 sampleReward [3]) [fullSpend 3] sampleNode.main)

def unspentMain : MainChain := left (popStoredBlock sampleEnv 3 spentMain)

def respentMain : MainChain :=
  left (pushBlock sampleEnv 111 (mine 2 1 111 sampleReward [4]) [fullSpend 4] unspentMain)

theorem spentMain_blocks : spentMain.blocks ≠ [] := by decide

theorem respentMain_history : History sampleEnv fullSpends respentMain := by
  have hp : pushBlock sampleEnv 111 (mine 3 1 111 sampleReward [3]) [fullSpend 3]
      sampleNode.main = .ok (true, .added) spentMain := eq_ok_of_value (by decide)
  have hpop : popStoredBlock sampleEnv
      (sampleEnv.getBlockHash (spentMain.blocks.getLast spentMain_blocks).bl) spentMain =
        .ok ⟨⟩ unspentMain := eq_ok_of_value (by decide)
  have hagain : pushBlock sampleEnv 111 (mine 2 1 111 sampleReward [4]) [fullSpend 4]
      unspentMain = .ok (true, .added) respentMain := eq_ok_of_value (by decide)
  exact .push (.pop (.push (sampleNode_history (.inl rfl))
      (fullSpends_offered 3 [3] (by simp) (by decide)) hp)
    (List.getLast?_eq_some_getLast spentMain_blocks) hpop)
    (fullSpends_offered 2 [4] (by simp) (by decide)) hagain

theorem restart_restores_iff_sample :
    restart sampleEnv respentMain.blocks = .ok ⟨⟩ respentMain :=
  (restart_restores_iff fullSpends_storable respentMain_history).mpr (by decide)

def crowdGenesis : Transaction := mint 1 0 1 (.key 1)

def crowdReward : Transaction := mint 2 1 65535 (.multisignature [] 0)

def crowdTx (i : ℕ) : Transaction where
  version := 1
  unlockTime := 0
  inputs := [.key 1 [0] (i + 1)]
  outputs := []
  extra := []
  signatures := [[⟨0, 0⟩]]
  signed := rfl

theorem crowd_emission : (0 : UInt64) < 1 ∧ (1 : UInt64) ≤ 64 := by decide

def crowdEnv : Env where
  ops := sampleOps
  getObjectHash := fun tx => match tx.inputs with
    | [.key _ _ image] => image
    | [.base height] => 100000 + height
    | _ => 0
  getPrefixHash := fun _ => 0
  getBlockHash := fun b => b.nonce.toNat
  getPaymentId := fun _ => none
  checkProofOfWork := fun _ _ => true
  currency := { Currency.configured 0 (mine 1 nullHash 0 crowdGenesis []) with
    minedMoneyUnlockWindow := 1
    moneySupply := 2
    emissionSpeedFactor := 1
    emissionSpeedFactor_valid := crowd_emission
    blockGrantedFullRewardZone := 2 ^ 40
    maxBlockSizeInitial := 2 ^ 40 }
  checkpoints := ⟨[], noCheckpoints_increasing⟩

def crowdStart : MainChain :=
  left (pushBlock crowdEnv 0 crowdEnv.currency.genesisBlock [] MainChain.empty)

def crowd : List Transaction := (List.range 65535).map crowdTx

def crowdBlock : Block := mine 2 1 111 crowdReward (crowd.map crowdEnv.getObjectHash)

def crowdTransactions : Set Transaction :=
  {tx | tx = crowdGenesis ∨ tx = crowdReward ∨ ∃ i < 65535, tx = crowdTx i}

theorem crowd_check {i : ℕ} (hfr : i + 1 ∉ t.spentKeys)
    (hout : (bucket t.outputs 1)[0]? = some (⟨0, 0⟩, 0)) :
    checkTransactionInputs crowdEnv 111 crowdStart.blocks t (crowdTx i) = .ok (true, 0) := by
  have hl : ∃ outs, t.outputs.lookup 1 = some outs ∧ outs[0]? = some (⟨0, 0⟩, 0) := by
    unfold bucket at hout
    cases h : t.outputs.lookup 1 with
    | none => simp [h] at hout
    | some outs => exact ⟨outs,rfl,by simpa [h] using hout⟩
  obtain ⟨outs,hl,hs⟩ := hl
  have hent : transactionByIndex crowdStart.blocks ⟨0, 0⟩ = .ok ⟨crowdGenesis, [0]⟩ := by
    decide
  have hkey : handleOutput crowdEnv 111 crowdStart.blocks crowdGenesis ⟨1, .key 1⟩ = some 1 := by
    decide
  have hsc : scanOutputKeysForIndexes crowdEnv 111 crowdStart.blocks t 1 [0] =
      .ok (some ([1], 0)) := by
    have hgen : crowdGenesis.outputs[0]? = some ⟨1, .key 1⟩ := rfl
    unfold scanOutputKeysForIndexes
    rw [hl]
    change scanOffsets crowdEnv 111 crowdStart.blocks outs [0] = _
    simp [scanOffsets, hs, hent, hkey, hgen]
  have hr : crowdEnv.ops.checkRingSignature 0 (i + 1) [1] [⟨0, 0⟩] = .ok true := by
    simp [CurveOps.checkRingSignature, CurveOps.ringCommitments, CurveOps.scCheck, CurveOps.scAdd,
      CurveOps.scSub, crowdEnv, sampleOps]
  have hchk : checkInput crowdEnv 111 crowdStart.blocks t 0 (.key 1 [0] (i + 1)) [⟨0, 0⟩] 0 =
      .ok (true, 0) := by
    simp [checkInput, hfr, checkTxInput, hsc, hr,
      ringCached_of_length (show [(0 : UInt32)].length ≤ blockCacheSize from by decide)]
  change checkInputs crowdEnv 111 crowdStart.blocks t 0 [(.key 1 [0] (i + 1), [⟨0, 0⟩])] 0 = _
  rw [checkInputs, hchk]
  rfl

theorem crowd_checks (images : List ℕ) (k : ℕ) (hnd : images.Nodup)
    (hfr : ∀ i ∈ images, i + 1 ∉ t.spentKeys) (hout : (bucket t.outputs 1)[0]? = some (⟨0, 0⟩, 0)) :
    checkAll crowdEnv 111 crowdStart.blocks k (images.map crowdTx) t = .ok true := by
  induction images generalizing k t with
  | nil => rfl
  | cons i _ ih =>
    obtain ⟨hi,hr⟩ := List.nodup_cons.mp hnd
    have hlat := ih (k + 1) (t := enter crowdEnv crowdStart.blocks.length k (crowdTx i) t) hr ?_ ?_
    · rw [List.map_cons, checkAll, crowd_check (hfr i (by simp)) hout]
      exact hlat
    · intro j hj
      rw [enter, applyTransaction_spentKeys, Finset.mem_union, not_or]
      refine ⟨hfr j (List.mem_cons_of_mem _ hj),?_⟩
      intro hmem
      have heq : j + 1 = i + 1 := by simpa [crowdTx] using hmem
      exact hi (by rwa [← Nat.succ.inj heq])
    · rw [enter, (applyTransaction_buckets crowdEnv (crowdTx i) _ _ t 1).1]
      exact (List.getElem?_append_left (List.getElem?_eq_some_iff.mp hout).1).trans hout

theorem foldl_const {α : Type} {f : α → UInt64} (l : List α) (hf : ∀ a ∈ l, f a = c)
    (start : UInt64) : (l.map f).foldl (· + ·) start = start + UInt64.ofNat l.length * c := by
  induction l generalizing start with
  | nil => simp
  | cons a _ ih =>
    rw [List.map_cons, List.foldl_cons, ih (fun b hb => hf b (List.mem_cons_of_mem _ hb)),
      hf a (by simp), List.length_cons, UInt64.ofNat_add]
    rw [show UInt64.ofNat 1 = 1 from rfl, UInt64.add_mul, UInt64.one_mul, UInt64.add_assoc,
      UInt64.add_comm c]

theorem crowd_length : crowd.length = 65535 := by
  rw [crowd, List.length_map, List.length_range]

theorem crowd_const {f : Transaction → UInt64} (hf : ∀ i, f (crowdTx i) = c) :
    ∀ tx ∈ crowd, f tx = c := by
  intro tx htx
  obtain ⟨i,-,rfl⟩ := List.mem_map.mp htx
  exact hf i

theorem crowd_size : blockSize crowdBlock crowd = 6881189 := by
  have hs := foldl_const (f := getObjectBinarySize) (c := 105) crowd
    (crowd_const fun i => by simp [crowdTx, getObjectBinarySize]; rfl)
    (getObjectBinarySize crowdReward)
  rw [crowd_length] at hs
  exact hs.trans (by decide)

theorem crowd_fee : totalFee 0 crowd = 65535 := by
  have hfee := foldl_const (f := transactionFee) (c := 1) crowd (crowd_const fun i => by
      simp [crowdTx, transactionFee, getInputAmount, getInputsAmounts, getOutputAmount]) 0
  rw [crowd_length] at hfee
  exact hfee.trans (by decide)

theorem crowd_injOn : Set.InjOn crowdEnv.getObjectHash crowdTransactions := by
  rintro x (rfl | rfl | ⟨i,hi,rfl⟩) y (rfl | rfl | ⟨j,hj,rfl⟩) h
  · rfl
  · exact absurd h (by decide)
  · have heq : 100000 = j + 1 := h
    omega
  · exact absurd h (by decide)
  · rfl
  · have heq : 100001 = j + 1 := h
    omega
  · have heq : i + 1 = 100000 := h
    omega
  · have heq : i + 1 = 100001 := h
    omega
  · have heq : i + 1 = j + 1 := h
    rw [Nat.succ.inj heq]

theorem crowd_offered : Offered crowdEnv crowdTransactions crowdBlock crowd where
  base := .inr (.inl rfl)
  known := by
    intro tx htx
    obtain ⟨i,hi,rfl⟩ := List.mem_map.mp htx
    exact .inr (.inr ⟨i,List.mem_range.mp hi,rfl⟩)
  semantic := by
    intro tx htx
    obtain ⟨i,-,rfl⟩ := List.mem_map.mp htx
    simp [checkTxSemantic, crowdTx, checkInputsTypesSupported, isSupported, checkOutsValid,
      checkMoneyOverflow, checkInputsOverflow, checkOutsOverflow, checkAmountsOverflow, inputMoney,
      getInputsMoneyAmount, getOutsMoneyAmount, checkTxInputsKeyimagesDiff,
      checkMultisignatureInputsDiff]
  hashes := by simp only [crowdBlock, mine]
  count := by
    rw [crowd_length]
    decide

theorem crowdStart_history : History crowdEnv crowdTransactions crowdStart :=
  .genesis ⟨.inl rfl,by simp,by simp,rfl,by decide⟩
    (eq_ok_of_value (show _ = some (true, .added) from by decide))

theorem crowd_acceptance : Acceptance crowdEnv 111 crowdStart crowdBlock crowd 1 0 where
  header := by constructor <;> decide
  short := by decide
  inputs := by
    have hsp : (entered crowdEnv crowdStart crowdBlock).tables.spentKeys = ∅ := by
      decide
    refine crowd_checks (List.range 65535) 1 List.nodup_range ?_ (by decide)
    intro i _
    rw [hsp]
    exact Finset.notMem_empty _
  size := by
    rw [crowd_size]
    decide
  reward := by
    rw [crowd_size, crowd_fee]
    decide

/-- A block with 65535 transactions is accepted, and the scan of a restarted
node never gets past it. -/
theorem crowded_block_never_scanned : Set.InjOn crowdEnv.getObjectHash crowdTransactions ∧
    History crowdEnv crowdTransactions (accepted crowdEnv crowdStart crowdBlock crowd 1 0) ∧
    ∃ s, restart crowdEnv (accepted crowdEnv crowdStart crowdBlock crowd 1 0).blocks =
      .error .endless s := by
  have hsd := (crowdStart_history.built crowd_injOn).sound crowd_injOn
  have hacc := crowd_acceptance
  have hhis : History crowdEnv crowdTransactions
      (accepted crowdEnv crowdStart crowdBlock crowd 1 0) :=
    .push crowdStart_history crowd_offered (pushBlock_accepted crowd_injOn hsd crowd_offered
      hacc.header hacc.short hacc.inputs hacc.size hacc.reward)
  refine ⟨crowd_injOn,hhis,(restart_built crowd_injOn (hhis.built crowd_injOn)).2 ?_⟩
  intro hsh
  have hlen := congrArg List.length
    (acceptedEntry_transactions crowdEnv crowdStart crowdBlock crowd 1 0)
  rw [List.length_map, List.length_cons, crowd_length] at hlen
  have hl := hsh _ (List.mem_append_right _ (List.mem_singleton.mpr rfl))
  rw [hlen] at hl
  exact absurd hl (by decide)

end Orbis.ChainCache
